import UnboundedDeque.StepMachine
import UnboundedDeque.DequeSide
import UnboundedDeque.SoloRun
import UnboundedDeque.LockFreedom
import UnboundedDeque.LinearizableDeque
import UnboundedDeque.GlobalLock
import UnboundedDeque.LockedContainers
import UnboundedDeque.WSDequeConservation
import UnboundedDeque.WSDequeWords
import UnboundedDeque.WSDequePoolLockFreedom
import UnboundedDeque.ElimTableExact
import UnboundedDeque.OFDequeRefinement
import UnboundedDeque.OFDequeRepresentation
import UnboundedDeque.OFDequeEmptyPop
import UnboundedDeque.OFDequeHints
import UnboundedDeque.OFDequeLinearizability
import UnboundedDeque.OFDequeSolo
import UnboundedDeque.OFDequeFindEdge
import UnboundedDeque.OFDequeRecycling
import UnboundedDeque.OFDequeDrift
import UnboundedDeque.OFDequeVersionSteps
import UnboundedDeque.OFDequeWraparound
import UnboundedDeque.OFDequeObstruction
import UnboundedDeque.SideList
import UnboundedDeque.HazardScan
import UnboundedDeque.StackVerificationTest
import UnboundedDeque.PotatoTest
import UnboundedDeque.WarmMemory
import UnboundedDeque.Affinity
import UnboundedDeque.RecorderFiles
import UnboundedDeque.BlockPoolProgress
import UnboundedDeque.ElimTableScan
import UnboundedDeque.FCDequeProgress
import UnboundedDeque.MMDequeReclamation
import UnboundedDeque.MMDequeProgress
import UnboundedDeque.OFDequeStale
