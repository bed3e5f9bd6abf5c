import UnboundedDeque.OrderedMap

/-!
# The fields of `Recorder`

A recorder keeps global fields and, for each thread, the thread fields, all as texts. What
it keeps is compared with the arguments of the reports. Strings are lists of characters.
-/
namespace UnboundedDeque
open OrderedMap

abbrev Text := List Char

/-- A function that summarizes the values of the threads; `none` when its `ftoa` overruns. -/
abbrev Summary := List Text → Option Text

/-- `localFields` has one map for each of the `task_num` threads. -/
structure Recorder where
  globalFields : SortedMap Text Text
  localFields : List (SortedMap Text Text)
  summaryFunctions : SortedMap Text Summary

namespace Recorder

variable {D : Type*} (print : D → Text)

/-- `sprintf` to `char buff[20]`; `none` when the text and its final zero are longer. -/
def sprintf (text : Text) : Option Text := if text.length < 20 then some text else none

/-- What `%d` prints. -/
def decimal (i : ℤ) : Text := i.repr.toList

def itoa (i : BitVec 32) : Option Text := sprintf (decimal i.toInt)

/-- `print` is what `%f` prints for a double. -/
def ftoa (f : D) : Option Text := sprintf (print f)

/-- The arguments that both reports are overloaded for. -/
inductive Value (D : Type*)
  | double (value : D)
  | int (value : BitVec 32)
  | string (value : Text)

/-- The arguments of `reportGlobalInfo`. -/
inductive GlobalValue (D : Type*)
  | plain (value : Value D)
  | unsignedLong (value : ℕ)

/-- The text a report stores. -/
def Value.stored : Value D → Option Text
  | .double value => ftoa print value
  | .int value => itoa value
  | .string value => some value

/-- An `unsigned long` is passed to `itoa(int)`. -/
def GlobalValue.stored : GlobalValue D → Option Text
  | .plain value => value.stored print
  | .unsignedLong value => itoa (BitVec.ofNat 32 value)

/-- The argument as a text. -/
def Value.text : Value D → Text
  | .double value => print value
  | .int value => decimal value.toInt
  | .string value => value

def GlobalValue.text : GlobalValue D → Text
  | .plain value => value.text print
  | .unsignedLong value => decimal value

/-- `Recorder(task_num)` -/
def new (task_num : ℕ) : Recorder :=
  ⟨SortedMap.empty, List.replicate task_num SortedMap.empty, SortedMap.empty⟩

def addGlobalField (r : Recorder) (field : Text) : Recorder :=
  if field ∈ r.globalFields.keys then r
  else { r with globalFields := r.globalFields.set field [] }

def addThreadField (r : Recorder) (field : Text) (summarizeFunction : Summary) : Recorder :=
  if field ∈ r.globalFields.keys then r
  else
    { globalFields := r.globalFields.set field []
      localFields := r.localFields.map fun m => m.set field []
      summaryFunctions := r.summaryFunctions.set field summarizeFunction }

def reportGlobalInfo (r : Recorder) (field : Text) (value : GlobalValue D) : Option Recorder :=
  (value.stored print).map fun text => { r with globalFields := r.globalFields.set field text }

/-- `reportThreadInfo`; `none` when `at` throws, too, or there is no such thread. -/
def reportThreadInfo (r : Recorder) (field : Text) (value : Value D) (tid : ℕ) : Option Recorder :=
  match value.stored print, r.localFields[tid]? with
  | some text, some m =>
    if field ∈ m.keys then
      some { r with localFields := r.localFields.set tid (m.set field text) }
    else none
  | _, _ => none

/-- The values of all threads for a field. -/
def threadValues (r : Recorder) (field : Text) : List Text :=
  r.localFields.map fun m => (m.get? field).getD []

/-- The entry `summarize` makes for a field; `none` when `at` throws. -/
def summarizeField (r : Recorder) (globals : SortedMap Text Text) (field : Text) :
    Option (SortedMap Text Text) :=
  (r.summaryFunctions.get? field).bind fun f => (f (threadValues r field)).map (globals.set field)

/-- `summarize`; `none` without threads, as `localFields[0]` does not exist. -/
def summarize (r : Recorder) : Option Recorder :=
  match r.localFields with
  | [] => none
  | m :: _ =>
    (m.keys.foldlM (summarizeField r) r.globalFields).map fun globals =>
      { r with globalFields := globals }

/-- The calls that build a recorder. -/
inductive Op (D : Type*)
  | addGlobalField (field : Text)
  | addThreadField (field : Text) (summarizeFunction : Summary)
  | reportGlobalInfo (field : Text) (value : GlobalValue D)
  | reportThreadInfo (field : Text) (value : Value D) (tid : ℕ)

def perform (r : Recorder) : Op D → Option Recorder
  | .addGlobalField field => some (r.addGlobalField field)
  | .addThreadField field f => some (r.addThreadField field f)
  | .reportGlobalInfo field value => r.reportGlobalInfo print field value
  | .reportThreadInfo field value tid => r.reportThreadInfo print field value tid

/-- The recorder after some calls, the last one first. -/
def after (task_num : ℕ) : List (Op D) → Option Recorder
  | [] => some (new task_num)
  | op :: past => (after task_num past).bind fun r => r.perform print op

/-- The global fields a call makes if they are not there. -/
def Op.names : Op D → List Text
  | .addGlobalField field | .addThreadField field _ | .reportGlobalInfo field _ => [field]
  | .reportThreadInfo .. => []

def names (past : List (Op D)) : List Text := past.flatMap Op.names

/-- The summary function of a thread field. -/
def summaryOf : List (Op D) → Text → Option Summary
  | [], _ => none
  | .addThreadField field f :: past, x =>
    if field = x ∧ x ∉ names past then some f else summaryOf past x
  | _ :: past, x => summaryOf past x

/-- The last value reported for a global field. -/
def lastReport : List (Op D) → Text → Option (GlobalValue D)
  | [], _ => none
  | .reportGlobalInfo field value :: past, x => if field = x then some value else lastReport past x
  | _ :: past, x => lastReport past x

/-- The last value a thread has reported for a field. -/
def lastThreadReport : List (Op D) → ℕ → Text → Option (Value D)
  | [], _, _ => none
  | .reportThreadInfo field value tid :: past, k, x =>
    if field = x ∧ tid = k then some value else lastThreadReport past k x
  | _ :: past, k, x => lastThreadReport past k x

/-- The texts of the values that the threads have reported for a field. -/
def threadTexts (task_num : ℕ) (past : List (Op D)) (field : Text) : List Text :=
  (List.range task_num).map fun k =>
    ((lastThreadReport past k field).map (Value.text print)).getD []

/-- The reported or summarized value of a field; `none` when its summary function overruns. -/
def column (task_num : ℕ) (past : List (Op D)) (field : Text) : Option Text :=
  match summaryOf past field with
  | some f => f (threadTexts print task_num past field)
  | none => some (((lastReport past field).map (GlobalValue.text print)).getD [])

/-- Thread values are reported by threads for thread fields. -/
def Addressed (task_num : ℕ) : List (Op D) → Prop
  | [] => True
  | .reportThreadInfo field _ tid :: past =>
    tid < task_num ∧ (summaryOf past field).isSome ∧ Addressed task_num past
  | _ :: past => Addressed task_num past

/-- A double is printed to the buffer of `ftoa` with its final zero. -/
def Value.Fits : Value D → Prop
  | .double value => (print value).length < 20
  | _ => True

def Op.Fits : Op D → Prop
  | .reportGlobalInfo _ (.plain value) | .reportThreadInfo _ value _ => value.Fits print
  | _ => True

/-- The value that a recorder puts in a row for a field. -/
def value (r : Recorder) (field : Text) : Option Text :=
  match r.summaryFunctions.get? field with
  | some f => f (r.threadValues field)
  | none => r.globalFields.get? field

variable {r t : Recorder} {x : Text} {task_num : ℕ} {past : List (Op D)} {op : Op D}

section Texts

theorem sprintf_eq_some {text out : Text} :
    sprintf text = some out ↔ text.length < 20 ∧ out = text := by
  rw [sprintf]
  split_ifs with h
  · rw [Option.some.injEq, and_iff_right h, eq_comm]
  · simp [h]

theorem decimal_natCast (n : ℕ) : decimal n = Nat.toDigits 10 n := Nat.toList_repr

theorem decimal_injective : Function.Injective decimal :=
  fun _ _ h => Int.repr_injective (String.toList_inj.mp h)

/-- An `int` always fits. -/
theorem itoa_eq (i : BitVec 32) : itoa i = some (decimal i.toInt) := by
  refine sprintf_eq_some.mpr ⟨?_, rfl⟩
  have hlength {n : ℕ} (hn : n < 10 ^ 10) : (Nat.toDigits 10 n).length ≤ 10 :=
    (Nat.length_toDigits_le_iff (by decide) (by decide)).mpr hn
  have hlo := BitVec.le_toInt i
  have hhi := BitVec.toInt_lt (x := i)
  cases hi : i.toInt with
  | ofNat n =>
    rw [hi, Int.ofNat_eq_natCast] at hhi
    have hn : n < 10 ^ 10 := by omega
    have htext : decimal (Int.ofNat n) = Nat.toDigits 10 n := decimal_natCast n
    rw [htext]
    exact (hlength hn).trans_lt (by decide)
  | negSucc n =>
    rw [hi] at hlo
    have hn : n + 1 < 10 ^ 10 := by omega
    have htext : decimal (Int.negSucc n) = '-' :: Nat.toDigits 10 (n + 1) := by
      rw [decimal, Int.repr, String.toList_append, Nat.toList_repr]
      rfl
    rw [htext, List.length_cons]
    have := hlength hn
    omega

theorem Value.text_of_stored {v : Value D} {text : Text} (h : v.stored print = some text) :
    text = v.text print := by
  cases v with
  | double d => exact (sprintf_eq_some.mp h).2
  | int i => exact (Option.some.inj ((itoa_eq i).symm.trans h)).symm
  | string s => exact (Option.some.inj h).symm

/-- An `unsigned long` comes out as it is exactly if it is an `int`. -/
theorem stored_unsignedLong_iff (u : ℕ) : itoa (BitVec.ofNat 32 u) = some (decimal u) ↔
    u < 2 ^ 31 := by
  rw [itoa_eq, Option.some.injEq, decimal_injective.eq_iff, BitVec.toInt_ofNat']
  simp only [Int.bmod_def]
  omega

end Texts

section Kept

/-- What a recorder keeps of the calls that have built it. -/
structure Kept (task_num : ℕ) (past : List (Op D)) (r : Recorder) : Prop where
  threads : r.localFields.length = task_num
  keys : ∀ x, x ∈ r.globalFields.keys ↔ x ∈ names past
  summaries : ∀ x, r.summaryFunctions.get? x = summaryOf past x
  locals : ∀ m ∈ r.localFields, ∀ x, x ∈ m.keys ↔ (summaryOf past x).isSome
  silent : ∀ k x, summaryOf past x = none → lastThreadReport past k x = none
  reports : ∀ k m, r.localFields[k]? = some m → ∀ x,
    m.get? x = (summaryOf past x).map fun _ =>
      ((lastThreadReport past k x).map (Value.text print)).getD []
  reported : ∀ x v, lastReport past x = some v → r.globalFields.get? x = v.stored print
  unreported : ∀ x ∈ names past, lastReport past x = none → r.globalFields.get? x = some []

theorem lastReport_of_notMem (h : x ∉ names past) : lastReport past x = none := by
  induction past with
  | nil => rfl
  | cons op past ih =>
    rw [names, List.flatMap_cons, List.mem_append, not_or] at h
    cases op with
    | reportGlobalInfo f v =>
      rw [lastReport, if_neg fun he => h.1 (List.mem_singleton.mpr he.symm)]
      exact ih h.2
    | _ => exact ih h.2

theorem summaryOf_of_notMem (h : x ∉ names past) : summaryOf past x = none := by
  induction past with
  | nil => rfl
  | cons op past ih =>
    rw [names, List.flatMap_cons, List.mem_append, not_or] at h
    cases op with
    | addThreadField f s =>
      rw [summaryOf, if_neg fun he => h.1 (List.mem_singleton.mpr he.1.symm)]
      exact ih h.2
    | _ => exact ih h.2

theorem kept_new (task_num : ℕ) : Kept print task_num [] (new task_num) where
  threads := List.length_replicate
  keys _ := Iff.rfl
  summaries _ := rfl
  locals m hm x := by
    rw [List.eq_of_mem_replicate hm]
    exact ⟨fun h => absurd h List.not_mem_nil, fun h => by cases h⟩
  silent _ _ _ := rfl
  reports k m hm x := by
    rw [List.eq_of_mem_replicate (List.mem_of_getElem? hm)]
    rfl
  reported _ _ h := by cases h
  unreported _ h := absurd h List.not_mem_nil

theorem mem_names_cons : x ∈ names (op :: past) ↔ x ∈ op.names ∨ x ∈ names past := by
  rw [names, List.flatMap_cons, List.mem_append]
  rfl

variable {f : Text}

/-- A call that names a field which is there. -/
theorem names_cons_of_mem (ho : op.names = [f]) (hf : f ∈ names past) :
    x ∈ names (op :: past) ↔ x ∈ names past := by
  rw [mem_names_cons, ho, List.mem_singleton]
  exact ⟨fun hx => hx.elim (fun he => he ▸ hf) id, .inr⟩

theorem mem_keys_set_iff (h : ∀ x, x ∈ r.globalFields.keys ↔ x ∈ names past)
    (ho : op.names = [f]) (text : Text) :
    x ∈ (r.globalFields.set f text).keys ↔ x ∈ names (op :: past) := by
  rw [SortedMap.mem_keys_set, h, mem_names_cons, ho, List.mem_singleton]

theorem Kept.addGlobalField (h : Kept print task_num past r) (f : Text) :
    Kept print task_num (.addGlobalField f :: past) (r.addGlobalField f) := by
  rw [Recorder.addGlobalField]
  split_ifs with hf
  · have hnames (x : Text) : x ∈ names (Op.addGlobalField f :: past) ↔ x ∈ names past :=
      names_cons_of_mem rfl ((h.keys f).mp hf)
    exact ⟨h.threads, fun x => (h.keys x).trans (hnames x).symm, h.summaries, h.locals, h.silent,
      h.reports, h.reported, fun x hx => h.unreported x ((hnames x).mp hx)⟩
  · have hnew : lastReport past f = none := lastReport_of_notMem fun hx => hf ((h.keys f).mpr hx)
    refine ⟨h.threads, fun x => mem_keys_set_iff h.keys rfl [], h.summaries, h.locals, h.silent,
      h.reports, fun x v hv => ?_, fun x hx hv => ?_⟩
    · have hne : x ≠ f := by
        rintro rfl
        cases hnew.symm.trans hv
      exact (SortedMap.get?_set_ne hne).trans (h.reported x v hv)
    · by_cases hxf : x = f
      · rw [hxf]
        exact SortedMap.get?_set_self
      · exact (SortedMap.get?_set_ne hxf).trans (h.unreported x ((mem_names_cons.mp hx).resolve_left
          fun he => hxf (List.mem_singleton.mp he)) hv)

theorem Kept.addThreadField (h : Kept print task_num past r) (f : Text) (s : Summary) :
    Kept print task_num (.addThreadField f s :: past) (r.addThreadField f s) := by
  rw [Recorder.addThreadField]
  split_ifs with hf
  · have hfn : f ∈ names past := (h.keys f).mp hf
    have hnames (x : Text) : x ∈ names (Op.addThreadField f s :: past) ↔ x ∈ names past :=
      names_cons_of_mem rfl hfn
    have hsummary (x : Text) : summaryOf (.addThreadField f s :: past) x = summaryOf past x :=
      if_neg fun he => he.2 (he.1 ▸ hfn)
    refine ⟨h.threads, fun x => (h.keys x).trans (hnames x).symm, ?_, ?_, ?_, ?_, h.reported,
      fun x hx => h.unreported x ((hnames x).mp hx)⟩
    all_goals simp only [hsummary]
    · exact h.summaries
    · exact h.locals
    · exact h.silent
    · exact h.reports
  · have hfn : f ∉ names past := fun hx => hf ((h.keys f).mpr hx)
    have hsummary (x : Text) : summaryOf (.addThreadField f s :: past) x =
        if x = f then some s else summaryOf past x := by
      rw [summaryOf]
      by_cases hx : x = f
      · rw [if_pos hx, if_pos ⟨hx.symm, hx ▸ hfn⟩]
      · rw [if_neg hx, if_neg fun he => hx he.1.symm]
    have hsilent (k : ℕ) := h.silent k f (summaryOf_of_notMem hfn)
    have hnew : lastReport past f = none := lastReport_of_notMem hfn
    refine ⟨by rw [List.length_map, h.threads], fun x => mem_keys_set_iff h.keys rfl [], ?_, ?_,
      ?_, ?_, fun x v hv => ?_, fun x hx hv => ?_⟩
    · intro x
      rw [hsummary]
      split_ifs with hx
      · rw [hx]
        exact SortedMap.get?_set_self
      · exact (SortedMap.get?_set_ne hx).trans (h.summaries x)
    · intro m hm x
      obtain ⟨m', hm', rfl⟩ := List.mem_map.mp hm
      rw [SortedMap.mem_keys_set, h.locals m' hm', hsummary]
      split_ifs with hx <;> simp [hx]
    · intro k x hx
      rw [hsummary] at hx
      split_ifs at hx
      exact h.silent k x hx
    · intro k m hm x
      obtain ⟨m', hm', rfl⟩ := Option.map_eq_some_iff.mp (List.getElem?_map.symm.trans hm)
      rw [hsummary]
      split_ifs with hx
      · rw [hx]
        have hlast : lastThreadReport (.addThreadField f s :: past) k f = none := hsilent k
        rw [hlast]
        exact SortedMap.get?_set_self
      · exact (SortedMap.get?_set_ne hx).trans (h.reports k m' hm' x)
    · have hne : x ≠ f := by
        rintro rfl
        cases hnew.symm.trans hv
      exact (SortedMap.get?_set_ne hne).trans (h.reported x v hv)
    · by_cases hxf : x = f
      · rw [hxf]
        exact SortedMap.get?_set_self
      · exact (SortedMap.get?_set_ne hxf).trans (h.unreported x ((mem_names_cons.mp hx).resolve_left
          fun he => hxf (List.mem_singleton.mp he)) hv)

theorem Kept.reportGlobalInfo (h : Kept print task_num past r) {v : GlobalValue D}
    (ht : r.reportGlobalInfo print f v = some t) :
    Kept print task_num (.reportGlobalInfo f v :: past) t := by
  obtain ⟨text, htext, rfl⟩ := Option.map_eq_some_iff.mp ht
  refine ⟨h.threads, fun x => mem_keys_set_iff h.keys rfl text, h.summaries, h.locals, h.silent,
    h.reports, fun x w hw => ?_, fun x hx hw => ?_⟩
  · rw [lastReport] at hw
    split_ifs at hw with hxf
    · subst hxf
      rw [← Option.some.inj hw, htext]
      exact SortedMap.get?_set_self
    · exact (SortedMap.get?_set_ne (Ne.symm hxf)).trans (h.reported x w hw)
  · rw [lastReport] at hw
    split_ifs at hw with hxf
    exact (SortedMap.get?_set_ne (Ne.symm hxf)).trans (h.unreported x
      ((mem_names_cons.mp hx).resolve_left fun he => hxf (List.mem_singleton.mp he).symm) hw)

theorem reportThreadInfo_eq_some {v : Value D} {tid : ℕ} :
    r.reportThreadInfo print f v tid = some t ↔ ∃ text m, v.stored print = some text ∧
      r.localFields[tid]? = some m ∧ f ∈ m.keys ∧
        t = { r with localFields := r.localFields.set tid (m.set f text) } := by
  rw [Recorder.reportThreadInfo]
  cases v.stored print with
  | none => simp
  | some text =>
    cases r.localFields[tid]? with
    | none => simp
    | some m =>
      by_cases hf : f ∈ m.keys
      · simp [hf, eq_comm]
      · simp [hf]

theorem Kept.reportThreadInfo (h : Kept print task_num past r) {v : Value D} {tid : ℕ}
    (ht : r.reportThreadInfo print f v tid = some t) :
    Kept print task_num (.reportThreadInfo f v tid :: past) t := by
  obtain ⟨text, m, htext, hm, hf, rfl⟩ := (reportThreadInfo_eq_some print).mp ht
  have hmem := List.mem_of_getElem? hm
  refine ⟨by rw [List.length_set, h.threads], h.keys, h.summaries, ?_, ?_, ?_, h.reported,
    h.unreported⟩
  · intro m' hm' x
    rcases List.mem_or_eq_of_mem_set hm' with hm' | rfl
    · exact h.locals m' hm' x
    · rw [SortedMap.keys_set hf]
      exact h.locals m hmem x
  · intro k x hx
    rw [lastThreadReport, if_neg]
    · exact h.silent k x hx
    · rintro ⟨rfl, -⟩
      have hsome := (h.locals m hmem f).mp hf
      rw [show summaryOf past f = none from hx] at hsome
      cases hsome
  · intro k m' hm' x
    rw [lastThreadReport]
    change m'.get? x = (summaryOf past x).map _
    by_cases hk : tid = k
    · subst hk
      have hm' : m.set f text = m' := by
        rw [List.getElem?_set_self (List.getElem?_eq_some_iff.mp hm).1] at hm'
        exact Option.some.inj hm'
      subst hm'
      by_cases hx : f = x
      · obtain ⟨s, hs⟩ := Option.isSome_iff_exists.mp ((h.locals m hmem f).mp hf)
        subst hx
        rw [SortedMap.get?_set_self, hs, if_pos ⟨rfl, rfl⟩, Value.text_of_stored print htext]
        rfl
      · rw [SortedMap.get?_set_ne (Ne.symm hx), if_neg fun he => hx he.1]
        exact h.reports tid m hm x
    · rw [List.getElem?_set_ne hk] at hm'
      rw [if_neg fun he => hk he.2]
      exact h.reports k m' hm' x

theorem Kept.perform (h : Kept print task_num past r) (ht : r.perform print op = some t) :
    Kept print task_num (op :: past) t := by
  cases op with
  | addGlobalField f =>
    obtain rfl := Option.some.inj ht
    exact h.addGlobalField print f
  | addThreadField f s =>
    obtain rfl := Option.some.inj ht
    exact h.addThreadField print f s
  | reportGlobalInfo f v => exact h.reportGlobalInfo print ht
  | reportThreadInfo f v tid => exact h.reportThreadInfo print ht

/-- What a recorder keeps comes from the arguments of the calls. -/
theorem kept_after (h : after print task_num past = some r) : Kept print task_num past r := by
  induction past generalizing r with
  | nil =>
    obtain rfl := Option.some.inj h
    exact kept_new print task_num
  | cons op past ih =>
    obtain ⟨r', hr', hop⟩ := Option.bind_eq_some_iff.mp h
    exact (ih hr').perform print hop

end Kept

section Values

theorem Kept.threadValues (h : Kept print task_num past r) (hx : (summaryOf past x).isSome) :
    r.threadValues x = threadTexts print task_num past x := by
  obtain ⟨s, hs⟩ := Option.isSome_iff_exists.mp hx
  apply List.ext_getElem?
  intro k
  rw [Recorder.threadValues, threadTexts, List.getElem?_map, List.getElem?_map]
  by_cases hk : k < task_num
  · have hlt : k < r.localFields.length := h.threads.symm ▸ hk
    rw [List.getElem?_eq_getElem hlt, List.getElem?_range hk, Option.map_some, Option.map_some,
      h.reports k _ (List.getElem?_eq_getElem hlt), hs]
    rfl
  · have hge : r.localFields.length ≤ k := h.threads.symm ▸ not_lt.mp hk
    rw [List.getElem?_eq_none hge, List.getElem?_eq_none (by simpa using not_lt.mp hk)]
    rfl

/-- The value of a global field is an `unsigned long` that is no `int`. -/
def Truncated (past : List (Op D)) (x : Text) : Prop :=
  summaryOf past x = none ∧ ∃ u, lastReport past x = some (.unsignedLong u) ∧ 2 ^ 31 ≤ u

/-- The value in a row is what was reported, unless an `unsigned long` has been truncated. -/
theorem Kept.value_eq_iff (h : Kept print task_num past r) (hx : x ∈ names past) :
    r.value x = column print task_num past x ↔ ¬Truncated past x := by
  rw [value, column, h.summaries, Truncated]
  cases hs : summaryOf past x with
  | some s =>
    have hsome : (summaryOf past x).isSome := by rw [hs]; rfl
    simp [h.threadValues print hsome]
  | none =>
    simp only [true_and, not_exists, not_and, not_le]
    cases hv : lastReport past x with
    | none => simp [h.unreported x hx hv]
    | some v =>
      rw [h.reported x v hv]
      cases v with
      | plain v =>
        obtain ⟨text, htext⟩ := Option.isSome_iff_exists.mp
          (SortedMap.mem_keys_iff.mp ((h.keys x).mpr hx))
        rw [h.reported x _ hv] at htext
        have hstored : v.stored print = some text := htext
        simp [GlobalValue.stored, GlobalValue.text, hstored, Value.text_of_stored print hstored]
      | unsignedLong u =>
        have hu := stored_unsignedLong_iff u
        simp only [GlobalValue.stored, GlobalValue.text, Option.map_some, Option.getD_some, hu,
          Option.some.injEq, GlobalValue.unsignedLong.injEq, forall_eq']

theorem Value.stored_isSome_iff (v : Value D) : (v.stored print).isSome ↔ v.Fits print := by
  cases v with
  | double d =>
    rw [Value.stored, ftoa, sprintf, Value.Fits]
    split_ifs with h <;> simp [h]
  | int i => simp [Value.stored, itoa_eq, Value.Fits]
  | string s => simp [Value.stored, Value.Fits]

/-- A call can be made exactly if its double fits. -/
theorem Kept.perform_isSome_iff (h : Kept print task_num past r)
    (ha : Addressed task_num (op :: past)) : (r.perform print op).isSome ↔ op.Fits print := by
  cases op with
  | addGlobalField f => simp [Recorder.perform, Op.Fits]
  | addThreadField f s => simp [Recorder.perform, Op.Fits]
  | reportGlobalInfo f v =>
    rw [Recorder.perform, Recorder.reportGlobalInfo, Option.isSome_map]
    cases v with
    | plain v => exact v.stored_isSome_iff print
    | unsignedLong u => simp [GlobalValue.stored, itoa_eq, Op.Fits]
  | reportThreadInfo f v tid =>
    obtain ⟨htid, hf, -⟩ := ha
    have hlt : tid < r.localFields.length := h.threads.symm ▸ htid
    have hkey : f ∈ (r.localFields[tid]).keys := (h.locals _ (List.getElem_mem hlt) f).mpr hf
    have hfits : (r.perform print (.reportThreadInfo f v tid)).isSome ↔ (v.stored print).isSome := by
      rw [Recorder.perform, Recorder.reportThreadInfo, List.getElem?_eq_getElem hlt]
      cases v.stored print <;> simp [hkey]
    exact hfits.trans (v.stored_isSome_iff print)

/-- The calls can be made exactly if no reported double overruns its buffer. -/
theorem after_isSome_iff (ha : Addressed task_num past) :
    (after print task_num past).isSome ↔ ∀ op ∈ past, op.Fits print := by
  induction past with
  | nil => simp [after]
  | cons op past ih =>
    have hpast : Addressed task_num past := by
      cases op with
      | reportThreadInfo f v tid => exact ha.2.2
      | _ => exact ha
    rw [List.forall_mem_cons, ← ih hpast, after]
    cases hr : after print task_num past with
    | none => simp
    | some r => simp [(kept_after print hr).perform_isSome_iff print ha]

end Values

end Recorder
end UnboundedDeque
