import UnboundedDeque.Recorder

/-!
# The rows of `Recorder` in a file

`getData` puts the summaries of the thread fields among the global fields and joins the
values with commas, as `getColumnHeader` joins the names.
-/
namespace UnboundedDeque
open OrderedMap

namespace Recorder

/-- `out += x + ","` for each element and `out.pop_back()`; `none` when the string is empty. -/
def joinCommas (xs : List Text) : Option Text :=
  match xs.flatMap (· ++ [',']) with
  | [] => none
  | out => some out.dropLast

def getColumnHeader (r : Recorder) : Option Text := joinCommas r.globalFields.keys

def getData (r : Recorder) : Option Text :=
  (summarize r).bind fun r => joinCommas r.globalFields.values

def getCSV (r : Recorder) : Option Text :=
  (getColumnHeader r).bind fun header => (getData r).map fun row => header ++ '\n' :: row

/-- `verifyFile`: the first line is the header. -/
def verifyFile (r : Recorder) (content : Text) : Option Bool :=
  (getColumnHeader r).map fun hdr => content.takeWhile (· ≠ '\n') = hdr

/-- `outputToFile` with the contents of the file, if it exists; `none` when the row
cannot be made or `errexit` is called. -/
def outputToFile (r : Recorder) : Option Text → Option Text
  | none => (getCSV r).map (· ++ ['\n'])
  | some content => do
    let verified ← verifyFile r content
    if verified then (getData r).map fun row => content ++ row ++ ['\n'] else none

variable {D : Type*} {print : D → Text} {r : Recorder} {xs ys : List Text} {x : Text} {c : Char}
  {task_num : ℕ} {past : List (Op D)} {fields : List Text} {header content : Text}

section Summaries

/-- The walk of `summarize` over some of the thread fields. -/
theorem foldlM_summarizeField {fs : List Text} {g : SortedMap Text Text}
    (hs : ∀ f ∈ fs, (r.summaryFunctions.get? f).isSome) (hg : ∀ f ∈ fs, f ∈ g.keys)
    (hv : ∀ f ∈ fs, (r.value f).isSome) :
    ∃ g', fs.foldlM r.summarizeField g = some g' ∧ g'.keys = g.keys ∧
      ∀ f, g'.get? f = if f ∈ fs then r.value f else g.get? f := by
  induction fs generalizing g with
  | nil => exact ⟨g, rfl, rfl, fun f => by simp⟩
  | cons x fs ih =>
    obtain ⟨s, hx⟩ := Option.isSome_iff_exists.mp (hs x List.mem_cons_self)
    obtain ⟨text, htext⟩ := Option.isSome_iff_exists.mp (hv x List.mem_cons_self)
    have hval : s (r.threadValues x) = some text := by rwa [value, hx] at htext
    have hkeys := SortedMap.keys_set (v := text) (hg x List.mem_cons_self)
    have hg' : ∀ f ∈ fs, f ∈ (g.set x text).keys := fun f hf => by
      rw [hkeys]
      exact hg f (List.mem_cons_of_mem _ hf)
    obtain ⟨g', hfold, hk, hget⟩ := ih (fun f hf => hs f (List.mem_cons_of_mem _ hf)) hg'
      fun f hf => hv f (List.mem_cons_of_mem _ hf)
    refine ⟨g', ?_, hk.trans hkeys, fun f => ?_⟩
    · rw [List.foldlM_cons, summarizeField, hx, Option.bind_some, hval, Option.map_some]
      exact hfold
    · rw [hget]
      by_cases hf : f ∈ fs
      · rw [if_pos hf, if_pos (List.mem_cons_of_mem _ hf)]
      · rw [if_neg hf]
        by_cases hfx : f = x
        · rw [hfx, if_pos List.mem_cons_self, SortedMap.get?_set_self, htext]
        · rw [SortedMap.get?_set_ne hfx, if_neg (by simp [hf, hfx])]

/-- The values of a recorder for the fields. -/
def texts (fields : List Text) (r : Recorder) : List Text :=
  fields.map fun f => (r.value f).getD []

/-- A recorder that has a row. -/
structure HasRow (print : D → Text) (task_num : ℕ) (past : List (Op D)) (fields : List Text)
    (r : Recorder) : Prop where
  kept : Kept print task_num past r
  keys : r.globalFields.keys = fields
  thread : task_num ≠ 0
  values : ∀ f ∈ fields, (r.value f).isSome

/-- `summarize` puts the values in the order of the fields. -/
theorem HasRow.summarize (h : HasRow print task_num past fields r) :
    ∃ t, r.summarize = some t ∧ t.globalFields.values = texts fields r := by
  have hne : r.localFields ≠ [] := fun he => h.thread (h.kept.threads ▸ congrArg List.length he)
  obtain ⟨m, ms, hl⟩ := List.exists_cons_of_ne_nil hne
  have hlocal := h.kept.locals m (hl ▸ List.mem_cons_self)
  have hsummary : ∀ f ∈ m.keys, (r.summaryFunctions.get? f).isSome := fun f hf =>
    h.kept.summaries f ▸ (hlocal f).mp hf
  have hglobal : ∀ f ∈ m.keys, f ∈ r.globalFields.keys := fun f hf => by
    rw [h.kept.keys]
    by_contra hno
    have hsome := (hlocal f).mp hf
    rw [summaryOf_of_notMem hno] at hsome
    cases hsome
  obtain ⟨g, hfold, hkeys, hget⟩ := foldlM_summarizeField hsummary hglobal
    fun f hf => h.values f (h.keys ▸ hglobal f hf)
  refine ⟨_, by rw [Recorder.summarize, hl]; dsimp only; rw [hfold, Option.map_some], ?_⟩
  apply List.map_injective_iff.mpr (Option.some_injective _)
  rw [SortedMap.values_eq_get?, hkeys, h.keys, texts, List.map_map]
  refine List.map_congr_left fun f hf => ?_
  obtain ⟨text, htext⟩ := Option.isSome_iff_exists.mp (h.values f hf)
  have hval : g.get? f = r.value f := by
    rw [hget]
    split_ifs with hfm
    · rfl
    · rw [value]
      cases hs : r.summaryFunctions.get? f with
      | none => rfl
      | some s =>
        refine absurd ((hlocal f).mpr ?_) hfm
        rw [← h.kept.summaries, hs]
        rfl
  rw [hval, Function.comp_apply, htext]
  rfl

/-- Without threads there is no row, and with a row every summary has a value. -/
theorem hasRow_of_summarize (h : Kept print task_num past r) (hk : r.globalFields.keys = fields)
    {t : Recorder} (ht : r.summarize = some t) : HasRow print task_num past fields r := by
  rw [Recorder.summarize] at ht
  cases hl : r.localFields with
  | nil =>
    rw [hl] at ht
    cases ht
  | cons m ms =>
    rw [hl] at ht
    obtain ⟨g, hfold, -⟩ := Option.map_eq_some_iff.mp ht
    have hwalk {fs : List Text} {g g' : SortedMap Text Text}
        (hfold : fs.foldlM r.summarizeField g = some g') : ∀ f ∈ fs, (r.value f).isSome := by
      induction fs generalizing g with
      | nil => simp
      | cons x fs ih =>
        rw [List.foldlM_cons] at hfold
        obtain ⟨g₁, hg₁, hfold⟩ := Option.bind_eq_some_iff.mp hfold
        obtain ⟨s, hs, hg₁⟩ := Option.bind_eq_some_iff.mp hg₁
        obtain ⟨text, htext, -⟩ := Option.map_eq_some_iff.mp hg₁
        refine List.forall_mem_cons.mpr ⟨?_, ih hfold⟩
        rw [value, hs]
        exact Option.isSome_iff_exists.mpr ⟨text, htext⟩
    have hthreads := h.threads
    rw [hl] at hthreads
    refine ⟨h, hk, fun he => ?_, fun f hf => ?_⟩
    · rw [he] at hthreads
      cases hthreads
    · by_cases hfm : f ∈ m.keys
      · exact hwalk hfold f hfm
      · have hnone : r.summaryFunctions.get? f = none := by
          rw [h.summaries, ← Option.not_isSome_iff_eq_none, ← h.locals m (hl ▸ List.mem_cons_self)]
          exact hfm
        rw [value, hnone, ← SortedMap.mem_keys_iff, hk]
        exact hf

end Summaries

section Columns

theorem length_splitOn (xs : Text) (c : Char) : (xs.splitOn c).length = xs.count c + 1 := by
  induction xs with
  | nil => rfl
  | cons x xs ih =>
    rw [List.splitOn_cons_eq_if_modifyHead, List.count_cons]
    by_cases hx : (x == c) = true
    · rw [if_pos hx, if_pos hx, List.length_cons, ih]
    · rw [if_neg hx, if_neg hx, List.length_modifyHead, ih, add_zero]

theorem count_intercalate (hne : xs ≠ []) :
    ([c].intercalate xs).count c + 1 = (xs.map (List.count c)).sum + xs.length := by
  induction xs with
  | nil => exact absurd rfl hne
  | cons x xs ih =>
    cases xs with
    | nil => simp
    | cons y ys =>
      have hrest := ih (List.cons_ne_nil _ _)
      rw [List.intercalate_cons_cons, List.count_append, List.count_append, List.count_singleton_self,
        List.map_cons, List.sum_cons, List.length_cons]
      omega

/-- Joined texts are split into as many texts again exactly if the separator is in none. -/
theorem splitOn_intercalate_iff (hne : xs ≠ []) (hlen : ys.length = xs.length) :
    ([c].intercalate xs).splitOn c = ys ↔ xs = ys ∧ ∀ x ∈ xs, c ∉ x := by
  refine ⟨fun h => ?_, fun h => (List.splitOn_intercalate c h.2 hne).trans h.1⟩
  have hlength := length_splitOn ([c].intercalate xs) c
  have hcount := count_intercalate (c := c) hne
  rw [h] at hlength
  have hsum : (xs.map (List.count c)).sum = 0 := by omega
  have hnone : ∀ x ∈ xs, c ∉ x := fun x hx => by
    rw [← List.count_eq_zero]
    exact List.sum_eq_zero_iff.mp hsum _ (List.mem_map_of_mem hx)
  exact ⟨(List.splitOn_intercalate c hnone hne).symm.trans h, hnone⟩

theorem flatMap_separated (hne : xs ≠ []) : xs.flatMap (· ++ [c]) = [c].intercalate xs ++ [c] := by
  induction xs with
  | nil => exact absurd rfl hne
  | cons x xs ih =>
    cases xs with
    | nil => simp
    | cons y ys =>
      rw [List.flatMap_cons, ih (List.cons_ne_nil _ _), List.intercalate_cons_cons]
      simp

theorem joinCommas_eq (hne : xs ≠ []) : joinCommas xs = some ([','].intercalate xs) := by
  have hout := flatMap_separated (c := ',') hne
  rw [joinCommas, hout]
  split
  · rename_i h
    exact absurd h (by simp)
  · rw [List.dropLast_concat]

theorem intercalate_lines (xs : List Text) : [c].intercalate (xs ++ [[]]) = xs.flatMap (· ++ [c]) := by
  induction xs with
  | nil => rfl
  | cons x xs ih =>
    rw [List.cons_append, List.intercalate_cons_of_ne_nil (by simp), ih, List.flatMap_cons]

theorem mem_intercalate (hx : x ∈ xs) {d : Char} (hd : d ∈ x) : d ∈ [c].intercalate xs := by
  induction xs with
  | nil => cases hx
  | cons y xs ih =>
    cases xs with
    | nil =>
      obtain rfl := List.mem_singleton.mp hx
      rwa [List.intercalate_singleton]
    | cons z ys =>
      rw [List.intercalate_cons_cons, List.mem_append, List.mem_append]
      rcases List.mem_cons.mp hx with rfl | hx
      · exact .inl (.inl hd)
      · exact .inr (ih hx)

theorem notMem_intercalate {d : Char} (hd : d ≠ c) (h : ∀ x ∈ xs, d ∉ x) : d ∉ [c].intercalate xs := by
  induction xs with
  | nil => exact List.not_mem_nil
  | cons x xs ih =>
    have hrest := ih fun y hy => h y (List.mem_cons_of_mem _ hy)
    cases xs with
    | nil =>
      rw [List.intercalate_singleton]
      exact h x List.mem_cons_self
    | cons y ys =>
      rw [List.intercalate_cons_cons, List.mem_append, List.mem_append, List.mem_singleton]
      rintro ((hx | hx) | hx)
      · exact h x List.mem_cons_self hx
      · exact hd hx
      · exact hrest hx

theorem takeWhile_header (h : '\n' ∉ header) (rest : Text) :
    (header ++ '\n' :: rest).takeWhile (· ≠ '\n') = header := by
  have hpos : ∀ c ∈ header, decide (c ≠ '\n') = true :=
    fun c hc => decide_eq_true fun he => h (he ▸ hc)
  rw [List.takeWhile_append_of_pos hpos]
  simp

theorem joinCommas_eq_header (hne : fields ≠ []) (hk : r.globalFields.keys = fields) :
    r.getColumnHeader = some ([','].intercalate fields) := by
  rw [getColumnHeader, hk]
  exact joinCommas_eq hne

/-- The text of a row. -/
def rowText (fields : List Text) (r : Recorder) : Text := [','].intercalate (texts fields r)

theorem texts_ne_nil (hne : fields ≠ []) : texts fields r ≠ [] :=
  fun he => hne (List.map_eq_nil_iff.mp he)

theorem HasRow.getData (h : HasRow print task_num past fields r) (hne : fields ≠ []) :
    r.getData = some (rowText fields r) := by
  obtain ⟨t, hs, hv⟩ := h.summarize
  rw [Recorder.getData, hs, Option.bind_some, hv]
  exact joinCommas_eq (texts_ne_nil hne)

/-- The columns of a line. -/
def cells (line : Text) : List (Option Text) := (line.splitOn ',').map some

theorem cells_intercalate_iff {columns : List (Option Text)} (hne : xs ≠ [])
    (hlen : columns.length = xs.length) : cells ([','].intercalate xs) = columns ↔
      xs.map some = columns ∧ ∀ x ∈ xs, ',' ∉ x := by
  constructor
  · intro h
    have hys : (([','].intercalate xs).splitOn ',').length = xs.length := by
      rw [← hlen, ← h, cells, List.length_map]
    obtain ⟨heq, hnone⟩ := (splitOn_intercalate_iff hne hys).mp rfl
    refine ⟨?_, hnone⟩
    rw [← h, cells, ← heq]
  · rintro ⟨rfl, hnone⟩
    rw [cells, (splitOn_intercalate_iff hne rfl).mpr ⟨rfl, hnone⟩]

end Columns

section Files

/-- The calls that build the recorder of a row. -/
structure History (D : Type*) where
  task_num : ℕ
  past : List (Op D)

/-- Recorders are built and append their rows to a file one after another. -/
def appendRows (print : D → Text) : List (History D) → Option Text → Option (Option Text)
  | [], file => some file
  | h :: hs, file => do
    let r ← after print h.task_num h.past
    let content ← r.outputToFile file
    appendRows print hs (some content)

/-- The columns a row should have. -/
def History.columns (print : D → Text) (fields : List Text) (h : History D) : List (Option Text) :=
  fields.map (column print h.task_num h.past)

/-- The lines of a file are a header with the names of the fields and rows with their values. -/
def Aligned (print : D → Text) (fields : List Text) (hs : List (History D)) (content : Text) :
    Prop :=
  ∃ header rows, content.splitOn '\n' = header :: rows ++ [[]] ∧ header.splitOn ',' = fields ∧
    rows.map cells = hs.map (History.columns print fields)

/-- The header and the row of a recorder. -/
def RowAligned (print : D → Text) (fields : List Text) (h : History D) : Prop :=
  ∃ r header row, after print h.task_num h.past = some r ∧ r.getColumnHeader = some header ∧
    r.getData = some row ∧ header.splitOn ',' = fields ∧ cells row = h.columns print fields

variable {hs : List (History D)} {h hist : History D}

def History.recorder (print : D → Text) (h : History D) : Recorder :=
  (after print h.task_num h.past).getD (new 0)

/-- The recorder is built and has a row. -/
structure History.Made (print : D → Text) (fields : List Text) (h : History D) : Prop where
  built : after print h.task_num h.past = some (h.recorder print)
  row : HasRow print h.task_num h.past fields (h.recorder print)

theorem appendRows_some (hr : ∀ h ∈ hs, h.Made print fields) (hne : fields ≠ [])
    (hheader : '\n' ∉ [','].intercalate fields) (rest : Text) :
    appendRows print hs (some ([','].intercalate fields ++ '\n' :: rest)) =
      some (some ([','].intercalate fields ++ '\n' ::
        (rest ++ hs.flatMap fun h => rowText fields (h.recorder print) ++ ['\n']))) := by
  induction hs generalizing rest with
  | nil => rw [appendRows, List.flatMap_nil, List.append_nil]
  | cons h hs ih =>
    obtain ⟨hbuilt, hrow⟩ := hr h List.mem_cons_self
    have hhead := joinCommas_eq_header hne hrow.keys
    have hdata := hrow.getData hne
    have hout : (h.recorder print).outputToFile (some ([','].intercalate fields ++ '\n' :: rest)) =
        some ([','].intercalate fields ++ '\n' ::
          (rest ++ (rowText fields (h.recorder print) ++ ['\n']))) := by
      simp only [outputToFile, verifyFile, hhead, hdata, takeWhile_header hheader, Option.map_some,
        Option.bind_eq_bind, Option.bind_some, decide_true, if_true]
      simp
    simp only [appendRows, hbuilt, hout, Option.bind_eq_bind, Option.bind_some]
    rw [ih (fun h hh => hr h (List.mem_cons_of_mem _ hh)), List.flatMap_cons]
    simp

/-- The file after the rows of recorders with the same fields. -/
theorem appendRows_none (hhs : hs ≠ []) (hr : ∀ h ∈ hs, h.Made print fields) (hne : fields ≠ [])
    (hheader : '\n' ∉ [','].intercalate fields) : appendRows print hs none =
      some (some (([','].intercalate fields :: hs.map fun h => rowText fields (h.recorder print)).flatMap
        (· ++ ['\n']))) := by
  obtain ⟨h, hs, rfl⟩ := List.exists_cons_of_ne_nil hhs
  obtain ⟨hbuilt, hrow⟩ := hr h List.mem_cons_self
  have hhead := joinCommas_eq_header hne hrow.keys
  have hdata := hrow.getData hne
  have hout : (h.recorder print).outputToFile none =
      some ([','].intercalate fields ++ '\n' :: (rowText fields (h.recorder print) ++ ['\n'])) := by
    simp only [outputToFile, getCSV, hhead, hdata, Option.map_some, Option.bind_some]
    simp
  simp only [appendRows, hbuilt, hout, Option.bind_eq_bind, Option.bind_some]
  rw [appendRows_some (fun h hh => hr h (List.mem_cons_of_mem _ hh)) hne hheader, List.flatMap_cons,
    List.map_cons, List.flatMap_cons, List.flatMap_map]
  simp

/-- A file of such rows is aligned exactly if the values are as they should be, without
separators. -/
theorem aligned_iff (hne : fields ≠ []) (hnames : ∀ f ∈ fields, ',' ∉ f ∧ '\n' ∉ f) :
    Aligned print fields hs (([','].intercalate fields ::
      hs.map fun h => rowText fields (h.recorder print)).flatMap (· ++ ['\n'])) ↔
      ∀ h ∈ hs, (texts fields (h.recorder print)).map some = h.columns print fields ∧
        ∀ x ∈ texts fields (h.recorder print), ',' ∉ x ∧ '\n' ∉ x := by
  rw [← intercalate_lines]
  have hlines : ([','].intercalate fields ::
      hs.map fun h : History D => rowText fields (h.recorder print)) ++ [[]] ≠ [] := by simp
  have hcells (h : History D) : cells (rowText fields (h.recorder print)) = h.columns print fields ↔
      (texts fields (h.recorder print)).map some = h.columns print fields ∧
        ∀ x ∈ texts fields (h.recorder print), ',' ∉ x :=
    cells_intercalate_iff (texts_ne_nil hne) (by simp [History.columns, texts])
  constructor
  · rintro ⟨header, rows, hsplit, hheader, hrows⟩
    have hlength : (header :: rows ++ [[]]).length = (([','].intercalate fields ::
        hs.map fun h : History D => rowText fields (h.recorder print)) ++ [[]]).length := by
      have hl := congrArg List.length hrows
      simp only [List.length_map] at hl
      simp [hl]
    obtain ⟨hall, hnewline⟩ := (splitOn_intercalate_iff hlines hlength).mp hsplit
    obtain ⟨rfl, rfl⟩ := List.cons.inj (List.append_cancel_right hall)
    intro h hh
    rw [List.map_map] at hrows
    obtain ⟨htexts, hcomma⟩ := (hcells h).mp (List.map_inj_left.mp hrows h hh)
    refine ⟨htexts, fun x hx => ⟨hcomma x hx, fun hd => ?_⟩⟩
    refine hnewline (rowText fields (h.recorder print)) ?_ (mem_intercalate hx hd)
    simp only [List.cons_append, List.mem_cons, List.mem_append, List.mem_map]
    exact .inr (.inl ⟨h, hh, rfl⟩)
  · intro hvalues
    refine ⟨[','].intercalate fields, hs.map fun h => rowText fields (h.recorder print), ?_, ?_, ?_⟩
    · refine (splitOn_intercalate_iff hlines rfl).mpr ⟨rfl, fun line hline => ?_⟩
      simp only [List.cons_append, List.mem_cons, List.mem_append, List.mem_map] at hline
      rcases hline with rfl | ⟨h, hh, rfl⟩ | hline
      · exact notMem_intercalate (by decide) fun f hf => (hnames f hf).2
      · exact notMem_intercalate (by decide) fun x hx => ((hvalues h hh).2 x hx).2
      · rcases hline with rfl | hline
        · exact List.not_mem_nil
        · cases hline
    · exact (splitOn_intercalate_iff hne rfl).mpr ⟨rfl, fun f hf => (hnames f hf).1⟩
    · rw [List.map_map]
      refine List.map_congr_left fun h hh => (hcells h).mpr ?_
      exact ⟨(hvalues h hh).1, fun x hx => ((hvalues h hh).2 x hx).1⟩

/-- The values a recorder puts in its row are those it should, if none has been truncated. -/
theorem History.Made.columns_iff (hm : h.Made print fields)
    (hfields : ∀ x, x ∈ fields ↔ x ∈ names h.past) :
    (texts fields (h.recorder print)).map some = h.columns print fields ↔
      ∀ f ∈ fields, ¬Truncated h.past f := by
  rw [texts, History.columns, List.map_map, List.map_inj_left]
  refine forall₂_congr fun f hf => ?_
  obtain ⟨text, htext⟩ := Option.isSome_iff_exists.mp (hm.row.values f hf)
  rw [← hm.row.kept.value_eq_iff print ((hfields f).mp hf), Function.comp_apply, htext]
  rfl

theorem History.Made.texts_iff (hm : h.Made print fields)
    (hfields : ∀ x, x ∈ fields ↔ x ∈ names h.past) :
    ((texts fields (h.recorder print)).map some = h.columns print fields ∧
      ∀ x ∈ texts fields (h.recorder print), ',' ∉ x ∧ '\n' ∉ x) ↔
    ∀ f ∈ fields, ¬Truncated h.past f ∧
      ∃ text, column print h.task_num h.past f = some text ∧ ',' ∉ text ∧ '\n' ∉ text := by
  have hcolumn (hcolumns : (texts fields (h.recorder print)).map some = h.columns print fields)
      (f : Text) (hf : f ∈ fields) :
      some (((h.recorder print).value f).getD []) = column print h.task_num h.past f := by
    rw [texts, History.columns, List.map_map, List.map_inj_left] at hcolumns
    exact hcolumns f hf
  constructor
  · rintro ⟨hcolumns, hclean⟩ f hf
    exact ⟨(hm.columns_iff hfields).mp hcolumns f hf, _, (hcolumn hcolumns f hf).symm,
      hclean _ (List.mem_map_of_mem hf)⟩
  · intro hall
    have hcolumns := (hm.columns_iff hfields).mpr fun f hf => (hall f hf).1
    refine ⟨hcolumns, List.forall_mem_map.mpr fun f hf => ?_⟩
    obtain ⟨-, text, htext, hclean⟩ := hall f hf
    rw [← hcolumn hcolumns f hf] at htext
    rwa [Option.some.inj htext]

/-- The fields of a recorder are those the calls name. -/
theorem keys_eq (hk : Kept print task_num past r) (hsorted : fields.Pairwise (· < ·))
    (hfields : ∀ x, x ∈ fields ↔ x ∈ names past) : r.globalFields.keys = fields := by
  refine List.Perm.eq_of_pairwise (fun _ _ _ _ h₁ h₂ => absurd h₁ h₂.asymm)
    r.globalFields.sorted hsorted ?_
  refine (List.perm_ext_iff_of_nodup ?_ ?_).mpr fun x => (hk.keys x).trans (hfields x).symm
  · exact r.globalFields.sorted.imp fun h => h.ne
  · exact hsorted.imp fun h => h.ne

/-- A recorder whose calls can be made and whose row can be read has been made. -/
theorem RowAligned.made (h : RowAligned print fields hist) (hsorted : fields.Pairwise (· < ·))
    (hfields : ∀ x, x ∈ fields ↔ x ∈ names hist.past) : hist.Made print fields ∧ fields ≠ [] := by
  obtain ⟨r, header, row, hr, hhead, hdata, -⟩ := h
  have hrec : hist.recorder print = r := by rw [History.recorder, hr, Option.getD_some]
  have hkept := kept_after print hr
  obtain ⟨t, ht, -⟩ := Option.bind_eq_some_iff.mp hdata
  refine ⟨⟨by rw [hrec, hr], ?_⟩, ?_⟩
  · rw [hrec]
    exact hasRow_of_summarize hkept (keys_eq hkept hsorted hfields) ht
  · rintro rfl
    rw [getColumnHeader, keys_eq hkept hsorted hfields] at hhead
    cases hhead

/-- The row of a recorder has what was reported, without commas. -/
theorem RowAligned.texts (h : RowAligned print fields hist) (hsorted : fields.Pairwise (· < ·))
    (hfields : ∀ x, x ∈ fields ↔ x ∈ names hist.past) :
    (Recorder.texts fields (hist.recorder print)).map some = hist.columns print fields ∧
      ∀ x ∈ Recorder.texts fields (hist.recorder print), ',' ∉ x := by
  obtain ⟨hm, hne⟩ := h.made hsorted hfields
  obtain ⟨r, header, row, hr, -, hdata, -, hcells⟩ := h
  obtain rfl : hist.recorder print = r := Option.some.inj (hm.built.symm.trans hr)
  rw [hm.row.getData hne] at hdata
  obtain rfl := Option.some.inj hdata
  exact (cells_intercalate_iff (texts_ne_nil hne)
    (by simp [History.columns, Recorder.texts])).mp hcells

/-- Rows line up with the header, and so do the rows of a file, exactly if there are a field
and a thread, every reported double fits its buffer, no `unsigned long` is truncated and no
value has a comma or a newline. -/
theorem rows_aligned_iff (hne : hs ≠ []) (hsorted : fields.Pairwise (· < ·))
    (hh : ∀ h ∈ hs, Addressed h.task_num h.past ∧ ∀ x, x ∈ fields ↔ x ∈ names h.past)
    (hnames : ∀ f ∈ fields, ',' ∉ f ∧ '\n' ∉ f) :
    ((∀ h ∈ hs, RowAligned print fields h) ∧
      ∃ content, appendRows print hs none = some (some content) ∧
        Aligned print fields hs content) ↔
    fields ≠ [] ∧ ∀ h ∈ hs, h.task_num ≠ 0 ∧ (∀ op ∈ h.past, op.Fits print) ∧
      ∀ f ∈ fields, ¬Truncated h.past f ∧
        ∃ text, column print h.task_num h.past f = some text ∧ ',' ∉ text ∧ '\n' ∉ text := by
  have hheader : '\n' ∉ [','].intercalate fields :=
    notMem_intercalate (by decide) fun f hf => (hnames f hf).2
  constructor
  · rintro ⟨hrows, content, hcontent, haligned⟩
    have hmade (h : History D) (hmem : h ∈ hs) : h.Made print fields :=
      ((hrows h hmem).made hsorted (hh h hmem).2).1
    obtain ⟨h₀, hmem₀⟩ := List.exists_mem_of_ne_nil hs hne
    have hfields : fields ≠ [] := ((hrows h₀ hmem₀).made hsorted (hh h₀ hmem₀).2).2
    rw [appendRows_none hne hmade hfields hheader] at hcontent
    cases hcontent
    refine ⟨hfields, fun h hmem => ?_⟩
    have hm := hmade h hmem
    refine ⟨hm.row.thread, ?_, ?_⟩
    · rw [← after_isSome_iff print (hh h hmem).1, hm.built]
      rfl
    · exact (hm.texts_iff (hh h hmem).2).mp ((aligned_iff hfields hnames).mp haligned h hmem)
  · rintro ⟨hfields, hcond⟩
    have hmade (h : History D) (hmem : h ∈ hs) : h.Made print fields := by
      obtain ⟨hthread, hfits, hvalues⟩ := hcond h hmem
      obtain ⟨r, hr⟩ := Option.isSome_iff_exists.mp
        ((after_isSome_iff print (hh h hmem).1).mpr hfits)
      have hrec : h.recorder print = r := by rw [History.recorder, hr, Option.getD_some]
      have hkept := kept_after print hr
      refine ⟨by rw [hrec, hr], ?_⟩
      rw [hrec]
      refine ⟨hkept, keys_eq hkept hsorted (hh h hmem).2, hthread, fun f hf => ?_⟩
      obtain ⟨htrunc, text, htext, -⟩ := hvalues f hf
      rw [(hkept.value_eq_iff print (((hh h hmem).2 f).mp hf)).mpr htrunc, htext]
      rfl
    have hclean (h : History D) (hmem : h ∈ hs) :=
      ((hmade h hmem).texts_iff (hh h hmem).2).mpr (hcond h hmem).2.2
    refine ⟨fun h hmem => ?_, _, appendRows_none hne hmade hfields hheader,
      (aligned_iff hfields hnames).mpr hclean⟩
    have hm := hmade h hmem
    refine ⟨_, _, _, hm.built, joinCommas_eq_header hfields hm.row.keys, hm.row.getData hfields,
      (splitOn_intercalate_iff hfields rfl).mpr ⟨rfl, fun f hf => (hnames f hf).1⟩, ?_⟩
    refine (cells_intercalate_iff (texts_ne_nil hfields) (by simp [History.columns, texts])).mpr ?_
    exact ⟨(hclean h hmem).1, fun x hx => ((hclean h hmem).2 x hx).1⟩

/-- A run with two threads: `threads` is an `int`, `time` a double, `env` a string, `rss` an
`unsigned long`, and `ops` a thread field. The last call comes first. -/
def reports (environment : Text) (rss : ℕ) : History ℕ where
  task_num := 2
  past := [
    .reportThreadInfo ['o', 'p', 's'] (.int 7) 1,
    .reportThreadInfo ['o', 'p', 's'] (.int 42) 0,
    .reportGlobalInfo ['e', 'n', 'v'] (.plain (.string environment)),
    .reportGlobalInfo ['r', 's', 's'] (.unsignedLong rss),
    .reportGlobalInfo ['t', 'i', 'm', 'e'] (.plain (.double 3)),
    .reportGlobalInfo ['t', 'h', 'r', 'e', 'a', 'd', 's'] (.plain (.int 2)),
    .addThreadField ['o', 'p', 's'] fun values => some (values.flatMap (· ++ [':']))]

/-- `%f` for a double that is a natural number. -/
def printWhole (n : ℕ) : Text := Nat.toDigits 10 n ++ ['.', '0', '0', '0', '0', '0', '0']

def reportedFields : List Text := [['e', 'n', 'v'], ['o', 'p', 's'], ['r', 's', 's'],
  ['t', 'h', 'r', 'e', 'a', 'd', 's'], ['t', 'i', 'm', 'e']]

theorem sorted_reportedFields : reportedFields.Pairwise (· < ·) := by
  decide

theorem addressed_reports (environment : Text) (rss : ℕ) :
    Addressed 2 (reports environment rss).past :=
  ⟨by decide, rfl, by decide, rfl, trivial⟩

theorem mem_reportedFields (environment : Text) (rss : ℕ) (x : Text) :
    x ∈ reportedFields ↔ x ∈ names (reports environment rss).past := by
  simp only [reportedFields, names, reports, Op.names, List.flatMap_cons, List.flatMap_nil,
    List.mem_append, List.mem_cons, List.not_mem_nil, or_false, false_or]
  tauto

/-- Two rows line up. -/
theorem reports_aligned :
    (∀ h ∈ [reports ['a', '=', '1'] 4096, reports [] 0], RowAligned printWhole reportedFields h) ∧
      ∃ content, appendRows printWhole [reports ['a', '=', '1'] 4096, reports [] 0] none =
        some (some content) ∧
          Aligned printWhole reportedFields [reports ['a', '=', '1'] 4096, reports [] 0] content := by
  refine (rows_aligned_iff (by simp) sorted_reportedFields ?_ (by decide)).mpr ⟨by decide, ?_⟩
  · intro h hh
    fin_cases hh
    · exact ⟨addressed_reports _ _, mem_reportedFields _ _⟩
    · exact ⟨addressed_reports _ _, mem_reportedFields _ _⟩
  · have hfits (environment : Text) (rss : ℕ) :
        ∀ op ∈ (reports environment rss).past, op.Fits printWhole := by
      have hthree : (printWhole 3).length < 20 := by decide
      simp [reports, Op.Fits, Value.Fits, hthree]
    have hlong (environment : Text) {rss : ℕ} (hrss : rss < 2 ^ 31) (f : Text) :
        ¬Truncated (reports environment rss).past f := by
      rintro ⟨-, u, hu, hle⟩
      simp only [reports, lastReport] at hu
      split_ifs at hu
      all_goals cases hu
      exact hle.not_gt hrss
    intro h hh
    fin_cases hh
    · refine ⟨by decide, hfits _ _, fun f hf => ⟨hlong _ (by decide) f, ?_⟩⟩
      fin_cases hf
      all_goals exact ⟨_, rfl, by decide, by decide⟩
    · refine ⟨by decide, hfits _ _, fun f hf => ⟨hlong _ (by decide) f, ?_⟩⟩
      fin_cases hf
      all_goals exact ⟨_, rfl, by decide, by decide⟩

/-- A comma in the environment makes a column too many, and an `unsigned long` that is no `int`
comes out as another number. -/
theorem not_aligned : ¬(∀ (fields : List Text) (h : History ℕ), fields.Pairwise (· < ·) →
    Addressed h.task_num h.past → (∀ x, x ∈ fields ↔ x ∈ names h.past) →
      (∀ f ∈ fields, ',' ∉ f ∧ '\n' ∉ f) → RowAligned printWhole fields h) ∧
    ¬RowAligned printWhole reportedFields (reports ['a', '=', '1', ',', '2'] 4096) ∧
      ¬RowAligned printWhole reportedFields (reports ['a', '=', '1'] (2 ^ 31)) := by
  have hcomma : ¬RowAligned printWhole reportedFields (reports ['a', '=', '1', ',', '2'] 4096) := by
    intro h
    obtain ⟨htexts, hclean⟩ := h.texts sorted_reportedFields (mem_reportedFields _ _)
    have henv : some ['a', '=', '1', ',', '2'] ∈
        (reports ['a', '=', '1', ',', '2'] 4096).columns printWhole reportedFields :=
      List.mem_map.mpr ⟨['e', 'n', 'v'], by decide, rfl⟩
    rw [← htexts] at henv
    obtain ⟨x, hx, hxe⟩ := List.mem_map.mp henv
    exact hclean x hx (Option.some.inj hxe ▸ by decide)
  refine ⟨fun hall => hcomma (hall _ _ sorted_reportedFields (addressed_reports _ _)
    (mem_reportedFields _ _) (by decide)), hcomma, fun h => ?_⟩
  obtain ⟨hm, -⟩ := h.made sorted_reportedFields (mem_reportedFields _ _)
  obtain ⟨htexts, -⟩ := h.texts sorted_reportedFields (mem_reportedFields _ _)
  have htrunc : Truncated (reports ['a', '=', '1'] (2 ^ 31)).past ['r', 's', 's'] :=
    ⟨rfl, 2 ^ 31, rfl, le_rfl⟩
  exact (hm.columns_iff (mem_reportedFields _ _)).mp htexts _ (by decide) htrunc

end Files

end Recorder
end UnboundedDeque
