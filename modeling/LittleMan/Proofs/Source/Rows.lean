import LittleMan.Proofs.Source.Cleaning
import LittleMan.Proofs.Text.Pieces

/-! Source texts put together from lines: their lines of code hold the words of those lines. -/
namespace LittleMan.Source

variable {rows : List String} {row : String}

theorem cleaned_cons {row : List Char} (h : '\n' ∉ row) (cs : List Char) :
    cleaned id (row ++ '\n' :: cs) = [runs id row].filter (· ≠ []) ++ cleaned id cs := by
  have hr : ∀ c ∈ row, (c == '\n') = false := by
    intro c hc
    rw [beq_eq_false_iff_ne]
    rintro rfl
    exact h hc
  have hs : (row ++ '\n' :: cs).splitOnP (· == '\n') = row :: cs.splitOnP (· == '\n') :=
    List.splitOnP_append_cons_of_forall_mem hr '\n' (by decide) cs
  unfold cleaned
  simp only [id]
  rw [hs, List.map_cons, ← List.singleton_append, List.filter_append]

/-- A newline at the end makes no line of its own. -/
theorem cleaned_append_newline (cs : List Char) : cleaned id (cs ++ ['\n']) = cleaned id cs := by
  have hs : (cs ++ ['\n']).splitOnP (· == '\n') = cs.splitOnP (· == '\n') ++ [[]] :=
    List.splitOnP_append_cons cs [] (by decide)
  unfold cleaned
  simp only [id]
  rw [hs, List.map_append, List.filter_append]
  exact List.append_nil _

theorem cleaned_intercalate (h : ∀ row ∈ rows, '\n' ∉ row.toList) :
    cleaned id ("\n".intercalate rows).toList =
      (rows.map fun row => runs id row.toList).filter (· ≠ []) := by
  induction rows with
  | nil => rfl
  | cons row rows ih =>
    have hrow : '\n' ∉ row.toList := h row List.mem_cons_self
    have hrows : ∀ r ∈ rows, '\n' ∉ r.toList := fun r hr => h r (List.mem_cons_of_mem row hr)
    cases rows with
    | nil =>
      have hc := cleaned_cons hrow []
      rw [cleaned_append_newline] at hc
      rw [String.intercalate_singleton, hc]
      exact List.append_nil _
    | cons next rows =>
      have hl : ("\n".intercalate (row :: next :: rows)).toList =
          row.toList ++ '\n' :: ("\n".intercalate (next :: rows)).toList := by
        rw [String.intercalate_cons_cons, String.toList_append, String.toList_append,
          List.append_assoc]
        rfl
      rw [hl, cleaned_cons hrow, ih hrows, List.map_cons, ← List.filter_append]
      rfl

theorem map_ofList_runs (h : ';' ∉ row.toList) :
    (runs id row.toList).map String.ofList = Text.words row := by
  have ht : row.toList.takeWhile (· != ';') = row.toList := by
    rw [List.takeWhile_eq_self_iff]
    intro c hc
    rw [bne_iff_ne]
    rintro rfl
    exact h hc
  rw [Text.words_eq]
  unfold runs
  simp only [id]
  rw [ht]

/-- A word that can stand in a line: it has a character, but none that would end it. -/
structure PlainWord (t : String) : Prop where
  ne_empty : t ≠ ""
  plain : ∀ c ∈ t.toList, Text.isBlank c = false ∧ c ≠ ';'

theorem plainWord_iff {t : String} :
    PlainWord t ↔ t ≠ "" ∧ t.toList.all (fun c => !Text.isBlank c && c != ';') = true := by
  simp only [List.all_eq_true, Bool.and_eq_true, Bool.not_eq_true', bne_iff_ne]
  exact ⟨fun h => ⟨h.ne_empty, h.plain⟩, fun h => ⟨h.1, h.2⟩⟩

instance (t : String) : Decidable (PlainWord t) := decidable_of_iff _ plainWord_iff.symm

theorem PlainWord.newline_not_mem {t : String} (h : PlainWord t) : '\n' ∉ t.toList := by
  intro hc
  have hb := (h.plain '\n' hc).1
  contradiction

/-- The words of a line of code are plain. -/
theorem plainWord_of_mem_words {src : String} {l : Line} {w : Lexeme} (hl : l ∈ lines src)
    (hw : w ∈ l.words) : PlainWord w.text := by
  have htexts : l.words.map (·.text) ∈ (cleaned id src.toList).map (List.map String.ofList) := by
    rw [← map_texts_lines]
    exact List.mem_map_of_mem hl
  obtain ⟨ws, hws, hwords⟩ := List.mem_map.mp htexts
  obtain ⟨row, -, rfl⟩ := List.mem_map.mp (List.mem_filter.mp hws).1
  have hmem : w.text ∈ (runs id row).map String.ofList := by
    rw [hwords]
    exact List.mem_map_of_mem hw
  obtain ⟨run, hrun, htext⟩ := List.mem_map.mp hmem
  obtain ⟨hpiece, hne⟩ := List.mem_filter.mp hrun
  rw [← htext]
  constructor
  · simpa using hne
  · intro c hc
    rw [String.toList_ofList] at hc
    obtain ⟨hcode, hblank⟩ := Text.of_mem_splitOnP hpiece c hc
    have hs := List.mem_takeWhile_imp hcode
    exact ⟨hblank, by simpa using hs⟩

/-- Plain words, put side by side, are the words of a line without a comment. -/
theorem words_of_plainWords {ts : List String} (h : ∀ t ∈ ts, PlainWord t) :
    '\n' ∉ (" ".intercalate ts).toList ∧ ';' ∉ (" ".intercalate ts).toList ∧
      Text.words (" ".intercalate ts) = ts := by
  refine ⟨?_, ?_, ?_⟩
  · intro hc
    obtain hc | ⟨t, ht, hc⟩ := Text.mem_intercalate hc
    · contradiction
    · exact (h t ht).newline_not_mem hc
  · intro hc
    obtain hc | ⟨t, ht, hc⟩ := Text.mem_intercalate hc
    · contradiction
    · exact ((h t ht).plain ';' hc).2 rfl
  · have hs : ts.map Text.words = ts.map ([·]) :=
      List.map_congr_left fun t ht =>
        Text.words_of_no_blank (h t ht).ne_empty fun c hc => ((h t ht).plain c hc).1
    rw [Text.words_intercalate, List.flatMap_def, hs, ← List.flatMap_def, List.flatMap_singleton']

/-- The words of the lines of code in a text. -/
def lineTexts (src : String) : List (List String) :=
  (lines src).map fun l => l.words.map (·.text)

theorem lineTexts_eq (src : String) :
    lineTexts src = (cleaned id src.toList).map (List.map String.ofList) := map_texts_lines src

theorem lineTexts_append_newline (src : String) : lineTexts (src ++ "\n") = lineTexts src := by
  have hl : (src ++ "\n").toList = src.toList ++ ['\n'] := String.toList_append
  rw [lineTexts_eq, lineTexts_eq, hl, cleaned_append_newline]

/-- Lines without comments, each with a word on it, are the lines of code that they make up. -/
theorem lineTexts_intercalate (hn : ∀ row ∈ rows, '\n' ∉ row.toList)
    (hs : ∀ row ∈ rows, ';' ∉ row.toList) (hw : ∀ row ∈ rows, Text.words row ≠ []) :
    lineTexts ("\n".intercalate rows) = rows.map Text.words := by
  have hr : ∀ row ∈ rows, runs id row.toList ≠ [] := by
    intro row hrow hnil
    have hwords := map_ofList_runs (hs row hrow)
    rw [hnil] at hwords
    exact hw row hrow hwords.symm
  have hf : (rows.map fun row => runs id row.toList).filter (· ≠ []) =
      rows.map fun row => runs id row.toList := by
    rw [List.filter_eq_self]
    intro ws hws
    obtain ⟨row, hrow, rfl⟩ := List.mem_map.mp hws
    exact decide_eq_true (hr row hrow)
  rw [lineTexts_eq, cleaned_intercalate hn, hf, List.map_map]
  exact List.map_congr_left fun row hrow => map_ofList_runs (hs row hrow)

end LittleMan.Source
