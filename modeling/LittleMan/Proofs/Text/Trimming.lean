import Mathlib.Data.List.DropRight
import LittleMan.Proofs.Text.Pieces

/-! Blanks at the ends of a text: nothing else is dropped there, and the words stay what they are. -/
namespace LittleMan.Text

variable {α : Type} {cut : α → Bool} {t : List α} {cs : List Char}

/-- Pieces that are not empty do not change with delimiters behind. -/
theorem filter_splitOnP_append_right (h : ∀ a ∈ t, cut a = true) (l : List α) :
    ((l ++ t).splitOnP cut).filter (· ≠ []) = (l.splitOnP cut).filter (· ≠ []) := by
  cases t with
  | nil => rw [List.append_nil]
  | cons a t =>
    have ha : cut a = true := h a List.mem_cons_self
    have ht : ∀ b ∈ t, cut b = true := fun b hb => h b (List.mem_cons_of_mem a hb)
    have hnone : (t.splitOnP cut).filter (· ≠ []) = [] := by
      simpa using filter_splitOnP_append ht []
    rw [List.splitOnP_append_cons l t ha, List.filter_append, hnone, List.append_nil]

/-- No blank stands at either end. -/
structure IsTrimmed (cs : List Char) : Prop where
  head : ∀ c ∈ cs.head?, isBlank c = false
  last : ∀ c ∈ cs.getLast?, isBlank c = false

theorem trimmed_eq (cs : List Char) :
    trimmed cs = (cs.dropWhile isBlank).rdropWhile isBlank := rfl

theorem isTrimmed_trimmed (cs : List Char) : IsTrimmed (trimmed cs) where
  head := by
    intro c hc
    obtain ⟨rest, hrest⟩ : trimmed cs <+: cs.dropWhile isBlank := List.rdropWhile_prefix isBlank _
    have hhead : (cs.dropWhile isBlank).head? = some c := by
      rw [← hrest, List.head?_append, hc]
      rfl
    have hd := List.head?_dropWhile_not isBlank cs
    simpa [hhead] using hd
  last := by
    intro c hc
    have hne : trimmed cs ≠ [] := by
      intro hnil
      simp [hnil] at hc
    have hlast : (trimmed cs).getLast hne = c := by
      rw [List.getLast?_eq_some_getLast hne] at hc
      exact Option.some.inj hc
    have hn := List.rdropWhile_last_not isBlank (cs.dropWhile isBlank) hne
    change ¬isBlank ((trimmed cs).getLast hne) = true at hn
    simpa [hlast] using hn

theorem IsTrimmed.eq (h : IsTrimmed cs) : trimmed cs = cs := by
  have hd : cs.dropWhile isBlank = cs := by
    cases cs with
    | nil => rfl
    | cons c cs => simp [h.head c rfl]
  rw [trimmed_eq, hd, List.rdropWhile_eq_self_iff]
  intro hne
  have hl := h.last _ (List.getLast?_eq_some_getLast hne)
  simp [hl]

/-- What is dropped are blanks. -/
theorem exists_trimmed (cs : List Char) :
    ∃ trail, cs = cs.takeWhile isBlank ++ trimmed cs ++ trail ∧ ∀ c ∈ trail, isBlank c = true := by
  refine ⟨(cs.dropWhile isBlank).rtakeWhile isBlank, ?_, ?_⟩
  · rw [trimmed_eq, List.append_assoc, List.rdropWhile_append_rtakeWhile,
      List.takeWhile_append_dropWhile]
  · exact fun c hc => List.mem_rtakeWhile_imp hc

theorem filter_splitOnP_trimmed (cs : List Char) :
    ((trimmed cs).splitOnP isBlank).filter (· ≠ []) = (cs.splitOnP isBlank).filter (· ≠ []) := by
  obtain ⟨trail, hcs, htrail⟩ := exists_trimmed cs
  have hlead : ∀ c ∈ cs.takeWhile isBlank, isBlank c = true := fun c hc => List.mem_takeWhile_imp hc
  calc
    _ = ((cs.takeWhile isBlank ++ trimmed cs).splitOnP isBlank).filter (· ≠ []) :=
      (filter_splitOnP_append hlead _).symm
    _ = ((cs.takeWhile isBlank ++ trimmed cs ++ trail).splitOnP isBlank).filter (· ≠ []) :=
      (filter_splitOnP_append_right htrail _).symm
    _ = _ := by rw [← hcs]

theorem words_trim (s : String) : words (trim s) = words s := by
  rw [words_eq, words_eq, trim, String.toList_ofList, filter_splitOnP_trimmed]

theorem trimmed_eq_nil_iff : trimmed cs = [] ↔ ∀ c ∈ cs, isBlank c = true := by
  constructor
  · intro hnil
    obtain ⟨trail, hcs, htrail⟩ := exists_trimmed cs
    rw [hnil, List.append_nil] at hcs
    intro c hc
    rw [hcs] at hc
    rcases List.mem_append.mp hc with hc | hc
    · exact List.mem_takeWhile_imp hc
    · exact htrail c hc
  · intro h
    have hd : cs.dropWhile isBlank = [] := by simpa using h
    rw [trimmed_eq, hd]
    rfl

theorem IsTrimmed.eq_nil (h : IsTrimmed cs) (hb : ∀ c ∈ cs, isBlank c = true) : cs = [] := by
  rw [← h.eq]
  exact trimmed_eq_nil_iff.mpr hb

/-- A list is cut into nothing but empty pieces if it consists of delimiters. -/
theorem filter_splitOnP_eq_nil_iff {l : List α} :
    (l.splitOnP cut).filter (· ≠ []) = [] ↔ ∀ a ∈ l, cut a = true := by
  constructor
  · intro h
    induction l with
    | nil => simp
    | cons a l ih =>
      rw [List.splitOnP_cons_eq_if_modifyHead] at h
      by_cases ha : cut a = true
      · rw [if_pos ha] at h
        have hl := ih (by simpa using h)
        simpa [ha] using hl
      · rw [if_neg ha] at h
        cases hs : l.splitOnP cut with
        | nil => exact absurd hs (List.splitOnP_ne_nil cut l)
        | cons p ps => simp [hs] at h
  · intro h
    simpa using filter_splitOnP_append h []

theorem trim_eq_empty_iff {s : String} : trim s = "" ↔ ∀ c ∈ s.toList, isBlank c = true := by
  rw [trim, ← String.toList_inj, String.toList_ofList, ← trimmed_eq_nil_iff]
  simp

/-- A text without words is blank. -/
theorem words_eq_nil_iff {s : String} : words s = [] ↔ trim s = "" := by
  rw [trim_eq_empty_iff, words_eq, List.map_eq_nil_iff, filter_splitOnP_eq_nil_iff]

end LittleMan.Text
