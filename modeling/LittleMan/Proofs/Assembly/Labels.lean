import Mathlib.Data.List.Induction
import LittleMan.Assembly.Draft
import LittleMan.Proofs.Source.Statements

/-! Labels of consecutive lines of code, and the table that they make up. -/
namespace LittleMan.Assembly

open Source

variable {L P R : List Statement} {s : Statement} {i j : Nat} {name : String}

def labelAt (L : List Statement) (i : Nat) : Option Lexeme := L[i]?.bind (·.label)

/-- Every label with the index of its line, in the order of the lines. -/
def definitions (L : List Statement) : List (String × Nat) :=
  L.zipIdx.filterMap fun p => p.1.label.map fun label => (label.text, p.2)

theorem mem_definitions :
    (name, i) ∈ definitions L ↔ ∃ label, labelAt L i = some label ∧ label.text = name := by
  unfold definitions labelAt
  constructor
  · intro h
    obtain ⟨⟨s, k⟩, hs, hk⟩ := List.mem_filterMap.mp h
    obtain ⟨label, hl, he⟩ := Option.map_eq_some_iff.mp hk
    obtain ⟨hn, rfl⟩ := Prod.mk.inj he
    have hs' : L[k]? = some s := List.mem_zipIdx_iff_getElem?.mp hs
    refine ⟨label, ?_, hn⟩
    rw [hs']
    exact hl
  · rintro ⟨label, hl, rfl⟩
    obtain ⟨s, hs, hl'⟩ := Option.bind_eq_some_iff.mp hl
    refine List.mem_filterMap.mpr ⟨(s, i), List.mem_zipIdx_iff_getElem?.mpr hs, ?_⟩
    dsimp only
    rw [hl']
    rfl

theorem definitions_concat (P : List Statement) (s : Statement) :
    definitions (P ++ [s]) =
      definitions P ++ (s.label.map fun label => (label.text, P.length)).toList := by
  unfold definitions
  rw [List.zipIdx_append, List.filterMap_append]
  cases hl : s.label with
  | none => simp [hl]
  | some label => simp [hl]

theorem lt_length_of_labelAt {label : Lexeme} (h : labelAt L i = some label) : i < L.length := by
  obtain ⟨s, hs, -⟩ := Option.bind_eq_some_iff.mp h
  exact (List.getElem?_eq_some_iff.mp hs).1

/-- A label further down stands for a greater address. -/
theorem pairwise_definitions (L : List Statement) :
    (definitions L).Pairwise fun e e' => e.2 < e'.2 := by
  induction L using List.reverseRecOn with
  | nil => exact .nil
  | append_singleton P s ih =>
    rw [definitions_concat, List.pairwise_append]
    refine ⟨ih, ?_, ?_⟩
    · cases s.label with
      | none => exact .nil
      | some label => exact List.pairwise_singleton _ _
    · rintro ⟨name, i⟩ he e' he'
      obtain ⟨label, hl, -⟩ := mem_definitions.mp he
      obtain ⟨label', -, rfl⟩ := Option.map_eq_some_iff.mp (Option.mem_toList.mp he')
      show i < P.length
      exact lt_length_of_labelAt hl

theorem labelAt_append_left (h : i < P.length) : labelAt (P ++ R) i = labelAt P i := by
  unfold labelAt
  rw [List.getElem?_append_left h]

theorem labelAt_append_length : labelAt (P ++ s :: R) P.length = s.label := by
  unfold labelAt
  simp

theorem exists_line_of_labelAt {src : String} {label : Lexeme}
    (h : labelAt (statements src) i = some label) :
    ∃ l, (lines src)[i]? = some l ∧ l.statement.label = some label := by
  obtain ⟨s, hs, hlabel⟩ := Option.bind_eq_some_iff.mp h
  obtain ⟨l, hl, rfl⟩ := exists_line_of_statements hs
  exact ⟨l, hl, hlabel⟩

/-- The label of a line of code as it is written. -/
def labelWord? (src : String) (i : Nat) : Option String := (lines src)[i]?.bind Line.labelWord?

theorem exists_line_of_labelWord? {src t : String} (h : labelWord? src i = some t) :
    ∃ l ∈ lines src, t = l.first.text := by
  obtain ⟨l, hl, ht⟩ := Option.bind_eq_some_iff.mp h
  refine ⟨l, List.mem_of_getElem? hl, ?_⟩
  unfold Line.labelWord? at ht
  split at ht
  · exact (Option.some.inj ht).symm
  · contradiction

theorem text_labelAt (src : String) (i : Nat) :
    (labelAt (statements src) i).map (·.text) = (labelWord? src i).map stripColon := by
  unfold labelAt labelWord? statements
  rw [List.getElem?_map]
  cases (lines src)[i]? with
  | none => rfl
  | some l => exact l.text_label

/-- No two lines have the same label. -/
def Distinct (L : List Statement) : Prop :=
  ∀ i j a b, labelAt L i = some a → labelAt L j = some b → a.text = b.text → i = j

/-- Bound labels and their addresses. -/
def tableOf (L : List Statement) : SymbolTable := ⟨definitions L⟩

theorem find?_tableOf_none :
    (tableOf L).find? name = none ↔ ∀ i label, labelAt L i = some label → label.text ≠ name := by
  unfold tableOf SymbolTable.find?
  rw [List.lookup_eq_none_iff]
  constructor
  · intro h i label hl hn
    have := h _ (mem_definitions.mpr ⟨label, hl, hn⟩)
    simp at this
  · rintro h ⟨n, i⟩ hp
    obtain ⟨label, hl, rfl⟩ := mem_definitions.mp hp
    simpa using (h i label hl).symm

theorem exists_of_find?_tableOf (h : (tableOf L).find? name = some i) :
    ∃ label, labelAt L i = some label ∧ label.text = name := by
  obtain ⟨l₁, l₂, hl, -⟩ := List.lookup_eq_some_iff.mp h
  apply mem_definitions.mp
  unfold tableOf at hl
  dsimp only at hl
  rw [hl]
  simp

theorem find?_tableOf (h : Distinct L) :
    (tableOf L).find? name = some i ↔ ∃ label, labelAt L i = some label ∧ label.text = name := by
  constructor
  · exact exists_of_find?_tableOf
  · rintro ⟨label, hl, rfl⟩
    cases hf : (tableOf L).find? label.text with
    | none => exact absurd rfl (find?_tableOf_none.mp hf i label hl)
    | some j =>
      obtain ⟨label', hl', hn⟩ := exists_of_find?_tableOf hf
      rw [h i j label label' hl hl' hn.symm]

/-- Of the names bound to an address there is one at most, that of the line there. -/
theorem labelAt?_tableOf (L : List Statement) (i : Nat) :
    (tableOf L).labelAt? i = (labelAt L i).map (·.text) := by
  unfold SymbolTable.labelAt? tableOf
  cases hf : (definitions L).find? fun e => e.2 == i with
  | none =>
    cases hl : labelAt L i with
    | none => rfl
    | some label =>
      have he := List.find?_eq_none.mp hf _ (mem_definitions.mpr ⟨label, hl, rfl⟩)
      simp at he
  | some e =>
    obtain ⟨name, j⟩ := e
    have hj : j = i := by simpa using List.find?_some hf
    obtain ⟨label, hl, hn⟩ := mem_definitions.mp (List.mem_of_find?_eq_some hf)
    rw [hj] at hl
    rw [hl]
    exact congrArg some hn.symm

end LittleMan.Assembly
