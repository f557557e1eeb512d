import LittleMan.Proofs.Source.Slices
import LittleMan.Source.Statement

/-! Statements are made of the words of their lines. A label may lose its colon there, but its place
still covers the word as it is written. -/
namespace LittleMan.Source

variable {src : String} {l : Line} {s : Statement} {w label : Lexeme} {i : Nat}

theorem stripColon_append (u : String) : stripColon (u ++ ":") = u := by
  have hl : (u ++ ":").toList = u.toList ++ [':'] := String.toList_append
  unfold stripColon
  rw [hl, List.getLast?_concat, if_pos rfl, List.dropLast_concat, String.ofList_toList]

theorem stripColon_cases (w : String) : stripColon w = w ∨ w = stripColon w ++ ":" := by
  unfold stripColon
  by_cases h : w.toList.getLast? = some ':'
  · right
    obtain ⟨u, hu⟩ := List.getLast?_eq_some_iff.mp h
    rw [if_pos h, ← String.toList_inj, String.toList_append, String.toList_ofList, hu,
      List.dropLast_concat]
    rfl
  · left
    rw [if_neg h]

theorem exists_line_of_statements (h : (statements src)[i]? = some s) :
    ∃ l, (lines src)[i]? = some l ∧ l.statement = s := by
  rw [statements, List.getElem?_map] at h
  exact Option.map_eq_some_iff.mp h

/-- Only the first word of a line can be its label. -/
theorem Line.label_statement (h : l.statement.label = some label) :
    isLabel l.first.text = true ∧ label = { l.first with text := stripColon l.first.text } := by
  unfold Line.statement at h
  split at h
  · exact ⟨by assumption, (Option.some.inj h).symm⟩
  · contradiction

/-- The label of a line as it is written. -/
def Line.labelWord? (l : Line) : Option String :=
  if isLabel l.first.text then some l.first.text else none

theorem Line.text_label (l : Line) :
    l.statement.label.map (·.text) = l.labelWord?.map stripColon := by
  unfold Line.statement Line.labelWord?
  split <;> rfl

theorem Line.mem_words_of_mnemonic (h : l.statement.mnemonic = some w) : w ∈ l.words := by
  unfold Line.statement at h
  split at h
  · exact List.mem_cons_of_mem l.first (List.mem_of_getElem? h)
  · obtain rfl := Option.some.inj h
    exact List.mem_cons_self

theorem Line.mem_words_of_operand (h : l.statement.operand = some w) : w ∈ l.words := by
  unfold Line.statement at h
  split at h <;> exact List.mem_cons_of_mem l.first (List.mem_of_getElem? h)

theorem Line.span_statement (l : Line) : l.statement.span = l.span := by
  unfold Line.statement
  split <;> rfl

/-- A label as a line writes it. -/
def Spells (written name : String) : Prop := written = name ∨ written = name ++ ":"

theorem spells_stripColon (w : String) : Spells w (stripColon w) :=
  (stripColon_cases w).imp Eq.symm id

theorem covers_label (hl : l ∈ lines src) (h : l.statement.label = some label) :
    ∃ written, Covers src label.span written ∧ Spells written label.text := by
  obtain ⟨-, rfl⟩ := l.label_statement h
  exact ⟨l.first.text, covers_of_mem_words hl List.mem_cons_self, spells_stripColon _⟩

end LittleMan.Source
