import LittleMan.Input
import LittleMan.Proofs.Debugger.Pieces
import LittleMan.Proofs.Text.Bytes

/-! The values that lines of input hold, and how reading comes by them: one after the other, with
all lines in between passed over. -/
namespace LittleMan.Input

variable {shownAtEnd events : List Event} {lines rest : List InputLine} {v : Int}

/-- The values of those lines that hold one. -/
def values (lines : List InputLine) : List Int := lines.filterMap fun line => value? line.text

theorem value?_of_blank {line : String} (h : Text.trim line = "") : value? line = none := by
  unfold value?
  rw [h]
  rfl

/-- A line gives its value, or it is passed over, which may show that it is refused. -/
theorem next_cons_cases (shownAtEnd : List Event) (line : InputLine) (lines : List InputLine) :
    (∃ v, value? line.text = some v ∧
      next shownAtEnd (line :: lines) = (line.shown, some (v, lines))) ∨
    (value? line.text = none ∧ ∃ es, (es = [] ∨ es = [.refused line.text]) ∧
      next shownAtEnd (line :: lines) =
        (line.shown ++ es ++ (next shownAtEnd lines).1, (next shownAtEnd lines).2)) := by
  rw [next]
  by_cases hb : Text.trim line.text = ""
  · rw [if_pos hb]
    refine .inr ⟨value?_of_blank hb, [], .inl rfl, ?_⟩
    rw [List.append_nil]
  · rw [if_neg hb]
    cases hv : value? line.text with
    | none =>
      refine .inr ⟨rfl, [.refused line.text], .inr rfl, ?_⟩
      rw [List.append_assoc]
      rfl
    | some v => exact .inl ⟨v, rfl, rfl⟩

theorem suffix_of_next (h : (next shownAtEnd lines).2 = some (v, rest)) : rest <:+ lines := by
  induction lines with
  | nil => contradiction
  | cons line lines ih =>
    rcases next_cons_cases shownAtEnd line lines with ⟨w, -, hn⟩ | ⟨-, es, -, hn⟩
    · rw [hn] at h
      obtain ⟨-, rfl⟩ := Prod.mk.inj (Option.some.inj h)
      exact List.suffix_cons line lines
    · rw [hn] at h
      exact (ih h).trans (List.suffix_cons line lines)

/-- Lines that nobody typed. -/
def Piped (lines : List InputLine) : Prop := ∀ line ∈ lines, line.shown = []

theorem Piped.of_suffix (h : Piped lines) (hr : rest <:+ lines) : Piped rest :=
  fun line hl => h line (hr.subset hl)

theorem piped_decoded (ps : List (List UInt8)) : Piped (decoded ps) := by
  induction ps with
  | nil => exact fun line hl => absurd hl List.not_mem_nil
  | cons p ps ih =>
    rw [decoded]
    split
    · exact fun line hl => absurd hl List.not_mem_nil
    · intro line hl
      rcases List.mem_cons.mp hl with rfl | hl
      · rfl
      · exact ih line hl

end LittleMan.Input
