import LittleMan.Proofs.PlainRun
import LittleMan.Proofs.Terminal.Stripped
import LittleMan.Proofs.Text.Decimal
import LittleMan.Transcript

/-! What a transcript leaves on the output stream when a program and nobody else writes there: the
emitted values line by line, and the remark that the run has ended. The debugger answers
on the other stream. -/
namespace LittleMan

namespace Debugger

open Terminal

theorem mem_breakpointTree {entries : List (Nat × Option String)} {p : Print}
    (h : p ∈ breakpointTree entries) : ∃ s, p = .text .debugger s := by
  induction entries with
  | nil => contradiction
  | cons entry entries ih =>
    rcases List.mem_append.mp h with h | h
    · simp only [breakpointPrints, List.mem_cons, List.not_mem_nil, or_false] at h
      rcases h with rfl | rfl | rfl <;> exact ⟨_, rfl⟩
    · exact ih h

/-- The debugger answers on its own channels, but for a report on a line of source. -/
theorem Notice.prints_cases (n : Notice) {minimal : Bool} {p : Print} (h : p ∈ n.prints minimal) :
    (∃ channel s, channel ≠ .program ∧ p = .text channel s) ∨
      ∃ address span, n = .sourceLine address span ∧
        p = .raw .errors (sourceReport address span ++ "\n") := by
  have hone : ∀ {channel s}, channel ≠ Channel.program → p ∈ [Print.text channel s] →
      ∃ channel s, channel ≠ .program ∧ p = .text channel s := by
    intro channel s hc hp
    exact ⟨channel, s, hc, List.mem_singleton.mp hp⟩
  have hanswers : ∀ {α : Type} {f : α → String} {l : List α},
      p ∈ l.map (fun a => .text .debugger (f a)) →
      ∃ channel s, channel ≠ .program ∧ p = .text channel s := by
    intro α f l hp
    obtain ⟨a, -, rfl⟩ := List.mem_map.mp hp
    exact ⟨.debugger, f a, by decide, rfl⟩
  have hdebugger : Channel.debugger ≠ .program := by decide
  have hremark : Channel.remark ≠ .program := by decide
  cases n with
  | sourceLine address span => exact .inr ⟨address, span, rfl, List.mem_singleton.mp h⟩
  | registers s | memory s =>
    left
    rcases List.mem_cons.mp h with rfl | h
    · exact ⟨_, _, hremark, rfl⟩
    · exact hanswers h
  | outputs values =>
    left
    cases values with
    | nil => exact hone hdebugger h
    | cons v vs =>
      rcases List.mem_cons.mp h with rfl | h
      · exact ⟨_, _, hremark, rfl⟩
      · exact hanswers h
  | breakpoints entries =>
    left
    cases entries with
    | nil => exact hone hdebugger h
    | cons entry entries =>
      rcases List.mem_cons.mp h with rfl | h
      · exact ⟨_, _, hdebugger, rfl⟩
      · split at h
        · exact hanswers h
        · obtain ⟨s, rfl⟩ := mem_breakpointTree h
          exact ⟨_, s, hdebugger, rfl⟩
  | notUnderstood | cell =>
    left
    rcases List.mem_cons.mp h with rfl | h
    · exact ⟨_, _, by decide, rfl⟩
    · exact hone hdebugger h
  | counterAt | commandRead | continuing | labelAt => exact .inl (hone hremark h)
  | _ => exact .inl (hone hdebugger h)

end Debugger

namespace Terminal

/-- What a style makes of a text of the program. -/
def Style.programText (st : Style) (s : String) : String := if st.minimal then visible s else s

/-- All that comes to the output stream. -/
def written (chunks : List Chunk) : List Char :=
  chunks.flatMap fun k => if k.stream = .output then k.text.toList else []

end Terminal

/-- Values and refused lines of input, nothing else. -/
def Bare (es : List Event) : Prop :=
  ∀ e ∈ es, (∃ v, e = .output v) ∨ ∃ line, e = .refused line

theorem Bare.append {es es' : List Event} (h : Bare es) (h' : Bare es') : Bare (es ++ es') := by
  intro e he
  rcases List.mem_append.mp he with he | he
  · exact h e he
  · exact h' e he

/-- A value and the end of its line. -/
def valueLine (v : Int) : String := Decimal.text v ++ "\n"

theorem mem_valueLine {c : Char} {v : Int} (h : c ∈ (valueLine v).toList) :
    c = '-' ∨ c.isDigit = true ∨ c = '\n' := by
  rw [valueLine, String.toList_append] at h
  rcases List.mem_append.mp h with h | h
  · exact (Decimal.minus_or_isDigit_of_mem_text h).imp id .inl
  · exact .inr (.inr (List.mem_singleton.mp h))

theorem programText_valueLine (st : Terminal.Style) (v : Int) :
    st.programText (valueLine v) = valueLine v := by
  have hv : Terminal.escape ∉ (valueLine v).toList := by
    intro h
    have hc := mem_valueLine h
    contradiction
  unfold Terminal.Style.programText
  rw [Terminal.visible_of_not_mem hv, ite_self]

namespace Terminal.Screen

variable {sc : Screen}

theorem printText_program (sc : Screen) (s : String) :
    sc.printText .program s = (sc.after s, [⟨.output, sc.style.programText s⟩]) := by
  unfold printText Style.chunk? Style.programText
  cases sc.style.minimal <;> rfl

end Terminal.Screen

end LittleMan
