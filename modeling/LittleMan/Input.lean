import LittleMan.Debugger.Script

/-! Input values read line by line, piped in or typed. -/
namespace LittleMan

open Terminal

structure InputLine where
  text : String
  /-- What reading it shows. -/
  shown : List Event
  deriving DecidableEq, Repr

structure Input where
  lines : List InputLine
  /-- What is shown when no line is left. -/
  shownAtEnd : List Event
  deriving DecidableEq, Repr

namespace Input

/-- An integer from -999 to 999 with blanks around it. -/
def value? (line : String) : Option Int :=
  (Decimal.read? Decimal.signed32 (Text.trim line)).filter fun v => -999 ≤ v ∧ v ≤ 999

/-- Lines up to the first one that is not valid UTF-8. -/
def decoded : List (List UInt8) → List InputLine
  | [] => []
  | bytes :: rest =>
    match Text.ofUtf8? bytes with
    | none => []
    | some text => ⟨text, []⟩ :: decoded rest

def ofPipe (stdin : List UInt8) : Input :=
  { lines := decoded ((Debugger.allPieces (· == 10) stdin).map (·.1)), shownAtEnd := [] }

/-- Lines typed on a terminal, each behind a prompt. -/
def ofTyped (stdin : List UInt8) : Input :=
  let line := readLine stdin
  match _h : line.rest with
  | none => { lines := [], shownAtEnd := [.inputTyped line.echo] }
  | some rest =>
    let input := ofTyped rest
    { input with lines := ⟨line.text, [.inputTyped line.echo]⟩ :: input.lines }
termination_by stdin.length
decreasing_by exact length_lt_of_readLine _h

/-- The next value, and the lines behind it. Blank lines are passed over, and lines that hold no
value are refused. -/
def next (shownAtEnd : List Event) : List InputLine → List Event × Option (Int × List InputLine)
  | [] => (shownAtEnd, none)
  | line :: rest =>
    if Text.trim line.text = "" then
      let (events, found) := next shownAtEnd rest
      (line.shown ++ events, found)
    else
      match value? line.text with
      | some v => (line.shown, some (v, rest))
      | none =>
        let (events, found) := next shownAtEnd rest
        (line.shown ++ .refused line.text :: events, found)

theorem length_lt_of_next {shownAtEnd : List Event} {lines rest : List InputLine} {v : Int}
    (h : (next shownAtEnd lines).2 = some (v, rest)) : rest.length < lines.length := by
  induction lines with
  | nil => simp [next] at h
  | cons line lines ih =>
    simp only [next] at h
    split at h
    · have := ih h; simp; omega
    · split at h
      · obtain ⟨-, rfl⟩ := Prod.mk.inj (Option.some.inj h); simp
      · have := ih h; simp; omega

end Input

end LittleMan
