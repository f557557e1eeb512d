import LittleMan.Terminal.Keyboard
import LittleMan.Text.Pieces
import LittleMan.Transcript

/-! Scripts of commands: given as one text, piped in, or typed line by line. -/
namespace LittleMan.Debugger

open Terminal

/-- Part of a script that may be a command. -/
structure Piece where
  text : String
  /-- What reading it shows. -/
  shown : List Event
  /-- Bytes of standard input that are left once it is read. -/
  left : List UInt8
  deriving DecidableEq, Repr

structure Script where
  pieces : List Piece
  /-- What is shown when the end is found. -/
  shownAtEnd : List Event
  leftAtEnd : List UInt8
  deriving DecidableEq, Repr

/-- The text up to the next delimiter, and what follows that delimiter. Nothing is left to read at
the end of the text, even right behind a delimiter. -/
def nextPiece? {α : Type} (cut : α → Bool) : List α → Option (List α × List α)
  | [] => none
  | a :: l =>
    some ((a :: l).takeWhile (!cut ·), ((a :: l).dropWhile (!cut ·)).drop 1)

theorem length_lt_of_nextPiece? {α : Type} {cut : α → Bool} {l p rest : List α}
    (h : nextPiece? cut l = some (p, rest)) : rest.length < l.length := by
  cases l with
  | nil => simp [nextPiece?] at h
  | cons a l =>
    simp only [nextPiece?, Option.some.injEq, Prod.mk.injEq] at h
    obtain ⟨-, rfl⟩ := h
    have := (List.dropWhile_sublist (!cut ·) (l := a :: l)).length_le
    simp only [List.length_drop, List.length_cons] at this ⊢
    omega

/-- All pieces that are read one after the other, each with what follows it. -/
def allPieces {α : Type} (cut : α → Bool) (l : List α) : List (List α × List α) :=
  match _h : nextPiece? cut l with
  | none => []
  | some (p, rest) => (p, rest) :: allPieces cut rest
termination_by l.length
decreasing_by exact length_lt_of_nextPiece? _h

/-- The next command on a typed line, and what follows its semicolon if it has one. -/
def nextOnLine (line : List Char) : List Char × Option (List Char) :=
  let command := line.takeWhile (· != ';')
  match line.dropWhile (· != ';') with
  | [] => (command, none)
  | _ :: rest => (command, some rest)

theorem length_lt_of_nextOnLine {line p rest : List Char} (h : nextOnLine line = (p, some rest)) :
    rest.length < line.length := by
  have := (List.dropWhile_sublist (· != ';') (l := line)).length_le
  simp only [nextOnLine] at h
  split at h
  · simp at h
  · next heq =>
    obtain ⟨-, rfl⟩ := Prod.mk.inj h |>.imp id Option.some.inj
    rw [heq, List.length_cons] at this
    omega

/-- All commands on a typed line. The last one has no semicolon behind it and may be empty. -/
def allOnLine (line : List Char) : List (List Char) :=
  match _h : nextOnLine line with
  | (p, none) => [p]
  | (p, some rest) => p :: allOnLine rest
termination_by line.length
decreasing_by exact length_lt_of_nextOnLine _h

namespace Script

/-- A piece that nobody typed is shown when it is read. -/
def echo (text : String) : Event := .notice (.commandRead (Text.trim text))

/-- Commands in one text, cut at newlines and semicolons. Standard input is left alone. -/
def ofText (text : String) (stdin : List UInt8) : Script :=
  let piece := fun p : List Char × List Char =>
    ({ text := String.ofList p.1, shown := [echo (String.ofList p.1)], left := stdin } : Piece)
  { pieces := (allPieces (fun c => c == '\n' || c == ';') text.toList).map piece
    shownAtEnd := []
    leftAtEnd := stdin }

/-- Commands on standard input, cut at newlines and semicolons, and each byte a character. -/
def ofPipe (stdin : List UInt8) : Script :=
  let piece := fun p : List UInt8 × List UInt8 =>
    ({ text := Text.ofLatin1 p.1, shown := [echo (Text.ofLatin1 p.1)], left := p.2 } : Piece)
  { pieces := (allPieces (fun b => b == 10 || b == 59) stdin).map piece
    shownAtEnd := []
    leftAtEnd := [] }

/-- Shows something in front of all that reading the script shows. -/
def showFirst (e : Event) (s : Script) : Script :=
  match s.pieces with
  | [] => { s with shownAtEnd := e :: s.shownAtEnd }
  | p :: ps => { s with pieces := { p with shown := e :: p.shown } :: ps }

/-- The commands of one typed line in front of a script that was typed after it. -/
def addLine (line : String) (left : List UInt8) (s : Script) : Script :=
  { s with
    pieces := (allOnLine line.toList).map (fun p => ⟨String.ofList p, [], left⟩) ++ s.pieces }

/-- Lines typed on a terminal. After a blank line the prompt comes again, with no piece read. -/
def ofTyped (stdin : List UInt8) : Script :=
  let line := readLine stdin
  let script : Script := match _h : line.rest with
    | none => { pieces := [], shownAtEnd := [], leftAtEnd := [] }
    | some rest =>
      if Text.trim line.text = "" then ofTyped rest else addLine line.text rest (ofTyped rest)
  script.showFirst (.commandTyped line.echo)
termination_by stdin.length
decreasing_by all_goals exact length_lt_of_readLine _h

end Script

end LittleMan.Debugger
