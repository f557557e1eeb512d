import LittleMan.Source.Slice
import LittleMan.Text.Bytes

/-! Readers of commands that keep their place in a text as a number of bytes. -/
namespace LittleMan

/-- The byte at which the first of the characters begins that are looked for. -/
def Text.findByte? (cut : Char → Bool) : List Char → Option Nat
  | [] => none
  | c :: cs => if cut c then some 0 else (findByte? cut cs).map (c.utf8Size + ·)

namespace Debugger

/-- A text that is read piece by piece. -/
structure Reader where
  buffer : String
  /-- The byte from which reading goes on. -/
  position : Nat
  deriving DecidableEq, Repr

namespace Reader

def start (buffer : String) : Reader := ⟨buffer, 0⟩

/-- What is left, if the position is where a character begins. Taking it is a fault if not. -/
def rest? (r : Reader) : Option (List Char) := Source.dropBytes r.position r.buffer.toList

/-- The next piece of a text that is cut at newlines and semicolons, or none at its end. The
position goes past the delimiter, whether there is one or not. -/
def nextInText? (r : Reader) : Option (Option String × Reader) :=
  if Text.byteLength r.buffer.toList ≤ r.position then some (none, r)
  else
    r.rest?.map fun rest =>
      let length :=
        (Text.findByte? (fun c => c == '\n' || c == ';') rest).getD (Text.byteLength rest)
      (Source.slice? r.buffer ⟨r.position, length⟩,
        { r with position := r.position + length + 1 })

/-- The next piece of a line that is cut at semicolons. Behind the last one the position is that of
a new line. -/
def nextOnLine? (r : Reader) : Option (String × Reader) :=
  r.rest?.bind fun rest =>
    match Text.findByte? (· == ';') rest with
    | some index =>
      (Source.takeBytes index rest).map fun p =>
        (String.ofList p, { r with position := r.position + index + 1 })
    | none => some (String.ofList rest, { r with position := 0 })

/-- What so many calls return, one after the other. A fault ends them. -/
def calls {α : Type} (next : Reader → Option (α × Reader)) :
    Nat → Reader → Option (List α × Reader)
  | 0, r => some ([], r)
  | k + 1, r =>
    (next r).bind fun (a, r') => (calls next k r').map fun (as, r'') => (a :: as, r'')

end Reader

end Debugger

end LittleMan
