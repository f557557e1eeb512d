import LittleMan.Terminal.Paint

/-! Printing on two streams, with or without decoration, and knowing where lines start. -/
namespace LittleMan.Terminal

inductive Stream
  | output
  | errors
  deriving DecidableEq, Repr

/-- What a text is for. -/
inductive Channel
  /-- Output of the program, on the output stream. -/
  | program
  /-- Answers of the debugger, on the error stream. -/
  | debugger
  /-- Remarks of the debugger that minimal output leaves out. -/
  | remark
  deriving DecidableEq, Repr

structure Chunk where
  stream : Stream
  text : String
  deriving DecidableEq, Repr

structure Style where
  /-- Without remarks and escape sequences. -/
  minimal : Bool
  coloured : Bool
  deriving DecidableEq, Repr

def Style.paint (st : Style) (c : Colour) (s : String) : String :=
  if st.coloured then painted c s else s

/-- A request to print. -/
inductive Print
  | text (channel : Channel) (s : String)
  /-- A newline, unless a line starts here anyway. -/
  | newLine (channel : Channel)
  /-- Text that goes out as it is, whatever the style, and that does not count for line starts. -/
  | raw (stream : Stream) (s : String)
  deriving DecidableEq, Repr

/-- The text that a channel lets through. -/
def Style.chunk? (st : Style) (channel : Channel) (s : String) : Option Chunk :=
  match channel, st.minimal with
  | .program, false => some ⟨.output, s⟩
  | .program, true => some ⟨.output, visible s⟩
  | .debugger, false | .remark, false => some ⟨.errors, st.paint .blue s⟩
  | .debugger, true => some ⟨.errors, visible s⟩
  | .remark, true => none

structure Screen where
  style : Style
  atLineStart : Bool
  deriving DecidableEq, Repr

namespace Screen

def fresh (style : Style) : Screen := ⟨style, true⟩

/-- A text without visible characters leaves the place in the line as it is. -/
def after (sc : Screen) (s : String) : Screen :=
  match (visible s).toList.getLast? with
  | none => sc
  | some c => { sc with atLineStart := c == '\n' }

def printText (sc : Screen) (channel : Channel) (s : String) : Screen × List Chunk :=
  match sc.style.chunk? channel s with
  | none => (sc, [])
  | some chunk => (sc.after s, [chunk])

def print (sc : Screen) : Print → Screen × List Chunk
  | .text channel s => sc.printText channel s
  | .newLine channel => if sc.atLineStart then (sc, []) else sc.printText channel "\n"
  | .raw stream s => (sc, [⟨stream, s⟩])

def printAll (sc : Screen) : List Print → Screen × List Chunk
  | [] => (sc, [])
  | p :: ps =>
    let (sc', chunks) := sc.print p
    let (sc'', rest) := sc'.printAll ps
    (sc'', chunks ++ rest)

end Screen

end LittleMan.Terminal
