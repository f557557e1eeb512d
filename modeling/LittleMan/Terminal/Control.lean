import LittleMan.Terminal.Paint

/-! Control sequences of a terminal in full: where each of them ends, and the text without them. -/
namespace LittleMan.Terminal

/-- Where a character stands. -/
inductive Place
  | text
  | escape
  | escapeIntermediate
  /-- Behind an escape and a bracket. -/
  | controlSequence
  | deviceEntry
  | deviceParameters
  | deviceIntermediate
  /-- In the data of a string that ends at a string terminator. -/
  | controlString
  /-- In a string that may also end at a bell. -/
  | systemCommand
  deriving DecidableEq, Repr

namespace Place

/-- Whether a control is obeyed here. In a string it is part of the string. -/
def obeys : Place → Bool
  | text | escape | escapeIntermediate | controlSequence => true
  | deviceEntry | deviceParameters | deviceIntermediate | controlString | systemCommand => false

/-- The place behind a printable character of ASCII. -/
def behindPrintable (c : Char) : Place → Place
  | text => text
  | escape =>
    if c < '0' then escapeIntermediate
    else if c = '[' then controlSequence
    else if c = ']' then systemCommand
    else if c = 'P' then deviceEntry
    else if c = 'X' ∨ c = '^' ∨ c = '_' then controlString
    else text
  | escapeIntermediate => if c < '0' then escapeIntermediate else text
  | controlSequence => if c < '@' then controlSequence else text
  | deviceEntry =>
    if c < '0' then deviceIntermediate else if c < '@' then deviceParameters else controlString
  | deviceParameters =>
    if c < '0' then deviceIntermediate else if c < '<' then deviceParameters else controlString
  | deviceIntermediate => if c < '0' then deviceIntermediate else controlString
  | controlString => controlString
  | systemCommand => systemCommand

end Place

def isPrintable (c : Char) : Bool := ' ' ≤ c && c != '\x7f'

/-- Controls that move within the text and stay in it. -/
def isLayout (c : Char) : Bool := c == '\t' || c == '\n' || c == '\x0c' || c == '\r'

/-- Controls that break a sequence off. -/
def isCancel (c : Char) : Bool := c == '\x18' || c == '\x1a'

/-- The string terminator is a single byte, also where it is part of a longer character. -/
def holdsTerminator (c : Char) : Bool := (String.utf8EncodeChar c).contains 0x9C

/-- The place behind a character that does not show. -/
def Place.behindHidden (p : Place) (c : Char) : Place :=
  if c = Terminal.escape then .escape
  else if isCancel c then .text
  else if '\x7f' < c then if p = .controlString ∧ holdsTerminator c then .text else p
  else if isPrintable c then p.behindPrintable c
  else if p = .systemCommand ∧ c = '\x07' then .text
  else p

/-- What shows from a place on. A control of layout suspends a sequence: `suspended` tells that text
shows again, up to the next control, behind which the sequence goes on. -/
def shownFrom (p : Place) (suspended : Bool) : List Char → List Char
  | [] => []
  | c :: cs =>
    if isLayout c && p.obeys then c :: shownFrom p true cs
    else if (suspended || p = .text) && isPrintable c then
      c :: shownFrom (if c ≤ '\x7f' then p else .text) suspended cs
    else if suspended && !(c = escape || isCancel c) then shownFrom p false cs
    else shownFrom (p.behindHidden c) false cs

/-- The text without its control sequences, and without controls other than those of layout. -/
def withoutControls (s : String) : String := String.ofList (shownFrom .text false s.toList)

end LittleMan.Terminal
