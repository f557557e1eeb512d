/-! Escape sequences of a terminal: colouring a text, and the text without any of them. -/
namespace LittleMan.Terminal

def escape : Char := '\x1b'

inductive Colour
  | red
  | green
  | yellow
  | blue
  | cyan
  | boldCyan
  | boldBrightBlue
  | boldSkyBlue
  deriving DecidableEq, Repr

def Colour.code : Colour → String
  | red => "31"
  | green => "32"
  | yellow => "33"
  | blue => "34"
  | cyan => "36"
  | boldCyan => "1;36"
  | boldBrightBlue => "1;94"
  | boldSkyBlue => "1;38;2;120;180;255"

/-- The sequence that turns a style on. -/
def sequence (code : String) : String := "\x1b[" ++ code ++ "m"

/-- The sequence that turns every style off. -/
def plain : String := sequence "0"

def styled (code s : String) : String := sequence code ++ s ++ plain

def bold (s : String) : String := styled "1" s

def dim (s : String) : String := styled "2" s

def italic (s : String) : String := styled "3" s

def inverse (s : String) : String := styled "7" s

def yellow (s : String) : String := styled Colour.yellow.code s

def boldRed (s : String) : String := sequence "1" ++ styled Colour.red.code s

def boldUnderlined (s : String) : String := sequence "1" ++ styled "4" s

/-- Writes `start` again behind every sequence that turns all styles off. -/
def reopen (start : List Char) : List Char → List Char
  | [] => []
  | '\x1b' :: '[' :: '0' :: 'm' :: cs => '\x1b' :: '[' :: '0' :: 'm' :: start ++ reopen start cs
  | c :: cs => c :: reopen start cs

/-- The whole text has the colour, also behind the styles inside it. -/
def painted (c : Colour) (s : String) : String :=
  styled c.code (String.ofList (reopen (sequence c.code).toList s.toList))

/-- An escape sequence lasts through the next `m`, or to the end of the text. -/
def visibleFrom (inSequence : Bool) : List Char → List Char
  | [] => []
  | c :: cs =>
    if inSequence then visibleFrom (c != 'm') cs
    else if c = escape then visibleFrom true cs
    else c :: visibleFrom false cs

/-- The text without its escape sequences. -/
def visible (s : String) : String := String.ofList (visibleFrom false s.toList)

end LittleMan.Terminal
