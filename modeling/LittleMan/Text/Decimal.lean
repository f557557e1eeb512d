/-! Integers in decimal notation: writing, reading within bounds, and literals of any length. -/
namespace LittleMan.Decimal

def digitChar (d : Nat) : Char := Char.ofNat (48 + d)

def digitValue (c : Char) : Nat := c.toNat - 48

/-- Most significant digit first, without leading zeros. -/
def digits (n : Nat) : List Char :=
  if n < 10 then [digitChar n] else digits (n / 10) ++ [digitChar (n % 10)]
termination_by n

def text : Int → String
  | .ofNat n => String.ofList (digits n)
  | .negSucc n => String.ofList ('-' :: digits (n + 1))

/-- At least `width` digits, with zeros in front. -/
def zeroPadded (width n : Nat) : String := String.ofList ((digits n).leftpad width '0')

inductive ReadError
  | empty
  | invalidDigit
  | tooLarge
  | tooSmall
  deriving DecidableEq, Repr

structure Bounds where
  lo : Int
  hi : Int

def signed32 : Bounds := ⟨-2147483648, 2147483647⟩

def signed64 : Bounds := ⟨-9223372036854775808, 9223372036854775807⟩

def unsigned64 : Bounds := ⟨0, 18446744073709551615⟩

/-- Each digit moves `acc` away from zero, and the first step out of bounds or fault decides. -/
def readDigits (b : Bounds) (negative : Bool) (acc : Int) : List Char → Except ReadError Int
  | [] => .ok acc
  | c :: cs =>
    if c.isDigit then
      let next := if negative then acc * 10 - digitValue c else acc * 10 + digitValue c
      if next < b.lo then .error .tooSmall
      else if b.hi < next then .error .tooLarge
      else readDigits b negative next cs
    else .error .invalidDigit

/-- One sign may stand in front, a minus only where the bounds hold negative values. -/
def read (b : Bounds) (s : String) : Except ReadError Int :=
  match s.toList with
  | [] => .error .empty
  | c :: cs =>
    if c = '+' ∧ cs ≠ [] then readDigits b false 0 cs
    else if c = '-' ∧ cs ≠ [] ∧ b.lo < 0 then readDigits b true 0 cs
    else readDigits b false 0 (c :: cs)

def read? (b : Bounds) (s : String) : Option Int := (read b s).toOption

def dropSign : List Char → List Char
  | [] => []
  | c :: cs => if c = '+' ∨ c = '-' then cs else c :: cs

/-- A literal has an optional sign and then only digits, at least one. -/
def isLiteral (s : String) : Bool :=
  let ds := dropSign s.toList
  !ds.isEmpty && ds.all Char.isDigit

/-- Literals that do not fit in 64 bits count as the nearest value that does. -/
def saturated (s : String) : Int :=
  match read signed64 s with
  | .ok v => v
  | .error _ => if s.toList.head? = some '-' then signed64.lo else signed64.hi

def literal? (s : String) : Option Int :=
  if isLiteral s then some (saturated s) else none

end LittleMan.Decimal
