import LittleMan.Mnemonic
import LittleMan.Text.Decimal
import LittleMan.Word

/-! Words read as instructions. Every word is one: its last two digits are the address. -/
namespace LittleMan

inductive Instruction
  | add (a : Address)
  | subtract (a : Address)
  | store (a : Address)
  | load (a : Address)
  | branch (a : Address)
  | branchZero (a : Address)
  | branchPositive (a : Address)
  | input
  | output
  /-- Any word below 100. -/
  | halt
  /-- A word of the input and output group that is assigned to nothing, and does nothing. -/
  | reserved (word : Nat)
  /-- A word without a meaning, which halts the machine. -/
  | invalid (word : Nat)
  deriving DecidableEq, Repr

namespace Instruction

def decode (word : Nat) : Instruction :=
  let a := Address.ofNat word
  match word / 100 with
  | 0 => halt
  | 1 => add a
  | 2 => subtract a
  | 3 => store a
  | 5 => load a
  | 6 => branch a
  | 7 => branchZero a
  | 8 => branchPositive a
  | 9 => if word = 901 then input else if word = 902 then output else reserved word
  | _ => invalid word

def mnemonic? : Instruction → Option Mnemonic
  | add _ => some .add
  | subtract _ => some .subtract
  | store _ => some .store
  | load _ => some .load
  | branch _ => some .branch
  | branchZero _ => some .branchZero
  | branchPositive _ => some .branchPositive
  | input => some .input
  | output => some .output
  | halt => some .halt
  | reserved _ | invalid _ => none

def address? : Instruction → Option Address
  | add a | subtract a | store a | load a | branch a | branchZero a | branchPositive a => some a
  | input | output | halt | reserved _ | invalid _ => none

/-- Assembly text, or question marks where there is none. -/
def text (i : Instruction) : String :=
  match i.mnemonic?, i.address? with
  | some m, some a => m.name ++ " " ++ Decimal.zeroPadded 2 a.val
  | some m, none => m.name
  | none, _ => "???"

end Instruction

end LittleMan
