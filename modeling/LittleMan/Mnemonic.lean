import LittleMan.Text.Case

/-! The eleven mnemonics of the assembly language and the words they stand for. -/
namespace LittleMan

inductive Mnemonic
  | add
  | subtract
  | store
  | load
  | branch
  | branchZero
  | branchPositive
  | input
  | output
  | halt
  /-- Raw data rather than an instruction. -/
  | data
  deriving DecidableEq, Repr

namespace Mnemonic

def all : List Mnemonic :=
  [add, subtract, store, load, branch, branchZero, branchPositive, input, output, halt, data]

theorem mem_all (m : Mnemonic) : m ∈ all := by cases m <;> decide

def name : Mnemonic → String
  | add => "ADD"
  | subtract => "SUB"
  | store => "STA"
  | load => "LDA"
  | branch => "BRA"
  | branchZero => "BRZ"
  | branchPositive => "BRP"
  | input => "IN"
  | output => "OUT"
  | halt => "HLT"
  | data => "DAT"

/-- The word before an address is added to it. -/
def base : Mnemonic → Nat
  | add => 100
  | subtract => 200
  | store => 300
  | load => 500
  | branch => 600
  | branchZero => 700
  | branchPositive => 800
  | input => 901
  | output => 902
  | halt | data => 0

def takesAddress : Mnemonic → Bool
  | add | subtract | store | load | branch | branchZero | branchPositive => true
  | input | output | halt | data => false

/-- Case does not matter. -/
def ofName? (s : String) : Option Mnemonic := all.find? fun m => Text.sameLetters m.name s

theorem ofName?_name (m : Mnemonic) : ofName? m.name = some m := by cases m <;> decide

end Mnemonic

end LittleMan
