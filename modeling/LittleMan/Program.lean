import LittleMan.Assembly.Encoding
import LittleMan.Instruction

/-! Programs: words ready to be loaded at address 00, with what is known about their source. -/
namespace LittleMan

structure Program where
  words : List Nat
  symbols : SymbolTable := .empty
  /-- The line that each word was assembled from, if the program was. -/
  spans : List Span := []
  deriving DecidableEq, Repr

namespace Program

/-- Labels are collected first, so an operand may name a label that is defined further down. -/
def assemble (src : String) : Except Assembly.Error Program := do
  let draft ← Assembly.draft src
  let words ← draft.encode
  return { words, symbols := draft.symbols, spans := draft.statements.map (·.span) }

/-- Words past the end of memory are dropped. -/
def ofWords (words : List Int) : Program := { words := (words.take memorySize).map Word.ofInt }

def span? (p : Program) (address : Nat) : Option Span := p.spans[address]?

def size (p : Program) : Nat := p.words.length

def isEmpty (p : Program) : Bool := p.words.isEmpty

end Program

end LittleMan
