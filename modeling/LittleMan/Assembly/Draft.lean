import LittleMan.Assembly.Error
import LittleMan.Source.Statement
import LittleMan.SymbolTable

/-! The first pass: statements at consecutive addresses, and where every label points. -/
namespace LittleMan.Assembly

open Source

structure Draft where
  statements : List Statement
  symbols : SymbolTable
  deriving DecidableEq, Repr

namespace Draft

def empty : Draft := ⟨[], .empty⟩

/-- The label of the statement at an address. -/
def labelAt? (d : Draft) (address : Nat) : Option Lexeme :=
  d.statements[address]?.bind (·.label)

/-- Binds the statement's label, if it has one, to the next address. -/
def bind (d : Draft) (s : Statement) : Except Error SymbolTable :=
  match s.label with
  | none => .ok d.symbols
  | some label =>
    match d.symbols.insert label.text d.statements.length with
    | .ok symbols => .ok symbols
    | .error first =>
      .error (.duplicateLabel label.text ((d.labelAt? first).map (·.span)) label.span)

/-- Puts a statement at the next address. A label is looked at before the size of the program. -/
def add (d : Draft) (s : Statement) : Except Error Draft := do
  let symbols ← d.bind s
  if d.statements.length < memorySize then
    .ok ⟨d.statements ++ [s], symbols⟩
  else
    .error (.programTooLong s.span)

def addAll (d : Draft) : List Statement → Except Error Draft
  | [] => .ok d
  | s :: ss => do (← d.add s).addAll ss

end Draft

/-- The draft of a source text. -/
def draft (src : String) : Except Error Draft := Draft.empty.addAll (statements src)

end LittleMan.Assembly
