import LittleMan.Source.Label

/-! Labels and the addresses they stand for, in order of definition. -/
namespace LittleMan

structure SymbolTable where
  entries : List (String × Nat)
  deriving DecidableEq, Repr

namespace SymbolTable

def empty : SymbolTable := ⟨[]⟩

def find? (t : SymbolTable) (name : String) : Option Nat := t.entries.lookup name

/-- A name is bound once: a second binding is refused with the address of the first. -/
def insert (t : SymbolTable) (name : String) (address : Nat) : Except Nat SymbolTable :=
  match t.find? name with
  | some first => .error first
  | none => .ok ⟨t.entries ++ [(name, address)]⟩

/-- The address of a label as an operand writes it, where a colon may follow the name. -/
def get? (t : SymbolTable) (label : String) : Option Nat := t.find? (Source.stripColon label)

/-- The first name bound to the address. -/
def labelAt? (t : SymbolTable) (address : Nat) : Option String :=
  (t.entries.find? fun e => e.2 == address).map (·.1)

def size (t : SymbolTable) : Nat := t.entries.length

def isEmpty (t : SymbolTable) : Bool := t.entries.isEmpty

end SymbolTable

end LittleMan
