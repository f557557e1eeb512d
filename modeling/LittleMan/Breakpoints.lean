/-! Addresses at which a run pauses: a set, kept as an increasing list. -/
namespace LittleMan

structure Breakpoints where
  addresses : List Nat
  deriving DecidableEq, Repr

namespace Breakpoints

def empty : Breakpoints := ⟨[]⟩

/-- The search ends at the first address that is not smaller. -/
def search (a : Nat) : List Nat → Bool
  | [] => false
  | b :: bs => if b < a then search a bs else b == a

def place (a : Nat) : List Nat → List Nat
  | [] => [a]
  | b :: bs => if b < a then b :: place a bs else a :: b :: bs

def drop (a : Nat) : List Nat → List Nat
  | [] => []
  | b :: bs => if b < a then b :: drop a bs else bs

def contains (s : Breakpoints) (a : Nat) : Bool := search a s.addresses

/-- Also tells whether the address is new. -/
def insert (s : Breakpoints) (a : Nat) : Bool × Breakpoints :=
  if s.contains a then (false, s) else (true, ⟨place a s.addresses⟩)

/-- Also tells whether the address was there. -/
def remove (s : Breakpoints) (a : Nat) : Bool × Breakpoints :=
  if s.contains a then (true, ⟨drop a s.addresses⟩) else (false, s)

def ofList (as : List Nat) : Breakpoints := as.foldl (fun s a => (s.insert a).2) empty

def size (s : Breakpoints) : Nat := s.addresses.length

def isEmpty (s : Breakpoints) : Bool := s.addresses.isEmpty

end Breakpoints

end LittleMan
