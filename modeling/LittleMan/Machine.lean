import LittleMan.Instruction

/-! The machine: one hundred cells, three registers and a flag, and one cycle of its work. -/
namespace LittleMan

inductive Flag
  | running
  /-- Blocked on an input instruction, to which the counter points. A value lets the machine go on
  at `resume`. -/
  | waiting (resume : Address)
  | halted
  deriving DecidableEq, Repr

structure Machine where
  memory : Vector Nat memorySize
  accumulator : Int
  counter : Address
  /-- The instruction register: the word fetched last. -/
  fetched : Nat
  flag : Flag
  deriving DecidableEq, Repr

/-- What can be seen of a machine. -/
structure Snapshot where
  memory : Vector Nat memorySize
  accumulator : Int
  counter : Nat
  fetched : Nat
  halted : Bool
  waiting : Bool
  deriving DecidableEq, Repr

/-- The address part of the instruction register. -/
def Snapshot.addressPart (s : Snapshot) : Nat := s.fetched % 100

/-- How a step ends. -/
inductive Outcome
  | completed
  | emitted (value : Int)
  /-- An input instruction found no value, and nothing else happened. -/
  | blocked
  | halted
  deriving DecidableEq, Repr

structure Step where
  machine : Machine
  inbox : List Int
  outcome : Outcome
  deriving DecidableEq, Repr

namespace Machine

/-- Everything is zero, and the machine is ready to run. -/
def blank : Machine :=
  { memory := Vector.replicate memorySize 0, accumulator := 0, counter := Address.ofNat 0
    fetched := 0, flag := .running }

/-- A blank machine with words in its first cells. Words past the end of memory are dropped. -/
def load (words : List Nat) : Machine :=
  { blank with memory := Vector.ofFn fun a => Word.ofInt ((words[a.val]?).getD 0) }

def isHalted (m : Machine) : Bool := m.flag == .halted

def isWaiting (m : Machine) : Bool :=
  match m.flag with
  | .waiting _ => true
  | .running | .halted => false

def snapshot (m : Machine) : Snapshot :=
  { memory := m.memory, accumulator := m.accumulator, counter := m.counter.val
    fetched := m.fetched, halted := m.isHalted, waiting := m.isWaiting }

def read (m : Machine) (address : Nat) : Nat := m.memory[Address.ofNat address]

def write (m : Machine) (address : Nat) (v : Int) : Machine :=
  { m with memory := m.memory.set (Address.ofNat address) (Word.ofInt v) }

/-- A jump gives up a pending input instruction, but does not wake a halted machine. -/
def jump (m : Machine) (address : Nat) : Machine :=
  { m with
    counter := Address.ofNat address
    flag := if m.isWaiting then .running else m.flag }

/-- Takes a value into the accumulator. -/
def accept (m : Machine) (v : Int) : Machine := { m with accumulator := Accumulator.ofInt v }

/-- Carries out an instruction that was fetched from `origin`. The counter has moved on already. -/
def execute (m : Machine) (origin : Address) (inbox : List Int) : Instruction → Step
  | .add a => ⟨m.accept (m.accumulator + m.memory[a]), inbox, .completed⟩
  | .subtract a => ⟨m.accept (m.accumulator - m.memory[a]), inbox, .completed⟩
  | .store a =>
    ⟨{ m with memory := m.memory.set a (Word.ofInt m.accumulator) }, inbox, .completed⟩
  | .load a => ⟨{ m with accumulator := m.memory[a] }, inbox, .completed⟩
  | .branch a => ⟨{ m with counter := a }, inbox, .completed⟩
  | .branchZero a =>
    ⟨{ m with counter := if m.accumulator = 0 then a else m.counter }, inbox, .completed⟩
  | .branchPositive a =>
    ⟨{ m with counter := if 0 ≤ m.accumulator then a else m.counter }, inbox, .completed⟩
  | .input =>
    match inbox with
    | [] => ⟨{ m with counter := origin, flag := .waiting m.counter }, [], .blocked⟩
    | v :: rest => ⟨m.accept v, rest, .completed⟩
  | .output => ⟨m, inbox, .emitted m.accumulator⟩
  | .reserved _ => ⟨m, inbox, .completed⟩
  | .halt | .invalid _ => ⟨{ m with flag := .halted }, inbox, .halted⟩

/-- Fetches the word at the counter and moves the counter to the next cell. -/
def fetch (m : Machine) : Machine :=
  { m with fetched := m.memory[m.counter], counter := m.counter.next }

/-- At most one cycle. A blocked input instruction is finished by the first value that arrives. -/
def step (m : Machine) (inbox : List Int) : Step :=
  match m.flag with
  | .halted => ⟨m, inbox, .halted⟩
  | .waiting resume =>
    match inbox with
    | [] => ⟨m, [], .blocked⟩
    | v :: rest => ⟨{ m.accept v with counter := resume, flag := .running }, rest, .completed⟩
  | .running => m.fetch.execute m.counter inbox (Instruction.decode m.fetch.fetched)

end Machine

end LittleMan
