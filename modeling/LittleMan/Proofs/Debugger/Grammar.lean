import LittleMan.Debugger.CommandWords
import LittleMan.Proofs.Text.Decimal

/-! The grammar of commands: how they may be called, which arguments they take, and what is wrong
with words that are no command. No words can be understood in two ways. -/
namespace LittleMan.Debugger

/-- What a word is taken for as an argument. -/
inductive Kind
  | count
  | place
  | value
  deriving DecidableEq, Repr

/-- An argument once it is understood. -/
inductive Given
  | count (n : Nat)
  | place (place : Location)
  | value (v : Int)
  deriving DecidableEq, Repr

/-- An argument that a command takes. -/
structure Parameter where
  name : String
  kind : Kind
  /-- What it is if it is left out. Other arguments must be there. -/
  absent : Option Given
  deriving DecidableEq, Repr

/-- The arguments that come behind a name, in order. -/
def CommandName.parameters : CommandName → List Parameter
  | step => [⟨"count", .count, some (.count 1)⟩]
  | read | jump => [⟨"location", .place, none⟩]
  | write => [⟨"location", .place, none⟩, ⟨"value", .value, none⟩]
  | input => [⟨"value", .value, none⟩]
  | breakAdd | breakRemove | source => [⟨"location", .place, some (.place .counter)⟩]
  | help | proceed | quit | exit | registers | memory | outputs | breakList | reset => []

namespace Command

def name : Command → CommandName
  | help => .help
  | step _ => .step
  | proceed => .proceed
  | quit => .quit
  | exit => .exit
  | registers => .registers
  | memory => .memory
  | outputs => .outputs
  | breakList => .breakList
  | breakAdd _ => .breakAdd
  | breakRemove _ => .breakRemove
  | read _ => .read
  | write _ _ => .write
  | jump _ => .jump
  | input _ => .input
  | reset => .reset
  | source _ => .source

/-- All that a command has been told besides its name. -/
def arguments : Command → List Given
  | step n => [.count n]
  | breakAdd place | breakRemove place | read place | jump place | source place => [.place place]
  | write place v => [.place place, .value v]
  | input v => [.value v]
  | _ => []

theorem eq_of_arguments {c c' : Command} (hn : c.name = c'.name)
    (ha : c.arguments = c'.arguments) : c = c' := by
  cases c <;> cases c' <;> cases hn <;> simp_all [arguments]

end Command

/-- The words that a command may be called by. -/
inductive Calls : List String → CommandName → Prop
  | word {w a : String} {n : CommandName} (ha : a ∈ n.aliases)
      (hw : Text.sameLetters w a = true) : Calls [w] n
  | breakWords {w sub a : String} {n : CommandName} (hw : isBreak w = true)
      (ha : a ∈ n.breakAliases) (hs : Text.sameLetters sub a = true) : Calls [w, sub] n

/-- What is wrong with words that do not begin with a name. -/
inductive Miscalls : List String → CommandError → Prop
  | unknown {w : String} {ws : List String} (hn : ∀ n, ¬Calls [w] n) (hw : isBreak w = false) :
      Miscalls (w :: ws) (.unknown w)
  | missingSubcommand {w : String} (hw : isBreak w = true) :
      Miscalls [w] (.missingSubcommand "break")
  | unknownSubcommand {w sub : String} {ws : List String} (hw : isBreak w = true)
      (hn : ∀ n, ¬Calls [w, sub] n) :
      Miscalls (w :: sub :: ws) (.unknownSubcommand "break" sub)

open Decimal in
/-- What a word is as an argument. Literals are what they stand for, however long they are. -/
inductive Accepts : Kind → String → Given → Prop
  | count {w : String} (h : isLiteral w = true) :
      Accepts .count w (.count (max 1 (min (denoted w) 4294967295)).toNat)
  | address {w : String} {a : Nat} (h : isLiteral w = true) (hv : denoted w = a) (ha : a ≤ 99) :
      Accepts .place w (.place (.address a))
  | label {w : String} (h : isLiteral w = false) (hc : w ≠ ":") :
      Accepts .place w (.place (.label (Source.stripColon w)))
  | value {w : String} (h : isLiteral w = true) (hlo : -999 ≤ denoted w) (hhi : denoted w ≤ 999) :
      Accepts .value w (.value (denoted w))

open Decimal in
/-- Why a word is no such argument. -/
inductive Rejects : Kind → String → ValueError → Prop
  | colon {k : Kind} : Rejects k ":" .malformed
  | label {k : Kind} {w : String} (hk : k ≠ .place) (h : isLiteral w = false) (hc : w ≠ ":") :
      Rejects k w (.mismatchedType "integer" "label")
  | address {w : String} (h : isLiteral w = true) (hv : ¬(0 ≤ denoted w ∧ denoted w ≤ 99)) :
      Rejects .place w (.outOfRange 0 99)
  | value {w : String} (h : isLiteral w = true)
      (hv : ¬(-999 ≤ denoted w ∧ denoted w ≤ 999)) : Rejects .value w (.outOfRange (-999) 999)

/-- An argument is the first of the words, or it is left out behind the last of them. -/
inductive Takes (p : Parameter) : List String → Given → List String → Prop
  | given {w : String} {ws : List String} {g : Given} (h : Accepts p.kind w g) :
      Takes p (w :: ws) g ws
  | absent {g : Given} (h : p.absent = some g) : Takes p [] g []

/-- The words are just the arguments. -/
inductive Fills : List Parameter → List String → List Given → Prop
  | nil : Fills [] [] []
  | cons {p : Parameter} {ps : List Parameter} {ws rest : List String} {g : Given}
      {gs : List Given} (hp : Takes p ws g rest) (h : Fills ps rest gs) :
      Fills (p :: ps) ws (g :: gs)

/-- How many words are reported where too many follow a name. Those that are left over are counted
modulo 256. -/
def reportedCount (expected found : Nat) : Nat := min 255 (expected + (found - expected) % 256)

/-- What is wrong with the words behind a name, `taken` arguments being in order: the first argument
that is missing or no such argument, or else that there are words left over. -/
inductive Faults (expected : Nat) : Nat → List Parameter → List String → ArgumentError → Prop
  | missing {taken : Nat} {p : Parameter} {ps : List Parameter} (h : p.absent = none) :
      Faults expected taken (p :: ps) [] (.missing p.name expected taken)
  | invalid {taken : Nat} {p : Parameter} {ps : List Parameter} {w : String} {ws : List String}
      {fault : ValueError} (h : Rejects p.kind w fault) :
      Faults expected taken (p :: ps) (w :: ws) (.invalid p.name fault)
  | later {taken : Nat} {p : Parameter} {ps : List Parameter} {w : String} {ws : List String}
      {g : Given} {e : ArgumentError} (h : Accepts p.kind w g)
      (he : Faults expected (taken + 1) ps ws e) : Faults expected taken (p :: ps) (w :: ws) e
  | tooMany {taken : Nat} {w : String} {ws : List String} :
      Faults expected taken [] (w :: ws)
        (.tooMany expected (reportedCount taken (taken + (w :: ws).length)))

/-- Words that are a command: its name, and just its arguments. Help may be called with anything. -/
def Spells (ws : List String) (c : Command) : Prop :=
  ∃ called args, ws = called ++ args ∧ Calls called c.name ∧
    (c = .help ∨ Fills c.name.parameters args c.arguments)

/-- What is wrong with words that are no command: the name, or else the arguments. -/
inductive Misspells : List String → CommandError → Prop
  | name {ws : List String} {e : CommandError} (h : Miscalls ws e) : Misspells ws e
  | arguments {called args : List String} {n : CommandName} {e : ArgumentError}
      (hc : Calls called n) (hn : n ≠ .help)
      (h : Faults n.parameters.length 0 n.parameters args e) :
      Misspells (called ++ args) (.invalidArgument n e)

variable {k : Kind} {w : String} {ws rest rest' args : List String} {g g' : Given}
  {gs gs' : List Given} {p : Parameter} {ps : List Parameter} {e e' : ArgumentError}
  {fault fault' : ValueError} {expected taken : Nat}

theorem Accepts.unique (h : Accepts k w g) (h' : Accepts k w g') : g = g' := by
  cases h with
  | count hl => cases h'; rfl
  | address hl hv ha =>
    cases h' with
    | address hl' hv' ha' =>
      have ha' := Int.ofNat_inj.mp (hv.symm.trans hv')
      rw [ha']
    | label hl' hc' => simp [hl] at hl'
  | label hl hc =>
    cases h' with
    | address hl' hv' ha' => simp [hl] at hl'
    | label hl' hc' => rfl
  | value hl hlo hhi => cases h'; rfl

theorem Accepts.not_rejects (h : Accepts k w g) : ¬Rejects k w fault := by
  have hcolon : Decimal.isLiteral ":" = false := by decide +kernel
  intro hr
  cases hr with
  | colon =>
    cases h with
    | label hl hc => exact hc rfl
    | count hl | address hl hv ha | value hl hlo hhi => simp [hcolon] at hl
  | label hk hl hc =>
    cases h with
    | label hl' hc' => exact hk rfl
    | count hl' | value hl' hlo hhi => simp [hl] at hl'
    | address hl' hv ha => simp [hl] at hl'
  | address hl hv =>
    cases h with
    | address hl' hv' ha' => exact hv ⟨by omega, by omega⟩
    | label hl' hc' => simp [hl] at hl'
  | value hl hv =>
    cases h with
    | value hl' hlo hhi => exact hv ⟨hlo, hhi⟩

theorem Rejects.unique (h : Rejects k w fault) (h' : Rejects k w fault') : fault = fault' := by
  have hcolon : Decimal.isLiteral ":" = false := by decide +kernel
  cases h with
  | colon =>
    cases h' with
    | colon => rfl
    | label hk' hl' hc' => exact absurd rfl hc'
    | address hl' hv' | value hl' hv' => simp [hcolon] at hl'
  | label hk hl hc =>
    cases h' with
    | colon => exact absurd rfl hc
    | label hk' hl' hc' => rfl
    | address hl' hv' | value hl' hv' => simp [hl] at hl'
  | address hl hv =>
    cases h' with
    | colon => simp [hcolon] at hl
    | label hk' hl' hc' => exact absurd rfl hk'
    | address hl' hv' => rfl
  | value hl hv =>
    cases h' with
    | colon => simp [hcolon] at hl
    | label hk' hl' hc' => simp [hl] at hl'
    | value hl' hv' => rfl

theorem Takes.unique (h : Takes p ws g rest) (h' : Takes p ws g' rest') :
    g = g' ∧ rest = rest' := by
  cases h with
  | given ha =>
    cases h' with
    | given ha' => exact ⟨ha.unique ha', rfl⟩
  | absent ha =>
    cases h' with
    | absent ha' => exact ⟨Option.some.inj (ha.symm.trans ha'), rfl⟩

theorem Fills.unique (h : Fills ps ws gs) (h' : Fills ps ws gs') : gs = gs' := by
  induction h generalizing gs' with
  | nil => cases h'; rfl
  | cons hp _ ih =>
    cases h' with
    | cons hp' h' =>
      obtain ⟨rfl, rfl⟩ := hp.unique hp'
      rw [ih h']

theorem Faults.not_fills (h : Faults expected taken ps ws e) : ¬Fills ps ws gs := by
  induction h generalizing gs with
  | missing ha =>
    rintro (_ | ⟨hp, -⟩)
    cases hp with
    | absent ha' =>
      rw [ha] at ha'
      contradiction
  | invalid hr =>
    rintro (_ | ⟨hp, -⟩)
    cases hp with
    | given ha => exact ha.not_rejects hr
  | later ha _ ih =>
    rintro (_ | ⟨hp, hf⟩)
    cases hp with
    | given ha' => exact ih hf
  | tooMany => rintro ⟨⟩

theorem Faults.unique (h : Faults expected taken ps ws e) (h' : Faults expected taken ps ws e') :
    e = e' := by
  induction h with
  | missing ha => cases h'; rfl
  | invalid hr =>
    cases h' with
    | invalid hr' => rw [hr.unique hr']
    | later ha' _ => exact absurd hr ha'.not_rejects
  | later ha _ ih =>
    cases h' with
    | invalid hr' => exact absurd hr' ha.not_rejects
    | later _ h' => exact ih h'
  | tooMany => cases h'; rfl

end LittleMan.Debugger
