import LittleMan.Text.Blank
import LittleMan.Text.Decimal

/-! Settings of a run, and the variables of the environment that hold them. -/
namespace LittleMan

structure Settings where
  /-- Cycles after which a run is given up. -/
  stepLimit : Nat
  /-- Milliseconds between two cycles. -/
  stepDelay : Nat
  deriving DecidableEq, Repr

namespace Settings

def standard : Settings := ⟨10000, 0⟩

/-- A natural number of 64 bits with blanks around it. A variable that holds anything else counts as
unset. -/
def number? (environment : List (String × String)) (name : String) : Option Nat :=
  (environment.lookup name).bind fun v =>
    (Decimal.read? Decimal.unsigned64 (Text.trim v)).map Int.toNat

def ofVariables (environment : List (String × String)) : Settings :=
  { stepLimit := (number? environment "LMC_STEP_LIMIT").getD standard.stepLimit
    stepDelay := (number? environment "LMC_STEP_DELAY_MS").getD standard.stepDelay }

end Settings

end LittleMan
