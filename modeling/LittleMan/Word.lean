/-! Decimal words, signed accumulator values and cell addresses, and how integers wrap into them. -/
namespace LittleMan

/-- The machine has one hundred cells, addressed 00 to 99. -/
abbrev memorySize : Nat := 100

abbrev Address := Fin memorySize

namespace Address

/-- Addresses past the last cell start again at 00. -/
def ofNat (n : Nat) : Address := Fin.ofNat memorySize n

/-- The cell after the last one is the first. -/
def next (a : Address) : Address := ofNat (a.val + 1)

theorem val_ofNat (n : Nat) : (ofNat n).val = n % memorySize := rfl

theorem val_next (a : Address) : a.next.val = (a.val + 1) % memorySize := rfl

end Address

namespace Word

/-- A word has three digits and no sign: negative values count down from 1000. -/
def ofInt (v : Int) : Nat := (v % 1000).toNat

theorem ofInt_lt (v : Int) : ofInt v < 1000 := by
  unfold ofInt; omega

theorem ofInt_natCast {w : Nat} (h : w < 1000) : ofInt w = w := by
  unfold ofInt; omega

end Word

namespace Accumulator

/-- The accumulator keeps the sign and the last three digits of a result. -/
def ofInt (v : Int) : Int := v.tmod 1000

theorem ofInt_bounds (v : Int) : -999 ≤ ofInt v ∧ ofInt v ≤ 999 := by
  unfold ofInt
  have := Int.lt_tmod_of_pos v (show (0 : Int) < 1000 by decide)
  have := Int.tmod_lt_of_pos v (show (0 : Int) < 1000 by decide)
  omega

end Accumulator

end LittleMan
