import LittleMan.Text.Blank
import LittleMan.Text.Decimal
import Mathlib.Data.List.Basic

/-! What literals stand for, however long they are. They are read as that within bounds, and so
numbers written in digits are read back, with zeros in front or without. -/
namespace LittleMan.Decimal

variable {b : Bounds} {ds : List Char} {c : Char} {s : String} {n m : Nat} {v : Int}
variable {negative : Bool}

theorem isDigit_digitChar {d : Nat} (h : d < 10) : (digitChar d).isDigit = true := by
  have hd : ∀ d < 10, (digitChar d).isDigit = true := by decide
  exact hd d h

theorem digitValue_digitChar {d : Nat} (h : d < 10) : digitValue (digitChar d) = d := by
  have hd : ∀ d < 10, digitValue (digitChar d) = d := by decide
  exact hd d h

theorem isDigit_of_mem_digits (h : c ∈ digits n) : c.isDigit = true := by
  induction n using digits.induct with
  | case1 n hn =>
    rw [digits, if_pos hn] at h
    obtain rfl := List.mem_singleton.mp h
    exact isDigit_digitChar hn
  | case2 n hn ih =>
    rw [digits, if_neg hn] at h
    rcases List.mem_append.mp h with h | h
    · exact ih h
    · obtain rfl := List.mem_singleton.mp h
      exact isDigit_digitChar (Nat.mod_lt n (by decide))

theorem digits_ne_nil (n : Nat) : digits n ≠ [] := by
  rw [digits]
  split <;> simp

/-- Digits behind those of `n`. -/
def valueFrom (n : Nat) (ds : List Char) : Nat := ds.foldl (fun v c => v * 10 + digitValue c) n

/-- The number that digits stand for. -/
def valueOf (ds : List Char) : Nat := valueFrom 0 ds

theorem le_valueFrom (n : Nat) (ds : List Char) : n ≤ valueFrom n ds := by
  induction ds generalizing n with
  | nil => exact Nat.le_refl n
  | cons c ds ih =>
    have hc := ih (n * 10 + digitValue c)
    have hv : valueFrom n (c :: ds) = valueFrom (n * 10 + digitValue c) ds := rfl
    omega

theorem valueOf_digits (n : Nat) : valueOf (digits n) = n := by
  induction n using digits.induct with
  | case1 n hn =>
    rw [digits, if_pos hn]
    simp [valueOf, valueFrom, digitValue_digitChar hn]
  | case2 n hn ih =>
    have hm := digitValue_digitChar (Nat.mod_lt n (show 0 < 10 by decide))
    rw [digits, if_neg hn]
    simp only [valueOf, valueFrom] at ih
    simp only [valueOf, valueFrom, List.foldl_append, List.foldl_cons, List.foldl_nil, ih, hm]
    omega

theorem valueOf_zeros_append (k : Nat) (ds : List Char) :
    valueOf (List.replicate k '0' ++ ds) = valueOf ds := by
  induction k with
  | zero => rfl
  | succ k ih => exact ih

theorem isLiteral_iff :
    isLiteral s = true ↔ dropSign s.toList ≠ [] ∧ ∀ c ∈ dropSign s.toList, c.isDigit = true := by
  simp [isLiteral]

theorem sign_or_mem_dropSign (h : c ∈ ds) : c = '+' ∨ c = '-' ∨ c ∈ dropSign ds := by
  cases ds with
  | nil => contradiction
  | cons d ds =>
    rw [dropSign]
    by_cases hd : d = '+' ∨ d = '-'
    · rw [if_pos hd]
      rcases List.mem_cons.mp h with rfl | h
      · rw [← or_assoc]
        exact .inl hd
      · exact .inr (.inr h)
    · rw [if_neg hd]
      exact .inr (.inr h)

/-- The bounds hold a value. -/
structure Bounds.Holds (b : Bounds) (v : Int) : Prop where
  lo : b.lo ≤ v
  hi : v ≤ b.hi

/-- The value within the bounds that is nearest to another. -/
def Bounds.nearest (b : Bounds) (v : Int) : Int := max b.lo (min v b.hi)

/-- A number behind its sign. -/
def signed (negative : Bool) (n : Nat) : Int := if negative then -n else n

/-- The integer that a literal stands for, however many digits it has. -/
def denoted (s : String) : Int :=
  signed (s.toList.head? = some '-') (valueOf (dropSign s.toList))

theorem Bounds.Holds.nearest (h : b.Holds v) : b.nearest v = v := by
  obtain ⟨hlo, hhi⟩ := h
  unfold Bounds.nearest
  omega

theorem Bounds.nearest_of_lt (h : v < b.lo) : b.nearest v = b.lo := by
  unfold Bounds.nearest
  omega

theorem Bounds.nearest_of_gt (hb : b.lo ≤ b.hi) (h : b.hi < v) : b.nearest v = b.hi := by
  unfold Bounds.nearest
  omega

/-- Once out of bounds, more digits do not lead back. -/
theorem Bounds.Holds.of_le (h : b.Holds (signed negative m)) (hz : b.Holds 0) (hle : n ≤ m) :
    b.Holds (signed negative n) := by
  obtain ⟨hlo, hhi⟩ := h
  obtain ⟨hzlo, hzhi⟩ := hz
  cases negative with
  | true =>
    change b.lo ≤ -(m : Int) at hlo
    exact ⟨show b.lo ≤ -(n : Int) by omega, show -(n : Int) ≤ b.hi by omega⟩
  | false =>
    change (m : Int) ≤ b.hi at hhi
    exact ⟨show b.lo ≤ (n : Int) by omega, show (n : Int) ≤ b.hi by omega⟩

/-- A digit is taken in while the value stays within the bounds. -/
theorem readDigits_cons (hc : c.isDigit = true) (ds : List Char) :
    (b.Holds (signed negative (n * 10 + digitValue c)) ∧
      readDigits b negative (signed negative n) (c :: ds) =
        readDigits b negative (signed negative (n * 10 + digitValue c)) ds) ∨
    (¬b.Holds (signed negative (n * 10 + digitValue c)) ∧
      ∃ e, readDigits b negative (signed negative n) (c :: ds) = .error e) := by
  have hnext : (if negative then signed negative n * 10 - digitValue c
      else signed negative n * 10 + digitValue c) = signed negative (n * 10 + digitValue c) := by
    unfold signed
    split <;> omega
  rw [readDigits, if_pos hc]
  dsimp only
  rw [hnext]
  by_cases hlo : signed negative (n * 10 + digitValue c) < b.lo
  · rw [if_pos hlo]
    exact .inr ⟨fun h => absurd h.lo (by omega), _, rfl⟩
  by_cases hhi : b.hi < signed negative (n * 10 + digitValue c)
  · rw [if_neg hlo, if_pos hhi]
    exact .inr ⟨fun h => absurd h.hi (by omega), _, rfl⟩
  · rw [if_neg hlo, if_neg hhi]
    exact .inl ⟨⟨by omega, by omega⟩, rfl⟩

/-- Digits are read if nothing else is among them and what they stand for is within the bounds. -/
theorem readDigits_eq_ok_iff (hz : b.Holds 0) (hn : b.Holds (signed negative n)) :
    readDigits b negative (signed negative n) ds = .ok v ↔
      (∀ c ∈ ds, c.isDigit = true) ∧ v = signed negative (valueFrom n ds) ∧ b.Holds v := by
  induction ds generalizing n with
  | nil =>
    rw [readDigits, Except.ok.injEq]
    constructor
    · rintro rfl
      exact ⟨by simp, rfl, hn⟩
    · rintro ⟨-, rfl, -⟩
      rfl
  | cons c ds ih =>
    have hvalue : valueFrom n (c :: ds) = valueFrom (n * 10 + digitValue c) ds := rfl
    rw [hvalue]
    by_cases hc : c.isDigit = true
    · rcases readDigits_cons hc ds with ⟨hb, hread⟩ | ⟨hb, e, hread⟩
      · rw [hread, ih hb]
        simp [hc]
      · rw [hread]
        constructor
        · intro h
          contradiction
        · rintro ⟨-, rfl, hv⟩
          exact absurd (hv.of_le hz (le_valueFrom _ ds)) hb
    · rw [readDigits, if_neg hc]
      simp [hc]

/-- A minus has a meaning only where the bounds hold negative values. -/
theorem read_of_dropSign (hb : s.toList.head? = some '-' → b.lo < 0)
    (hs : dropSign s.toList ≠ []) :
    read b s = readDigits b (s.toList.head? = some '-') 0 (dropSign s.toList) := by
  unfold read
  cases hcs : s.toList with
  | nil =>
    rw [hcs] at hs
    contradiction
  | cons c cs =>
    rw [hcs] at hs hb
    dsimp only
    by_cases hp : c = '+'
    · subst hp
      have hne : cs ≠ [] := hs
      rw [if_pos ⟨rfl, hne⟩]
      rfl
    by_cases hm : c = '-'
    · subst hm
      have hne : cs ≠ [] := hs
      rw [if_neg (by simp), if_pos ⟨rfl, hne, hb rfl⟩]
      rfl
    · have hd : dropSign (c :: cs) = c :: cs := if_neg (by simp [hp, hm])
      have hh : decide ((c :: cs).head? = some '-') = false := by simp [hm]
      rw [if_neg (by simp [hp]), if_neg (by simp [hm]), hd, hh]

/-- A sign alone is no number, and neither is an empty text. -/
theorem read?_of_dropSign_nil (hs : dropSign s.toList = []) : read? b s = none := by
  unfold read? read
  cases hcs : s.toList with
  | nil => rfl
  | cons c cs =>
    rw [hcs] at hs
    by_cases hc : c = '+' ∨ c = '-'
    · obtain rfl : cs = [] := by simpa [dropSign, hc] using hs
      rcases hc with rfl | rfl <;> rfl
    · simp [dropSign, hc] at hs

/-- What is read are the literals within the bounds, and each as the integer that it stands for. -/
theorem read?_eq_some_iff (hlo : b.lo < 0) (hhi : 0 ≤ b.hi) :
    read? b s = some v ↔ isLiteral s = true ∧ v = denoted s ∧ b.Holds v := by
  have hz : b.Holds 0 := ⟨by omega, hhi⟩
  by_cases hs : dropSign s.toList = []
  · rw [read?_of_dropSign_nil hs]
    simp [isLiteral, hs]
  · have hn : signed (s.toList.head? = some '-') 0 = 0 := by simp [signed]
    have hlit : isLiteral s = true ↔ ∀ c ∈ dropSign s.toList, c.isDigit = true := by
      simp [isLiteral_iff, hs]
    have hread : readDigits b (s.toList.head? = some '-') (signed (s.toList.head? = some '-') 0)
        (dropSign s.toList) = .ok v ↔
        (∀ c ∈ dropSign s.toList, c.isDigit = true) ∧ v = denoted s ∧ b.Holds v :=
      readDigits_eq_ok_iff hz (by rwa [hn])
    rw [hn] at hread
    have hok : read? b s = some v ↔ read b s = .ok v := by
      unfold read?
      cases read b s <;> simp [Except.toOption]
    rw [hok, read_of_dropSign (fun _ => hlo) hs, hlit]
    exact hread

/-- A literal that does not fit in 64 bits counts as the nearest value that does. -/
theorem saturated_eq (h : isLiteral s = true) : saturated s = signed64.nearest (denoted s) := by
  have hread : ∀ v, read? signed64 s = some v ↔ v = denoted s ∧ signed64.Holds v := by
    intro v
    rw [read?_eq_some_iff (by decide) (by decide)]
    simp [h]
  unfold read? at hread
  unfold saturated
  cases hr : read signed64 s with
  | ok u =>
    obtain ⟨rfl, hu⟩ := (hread u).mp (by rw [hr]; rfl)
    exact hu.nearest.symm
  | error e =>
    have hout : ¬signed64.Holds (denoted s) := by
      intro hin
      have hsome := (hread _).mpr ⟨rfl, hin⟩
      rw [hr] at hsome
      contradiction
    have hz : signed64.lo < 0 ∧ 0 < signed64.hi := by decide
    dsimp only
    by_cases hm : s.toList.head? = some '-'
    · have hd : denoted s = -(valueOf (dropSign s.toList) : Int) := by simp [denoted, signed, hm]
      have hlow : denoted s < signed64.lo := by
        by_contra hge
        exact hout ⟨by omega, by omega⟩
      rw [if_pos hm, Bounds.nearest_of_lt hlow]
    · have hd : denoted s = valueOf (dropSign s.toList) := by simp [denoted, signed, hm]
      have hhigh : signed64.hi < denoted s := by
        by_contra hle
        exact hout ⟨by omega, by omega⟩
      rw [if_neg hm, Bounds.nearest_of_gt (by decide) hhigh]

theorem ne_sign_of_isDigit (h : c.isDigit = true) : c ≠ '+' ∧ c ≠ '-' := by
  constructor
  · rintro rfl
    contradiction
  · rintro rfl
    contradiction

theorem literal?_eq_some_iff :
    literal? s = some v ↔ isLiteral s = true ∧ v = signed64.nearest (denoted s) := by
  unfold literal?
  by_cases h : isLiteral s = true
  · rw [if_pos h, saturated_eq h, Option.some.injEq]
    simp [h, eq_comm]
  · rw [if_neg h]
    simp [h]

theorem head?_ne_minus (hd : ∀ c ∈ ds, c.isDigit = true) : ds.head? ≠ some '-' := by
  intro h
  exact (ne_sign_of_isDigit (hd '-' (List.mem_of_head? h))).2 rfl

theorem dropSign_digits (hd : ∀ c ∈ ds, c.isDigit = true) : dropSign ds = ds := by
  cases ds with
  | nil => rfl
  | cons c cs =>
    obtain ⟨hp, hm⟩ := ne_sign_of_isDigit (hd c List.mem_cons_self)
    exact if_neg (by simp [hp, hm])

theorem denoted_digits (hd : ∀ c ∈ ds, c.isDigit = true) :
    denoted (String.ofList ds) = valueOf ds := by
  rw [denoted, String.toList_ofList, dropSign_digits hd, decide_eq_false (head?_ne_minus hd)]
  rfl

/-- An integer is written as a literal for itself. -/
theorem denoted_text (v : Int) : denoted (text v) = v := by
  cases v with
  | ofNat n =>
    rw [text, denoted_digits fun _ => isDigit_of_mem_digits, valueOf_digits]
    rfl
  | negSucc n =>
    have hminus : signed true (valueOf (digits (n + 1))) = Int.negSucc n := by
      rw [valueOf_digits]
      rfl
    rw [denoted, text, String.toList_ofList]
    exact hminus

theorem text_injective : Function.Injective text := Function.LeftInverse.injective denoted_text

theorem text_ne_empty (v : Int) : text v ≠ "" := by
  intro h
  cases v with
  | ofNat n => exact digits_ne_nil n (String.ofList_eq_empty_iff.mp h)
  | negSucc n => exact List.cons_ne_nil _ _ (String.ofList_eq_empty_iff.mp h)

theorem minus_or_isDigit_of_mem_text (h : c ∈ (text v).toList) : c = '-' ∨ c.isDigit = true := by
  cases v with
  | ofNat n =>
    rw [text, String.toList_ofList] at h
    exact .inr (isDigit_of_mem_digits h)
  | negSucc n =>
    rw [text, String.toList_ofList] at h
    exact (List.mem_cons.mp h).imp id isDigit_of_mem_digits

/-- How an integer is written in decimal: digits, behind a sign or without one. -/
inductive Writes : List Char → Int → Prop
  | bare {ds : List Char} (hn : ds ≠ []) (hd : ∀ c ∈ ds, c.isDigit = true) : Writes ds (valueOf ds)
  | plus {ds : List Char} (hn : ds ≠ []) (hd : ∀ c ∈ ds, c.isDigit = true) :
    Writes ('+' :: ds) (valueOf ds)
  | minus {ds : List Char} (hn : ds ≠ []) (hd : ∀ c ∈ ds, c.isDigit = true) :
    Writes ('-' :: ds) (-valueOf ds)

/-- The literals are just what an integer can be written as, and they stand for that. -/
theorem writes_iff : Writes s.toList v ↔ isLiteral s = true ∧ denoted s = v := by
  rw [isLiteral_iff, denoted]
  constructor
  · intro h
    generalize s.toList = cs at h ⊢
    cases h with
    | bare hn hd =>
      rw [dropSign_digits hd, decide_eq_false (head?_ne_minus hd)]
      exact ⟨⟨hn, hd⟩, rfl⟩
    | plus hn hd => exact ⟨⟨hn, hd⟩, rfl⟩
    | minus hn hd => exact ⟨⟨hn, hd⟩, rfl⟩
  · rintro ⟨⟨hn, hd⟩, rfl⟩
    cases hcs : s.toList with
    | nil =>
      rw [hcs] at hn
      contradiction
    | cons c ds =>
      rw [hcs] at hn hd
      by_cases hp : c = '+'
      · subst hp
        exact .plus hn hd
      by_cases hm : c = '-'
      · subst hm
        exact .minus hn hd
      · have hdrop : dropSign (c :: ds) = c :: ds := if_neg (by simp [hp, hm])
        rw [hdrop] at hn hd ⊢
        rw [decide_eq_false (head?_ne_minus hd)]
        exact .bare hn hd

/-- A literal is the integer that it writes, or the nearest one of 64 bits. -/
theorem literal?_eq_some_iff_writes :
    literal? s = some v ↔
      ∃ n, Writes s.toList n ∧ v = max (-9223372036854775808) (min n 9223372036854775807) := by
  rw [literal?_eq_some_iff]
  constructor
  · rintro ⟨hl, rfl⟩
    exact ⟨denoted s, writes_iff.mpr ⟨hl, rfl⟩, rfl⟩
  · rintro ⟨n, hw, rfl⟩
    obtain ⟨hl, rfl⟩ := writes_iff.mp hw
    exact ⟨hl, rfl⟩

theorem read?_digits (hn : ds ≠ []) (hd : ∀ c ∈ ds, c.isDigit = true) (hl : b.lo ≤ 0)
    (hv : (valueOf ds : Int) ≤ b.hi) : read? b (String.ofList ds) = some (valueOf ds : Int) := by
  have hz : b.Holds (signed false 0) := ⟨hl, show (0 : Int) ≤ b.hi by omega⟩
  have hr : readDigits b false (signed false 0) ds = .ok (valueOf ds : Int) :=
    (readDigits_eq_ok_iff hz hz).mpr ⟨hd, rfl, by omega, hv⟩
  unfold read?
  rw [read_of_dropSign, String.toList_ofList, dropSign_digits hd,
    decide_eq_false (head?_ne_minus hd)]
  · exact congrArg Except.toOption hr
  · rw [String.toList_ofList]
    exact fun h => absurd h (head?_ne_minus hd)
  · rwa [String.toList_ofList, dropSign_digits hd]

theorem isLiteral_digits (hn : ds ≠ []) (hd : ∀ c ∈ ds, c.isDigit = true) :
    isLiteral (String.ofList ds) = true := by
  rw [isLiteral_iff, String.toList_ofList, dropSign_digits hd]
  exact ⟨hn, hd⟩

theorem literal?_digits (hn : ds ≠ []) (hd : ∀ c ∈ ds, c.isDigit = true)
    (hv : (valueOf ds : Int) ≤ signed64.hi) :
    literal? (String.ofList ds) = some (valueOf ds : Int) := by
  have hin : signed64.Holds (valueOf ds) :=
    ⟨show (-9223372036854775808 : Int) ≤ valueOf ds by omega, hv⟩
  rw [literal?_eq_some_iff, denoted_digits hd]
  exact ⟨isLiteral_digits hn hd, hin.nearest.symm⟩

/-- The characters of a number with zeros in front. -/
def paddedDigits (width n : Nat) : List Char := (digits n).leftpad width '0'

theorem toList_zeroPadded (width n : Nat) : (zeroPadded width n).toList = paddedDigits width n :=
  String.toList_ofList

theorem paddedDigits_ne_nil (width n : Nat) : paddedDigits width n ≠ [] := by
  simp [paddedDigits, List.leftpad, digits_ne_nil]

theorem isDigit_of_mem_paddedDigits {width : Nat} (h : c ∈ paddedDigits width n) :
    c.isDigit = true := by
  rcases List.mem_append.mp h with h | h
  · obtain rfl := List.eq_of_mem_replicate h
    rfl
  · exact isDigit_of_mem_digits h

theorem valueOf_paddedDigits (width n : Nat) : valueOf (paddedDigits width n) = n :=
  (valueOf_zeros_append _ _).trans (valueOf_digits n)

/-- The last digit by itself. There must be others, since a number has one digit at least. -/
theorem paddedDigits_succ {width : Nat} (hw : 0 < width) (n : Nat) :
    paddedDigits (width + 1) n = paddedDigits width (n / 10) ++ [digitChar (n % 10)] := by
  unfold paddedDigits List.leftpad
  by_cases hn : n < 10
  · have hd : n / 10 = 0 := Nat.div_eq_of_lt hn
    have hz : digits 0 = ['0'] := by
      rw [digits]
      rfl
    obtain ⟨k, rfl⟩ := Nat.exists_eq_add_one.mpr hw
    rw [digits, if_pos hn, hd, hz, Nat.mod_eq_of_lt hn]
    simp [List.replicate_succ']
  · rw [digits, if_neg hn, List.length_append, List.length_singleton, Nat.add_sub_add_right,
      List.append_assoc]

theorem paddedDigits_one {n : Nat} (hn : n < 10) : paddedDigits 1 n = [digitChar n] := by
  unfold paddedDigits List.leftpad
  rw [digits, if_pos hn]
  rfl

theorem paddedDigits_two {n : Nat} (hn : n < 100) :
    paddedDigits 2 n = [digitChar (n / 10), digitChar (n % 10)] := by
  rw [paddedDigits_succ (by decide), paddedDigits_one (by omega)]
  rfl

theorem paddedDigits_three {n : Nat} (hn : n < 1000) :
    paddedDigits 3 n = [digitChar (n / 100), digitChar (n / 10 % 10), digitChar (n % 10)] := by
  rw [paddedDigits_succ (by decide), paddedDigits_two (by omega), Nat.div_div_eq_div_mul]
  rfl

/-- Zeros in front of a number do not change what is read. -/
theorem read?_zeroPadded (width : Nat) (hl : b.lo ≤ 0) (hn : (n : Int) ≤ b.hi) :
    read? b (zeroPadded width n) = some (n : Int) := by
  have hv := valueOf_paddedDigits width n
  have hr := read?_digits (paddedDigits_ne_nil width n)
    (fun _ => isDigit_of_mem_paddedDigits) hl (by rw [hv]; exact hn)
  rwa [hv] at hr

theorem literal?_zeroPadded (width : Nat) (hn : (n : Int) ≤ signed64.hi) :
    literal? (zeroPadded width n) = some (n : Int) := by
  have hv := valueOf_paddedDigits width n
  have hr := literal?_digits (paddedDigits_ne_nil width n)
    (fun _ => isDigit_of_mem_paddedDigits) (by rw [hv]; exact hn)
  rwa [hv] at hr

theorem isBlank_of_isDigit (h : c.isDigit = true) : Text.isBlank c = false := by
  have hr : 48 ≤ c.toNat ∧ c.toNat ≤ 57 := by
    simp only [Char.isDigit, Bool.and_eq_true, decide_eq_true_eq] at h
    exact h
  have hb : ∀ n < 58, 48 ≤ n → (Text.blankRanges.any fun r => r.1 ≤ n && n ≤ r.2) = false := by
    decide
  exact hb c.toNat (by omega) hr.1

end LittleMan.Decimal
