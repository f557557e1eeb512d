import LittleMan.Terminal.Paint
import LittleMan.Text.Bytes
import LittleMan.Text.Decimal
import LittleMan.Text.Width

/-! Lines typed on a terminal that does not show what is typed: keys, and the echo of a line. -/
namespace LittleMan.Terminal

inductive Key
  | char (c : Char)
  | enter
  | backspace
  /-- Arrows, tabs and the like, which a line editor without them passes over. -/
  | other
  deriving DecidableEq, Repr

namespace Key

/-- Bytes behind the first one that belong to the same character. -/
def continuation (b : UInt8) : Nat :=
  if b &&& 224 = 192 then 1 else if b &&& 240 = 224 then 2 else if b &&& 248 = 240 then 3 else 0

def ofByte (b : UInt8) : Key :=
  if b = 10 ∨ b = 13 then enter
  else if b = 127 ∨ b = 8 then backspace
  else if b = 9 ∨ b = 1 ∨ b = 5 then other
  else char (Char.ofNat b.toNat)

def ofCharacter (bytes : List UInt8) : Key :=
  match (Text.ofUtf8? bytes).bind (·.toList.head?) with
  | some c => char c
  | none => other

/-- What is left behind the sequence that an escape begins: a bracket is followed by one character,
and by a second one unless the first is a known letter. -/
def afterEscape : List UInt8 → List UInt8
  | 91 :: b :: bytes => if b ∈ "ABCDHFZ".toUTF8.toList then bytes else bytes.drop 1
  | _ :: bytes => bytes
  | [] => []

/-- The next key and the bytes behind it. The input may end inside a character. -/
def read? : List UInt8 → Option (Key × List UInt8)
  | [] => none
  | b :: bytes =>
    if b = 27 then some (other, afterEscape bytes)
    else if (bytes.take (continuation b)).length < continuation b then none
    else if continuation b = 0 then some (ofByte b, bytes)
    else some (ofCharacter (b :: bytes.take (continuation b)), bytes.drop (continuation b))

theorem length_afterEscape_le (bytes : List UInt8) : (afterEscape bytes).length ≤ bytes.length := by
  unfold afterEscape
  split
  · split
    · simp only [List.length_cons]; omega
    · simp only [List.length_drop, List.length_cons]; omega
  · simp only [List.length_cons]; omega
  · exact Nat.le_refl _

theorem length_lt_of_read? {bytes rest : List UInt8} {k : Key} (h : read? bytes = some (k, rest)) :
    rest.length < bytes.length := by
  cases bytes with
  | nil => simp [read?] at h
  | cons b bytes =>
    have hesc := length_afterEscape_le bytes
    simp only [read?] at h
    rw [List.length_cons]
    split at h
    · obtain ⟨-, rfl⟩ := Prod.mk.inj (Option.some.inj h)
      omega
    · split at h
      · simp at h
      · split at h
        · obtain ⟨-, rfl⟩ := Prod.mk.inj (Option.some.inj h)
          omega
        · obtain ⟨-, rfl⟩ := Prod.mk.inj (Option.some.inj h)
          rw [List.length_drop]
          omega

end Key

/-- A line as it was typed. -/
structure TypedLine where
  text : String
  /-- What typing it showed. -/
  echo : String
  /-- Bytes behind the line, or nothing if the input ended before the line did. -/
  rest : Option (List UInt8)
  deriving DecidableEq, Repr

/-- Takes back the character before the cursor. One without a column leaves nothing to take back. -/
def erasure (c : Char) : String :=
  if Text.width c = 0 then "" else "\x1b[" ++ Decimal.text (Text.width c) ++ "D\x1b[0K"

/-- Goes on with a line; `typed` holds its characters so far, the last one first. -/
def typeLine (typed : List Char) (echo : String) (bytes : List UInt8) : TypedLine :=
  match _h : Key.read? bytes with
  | none => ⟨String.ofList typed.reverse, echo, none⟩
  | some (.enter, rest) => ⟨String.ofList typed.reverse, echo ++ "\n", some rest⟩
  | some (.char c, rest) => typeLine (c :: typed) (echo.push c) rest
  | some (.backspace, rest) =>
    match typed with
    | [] => typeLine [] echo rest
    | c :: cs => typeLine cs (echo ++ erasure c) rest
  | some (.other, rest) => typeLine typed echo rest
termination_by bytes.length
decreasing_by all_goals exact Key.length_lt_of_read? _h

theorem length_lt_of_typeLine {typed : List Char} {echo : String} {bytes rest : List UInt8}
    (h : (typeLine typed echo bytes).rest = some rest) : rest.length < bytes.length := by
  fun_induction typeLine typed echo bytes with
  | case1 => simp at h
  | case2 typed echo bytes rest' hr =>
    obtain rfl := Option.some.inj h
    exact Key.length_lt_of_read? hr
  | case3 typed echo bytes c rest' hr ih => exact Nat.lt_trans (ih h) (Key.length_lt_of_read? hr)
  | case4 echo bytes rest' hr ih => exact Nat.lt_trans (ih h) (Key.length_lt_of_read? hr)
  | case5 echo bytes rest' hr c cs ih => exact Nat.lt_trans (ih h) (Key.length_lt_of_read? hr)
  | case6 typed echo bytes rest' hr ih => exact Nat.lt_trans (ih h) (Key.length_lt_of_read? hr)

def readLine (bytes : List UInt8) : TypedLine := typeLine [] "" bytes

theorem length_lt_of_readLine {bytes rest : List UInt8} (h : (readLine bytes).rest = some rest) :
    rest.length < bytes.length :=
  length_lt_of_typeLine h

end LittleMan.Terminal
