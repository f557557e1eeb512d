import LittleMan.Proofs.Text.Bytes
import LittleMan.Terminal.Keyboard

/-! Texts typed on a terminal: characters that are no control keys arrive as they are, line by
line. -/
namespace LittleMan.Terminal

variable {c : Char} {cs : List Char}

/-- Typing the character enters it into the line, as it is no key of another kind. -/
def IsPlainKey (c : Char) : Prop :=
  c ∉ ['\n', '\r', '\t', '\x08', '\x7f', '\x01', '\x05', '\x1b']

instance (c : Char) : Decidable (IsPlainKey c) := inferInstanceAs (Decidable (c ∉ _))

namespace Key

/-- The first byte of a character tells how many follow it, and is no escape if any do. -/
theorem continuation_utf8EncodeChar (c : Char) :
    (c.val.toNat < 128 ∧ String.utf8EncodeChar c = [UInt8.ofNat c.val.toNat]) ∨
      ∃ b tail, String.utf8EncodeChar c = b :: tail ∧ tail ≠ [] ∧
        continuation b = tail.length ∧ b ≠ 27 := by
  have htwo : ∀ m < 32,
      continuation (UInt8.ofNat (m + 192)) = 1 ∧ UInt8.ofNat (m + 192) ≠ 27 := by decide
  have hthree : ∀ m < 16,
      continuation (UInt8.ofNat (m + 224)) = 2 ∧ UInt8.ofNat (m + 224) ≠ 27 := by decide
  have hfour : ∀ m < 8,
      continuation (UInt8.ofNat (m + 240)) = 3 ∧ UInt8.ofNat (m + 240) ≠ 27 := by decide
  unfold String.utf8EncodeChar
  dsimp only
  split
  · exact .inl ⟨by omega, rfl⟩
  · split
    · obtain ⟨hc, hb⟩ := htwo (c.val.toNat / 64 % 32) (by omega)
      exact .inr ⟨_, _, rfl, List.cons_ne_nil _ _, hc, hb⟩
    · split
      · obtain ⟨hc, hb⟩ := hthree (c.val.toNat / 4096 % 16) (by omega)
        exact .inr ⟨_, _, rfl, List.cons_ne_nil _ _, hc, hb⟩
      · obtain ⟨hc, hb⟩ := hfour (c.val.toNat / 262144 % 8) (by omega)
        exact .inr ⟨_, _, rfl, List.cons_ne_nil _ _, hc, hb⟩

/-- A byte that is a character of its own is read as that character, unless it is another key. -/
theorem read?_ofNat {n : Nat} (hn : n < 128) (h : IsPlainKey (Char.ofNat n)) (rest : List UInt8) :
    read? (UInt8.ofNat n :: rest) = some (char (Char.ofNat n), rest) := by
  have hall : ∀ m < 128, IsPlainKey (Char.ofNat m) →
      UInt8.ofNat m ≠ 27 ∧ continuation (UInt8.ofNat m) = 0 ∧
        ofByte (UInt8.ofNat m) = char (Char.ofNat m) := by decide
  obtain ⟨hescape, hc, hkey⟩ := hall n hn h
  rw [read?, if_neg hescape, hc, if_neg (by omega), if_pos rfl, hkey]

theorem ofCharacter_utf8EncodeChar (c : Char) : ofCharacter (String.utf8EncodeChar c) = char c := by
  have h := Text.ofUtf8?_utf8Bytes [c]
  have hc : Text.utf8Bytes [c] = String.utf8EncodeChar c := List.flatMap_singleton _ c
  rw [hc] at h
  unfold ofCharacter
  rw [h]
  simp

/-- A character of several bytes is read as a whole. -/
theorem read?_of_continuation {b : UInt8} {tail : List UInt8} (rest : List UInt8) (hb : b ≠ 27)
    (hn : tail ≠ []) (hl : continuation b = tail.length) :
    read? (b :: tail ++ rest) = some (ofCharacter (b :: tail), rest) := by
  have hz : continuation b ≠ 0 := by
    rw [hl]
    simpa using hn
  have ht : (tail ++ rest).take (continuation b) = tail := by simp [hl]
  have hd : (tail ++ rest).drop (continuation b) = rest := by simp [hl]
  rw [List.cons_append, read?, if_neg hb, ht, if_neg (by omega), if_neg hz, hd]

theorem read?_utf8EncodeChar (h : IsPlainKey c) (rest : List UInt8) :
    read? (String.utf8EncodeChar c ++ rest) = some (char c, rest) := by
  obtain ⟨hn, hc⟩ | ⟨b, tail, hc, htail, hl, hb⟩ := continuation_utf8EncodeChar c
  · have hchar : Char.ofNat c.val.toNat = c := Char.ofNat_toNat c
    rw [hc, List.singleton_append, read?_ofNat hn (by rwa [hchar]), hchar]
  · rw [← ofCharacter_utf8EncodeChar, hc]
    exact read?_of_continuation rest hb htail hl

end Key

variable {bytes rest : List UInt8}

theorem typeLine_of_enter (h : Key.read? bytes = some (.enter, rest)) (typed : List Char)
    (echo : String) :
    typeLine typed echo bytes = ⟨String.ofList typed.reverse, echo ++ "\n", some rest⟩ := by
  rw [typeLine]
  split <;> simp_all

theorem typeLine_of_char (h : Key.read? bytes = some (.char c, rest)) (typed : List Char)
    (echo : String) : typeLine typed echo bytes = typeLine (c :: typed) (echo.push c) rest := by
  rw [typeLine]
  split <;> simp_all

/-- Characters go to the end of the line that is being typed. -/
theorem text_typeLine (h : ∀ c ∈ cs, IsPlainKey c) (typed : List Char) (echo : String)
    (rest : List UInt8) :
    (typeLine typed echo (Text.utf8Bytes cs ++ 10 :: rest)).text =
        String.ofList (typed.reverse ++ cs) ∧
      (typeLine typed echo (Text.utf8Bytes cs ++ 10 :: rest)).rest = some rest := by
  induction cs generalizing typed echo with
  | nil =>
    have hzero : Key.continuation 10 = 0 := by decide
    have hkey : Key.read? (10 :: rest) = some (.enter, rest) := by
      rw [Key.read?, if_neg (by decide), hzero, if_neg (by omega), if_pos rfl]
      rfl
    rw [Text.utf8Bytes, List.flatMap_nil, List.nil_append, typeLine_of_enter hkey]
    simp
  | cons c cs ih =>
    have hc : IsPlainKey c := h c List.mem_cons_self
    have hcs : ∀ d ∈ cs, IsPlainKey d := fun d hd => h d (List.mem_cons_of_mem c hd)
    have hbytes : Text.utf8Bytes (c :: cs) ++ 10 :: rest =
        String.utf8EncodeChar c ++ (Text.utf8Bytes cs ++ 10 :: rest) := by
      simp [Text.utf8Bytes]
    have hkey := Key.read?_utf8EncodeChar hc (Text.utf8Bytes cs ++ 10 :: rest)
    rw [hbytes, typeLine_of_char hkey]
    simpa using ih hcs (c :: typed) (echo.push c)

/-- The lines typed until the input ends. One that is not ended is lost. -/
def typedLines (bytes : List UInt8) : List String :=
  match _h : (readLine bytes).rest with
  | none => []
  | some rest => (readLine bytes).text :: typedLines rest
termination_by bytes.length
decreasing_by exact length_lt_of_readLine _h

@[simp] theorem typedLines_nil : typedLines [] = [] := by
  rw [typedLines]
  split
  · rfl
  · next hr =>
    have hlt := length_lt_of_readLine hr
    simp at hlt

theorem typedLines_of_rest (h : (readLine bytes).rest = some rest) :
    typedLines bytes = (readLine bytes).text :: typedLines rest := by
  rw [typedLines]
  split <;> simp_all

/-- Lines typed in UTF-8 are read as they are. -/
theorem typedLines_utf8Bytes {rows : List (List Char)}
    (h : ∀ row ∈ rows, ∀ c ∈ row, IsPlainKey c) :
    typedLines (Text.utf8Bytes (rows.flatMap (· ++ ['\n']))) = rows.map String.ofList := by
  induction rows with
  | nil => simp [Text.utf8Bytes]
  | cons row rows ih =>
    have hrow : ∀ c ∈ row, IsPlainKey c := h row List.mem_cons_self
    have hrows : ∀ r ∈ rows, ∀ c ∈ r, IsPlainKey c := fun r hr => h r (List.mem_cons_of_mem row hr)
    have hbytes : Text.utf8Bytes ((row :: rows).flatMap (· ++ ['\n'])) =
        Text.utf8Bytes row ++ 10 :: Text.utf8Bytes (rows.flatMap (· ++ ['\n'])) := by
      have hn : String.utf8EncodeChar '\n' = [10] := by decide
      simp [Text.utf8Bytes, hn]
    obtain ⟨htext, hrest⟩ :=
      text_typeLine hrow [] "" (Text.utf8Bytes (rows.flatMap (· ++ ['\n'])))
    rw [hbytes, typedLines_of_rest hrest, ih hrows, List.map_cons]
    congr 1

end LittleMan.Terminal
