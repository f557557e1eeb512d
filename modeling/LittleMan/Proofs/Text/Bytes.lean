import LittleMan.Proofs.Text.Pieces
import LittleMan.Text.Bytes

/-! Texts in UTF-8: they are read back, and their lines are found among the bytes as they are found
among the characters. -/
namespace LittleMan.Text

def utf8Bytes (cs : List Char) : List UInt8 := cs.flatMap String.utf8EncodeChar

theorem toList_toUTF8 (s : String) : s.toUTF8.data.toList = utf8Bytes s.toList := by
  have h : s.toList.utf8Encode = s.toUTF8 := String.utf8Encode_toList
  rw [← h]
  simp [List.utf8Encode, utf8Bytes]

theorem ofUtf8?_utf8Bytes (cs : List Char) : ofUtf8? (utf8Bytes cs) = some (String.ofList cs) := by
  have h : (⟨(utf8Bytes cs).toArray⟩ : ByteArray) = cs.utf8Encode := by
    apply ByteArray.ext
    simp [List.utf8Encode, utf8Bytes]
  unfold ofUtf8? String.fromUTF8?
  rw [h, dif_pos ByteArray.isValidUTF8_utf8Encode]
  rfl

end LittleMan.Text
