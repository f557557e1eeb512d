import LittleMan.Proofs.Source.Cleaning

/-! What a slice of a text is: characters that stand in the text, from a byte on where one of them
begins, and as many bytes as they take up. -/
namespace LittleMan.Source

variable {src part : String} {s : Span} {cs taken rest : List Char} {n : Nat}

/-- Whole characters are dropped. -/
theorem exists_of_dropBytes (h : dropBytes n cs = some rest) :
    ∃ before, cs = before ++ rest ∧ n = Text.byteLength before := by
  fun_induction dropBytes n cs with
  | case1 cs =>
    obtain rfl := Option.some.inj h
    exact ⟨[], rfl, rfl⟩
  | case2 => contradiction
  | case3 n c cs hc ih =>
    obtain ⟨before, rfl, hn⟩ := ih h
    refine ⟨c :: before, rfl, ?_⟩
    rw [Text.byteLength_cons]
    omega
  | case4 => contradiction

/-- Whole characters are taken. -/
theorem exists_of_takeBytes (h : takeBytes n cs = some taken) :
    ∃ behind, cs = taken ++ behind ∧ n = Text.byteLength taken := by
  fun_induction takeBytes n cs generalizing taken with
  | case1 cs =>
    obtain rfl := Option.some.inj h
    exact ⟨cs, rfl, rfl⟩
  | case2 => contradiction
  | case3 n c cs hc ih =>
    obtain ⟨front, hfront, rfl⟩ := Option.map_eq_some_iff.mp h
    obtain ⟨behind, rfl, hn⟩ := ih hfront
    refine ⟨behind, rfl, ?_⟩
    rw [Text.byteLength_cons]
    omega
  | case4 => contradiction

theorem slice?_eq_some_iff :
    slice? src s = some part ↔ ∃ before behind, src.toList = before ++ part.toList ++ behind ∧
      s = ⟨Text.byteLength before, Text.byteLength part.toList⟩ := by
  constructor
  · intro h
    unfold slice? at h
    obtain ⟨front, hfront, rfl⟩ := Option.map_eq_some_iff.mp h
    obtain ⟨rest, hrest, htake⟩ := Option.bind_eq_some_iff.mp hfront
    obtain ⟨before, hsrc, hoffset⟩ := exists_of_dropBytes hrest
    obtain ⟨behind, rfl, hlength⟩ := exists_of_takeBytes htake
    refine ⟨before, behind, ?_, ?_⟩
    · rw [hsrc, String.toList_ofList, List.append_assoc]
    · rw [String.toList_ofList, ← hoffset, ← hlength]
  · rintro ⟨before, behind, hsrc, rfl⟩
    have hslice := slice?_append before part.toList behind
    rwa [← hsrc, String.ofList_toList, String.ofList_toList] at hslice

/-- A part of a text that is not empty, and the bytes that it takes up there. -/
structure Covers (src : String) (s : Span) (part : String) : Prop where
  ne_empty : part ≠ ""
  parts : ∃ before behind, src.toList = before ++ part.toList ++ behind ∧
    s = ⟨Text.byteLength before, Text.byteLength part.toList⟩

theorem covers_iff : Covers src s part ↔ part ≠ "" ∧ slice? src s = some part := by
  rw [slice?_eq_some_iff]
  exact ⟨fun h => ⟨h.ne_empty, h.parts⟩, fun h => ⟨h.1, h.2⟩⟩

/-- A word covers the bytes where it stands. -/
theorem covers_of_mem_words {l : Line} {w : Lexeme} (hl : l ∈ lines src) (hw : w ∈ l.words) :
    Covers src w.span w.text := by
  obtain ⟨t, ht, rfl⟩ := exists_token_of_mem_words hl hw
  obtain ⟨hslice, hne⟩ := slice?_of_mem_tokens ht
  exact covers_iff.mpr ⟨hne, hslice⟩

end LittleMan.Source
