import LittleMan.Proofs.Text.Bytes
import LittleMan.Source.Slice
import LittleMan.Source.Token
import Mathlib.Data.List.TakeWhile

/-! Tokens make up a text: one begins where another ends, each covers what it says, and put together
they give the text back. -/
namespace LittleMan

namespace Text

theorem length_utf8Bytes (cs : List Char) : (utf8Bytes cs).length = byteLength cs := by
  induction cs with
  | nil => rfl
  | cons c cs ih =>
    have hc : utf8Bytes (c :: cs) = String.utf8EncodeChar c ++ utf8Bytes cs := List.flatMap_cons
    rw [hc, List.length_append, ih, String.length_utf8EncodeChar, byteLength_cons]

theorem byteLength_toList (s : String) : byteLength s.toList = s.utf8ByteSize := by
  rw [← length_utf8Bytes, ← toList_toUTF8]
  exact Array.length_toList

theorem byteLength_pos {c : Char} (cs : List Char) : 0 < byteLength (c :: cs) := by
  have hc : 0 < c.utf8Size := c.utf8Size_pos
  rw [byteLength_cons]
  omega

end Text

namespace Source

theorem dropBytes_append (l r : List Char) : dropBytes (Text.byteLength l) (l ++ r) = some r := by
  induction l with
  | nil => exact dropBytes.eq_1 r
  | cons c cs ih =>
    have hn : Text.byteLength (c :: cs) = c.utf8Size + Text.byteLength cs := rfl
    obtain ⟨n, hc⟩ := Nat.exists_eq_add_one.mpr (Text.byteLength_pos (c := c) cs)
    rw [List.cons_append, hc, dropBytes, if_pos (by omega), ← ih]
    congr 1
    omega

theorem takeBytes_append (l r : List Char) : takeBytes (Text.byteLength l) (l ++ r) = some l := by
  induction l with
  | nil => exact takeBytes.eq_1 r
  | cons c cs ih =>
    have hn : Text.byteLength (c :: cs) = c.utf8Size + Text.byteLength cs := rfl
    obtain ⟨n, hc⟩ := Nat.exists_eq_add_one.mpr (Text.byteLength_pos (c := c) cs)
    have hr : n + 1 - c.utf8Size = Text.byteLength cs := by omega
    rw [List.cons_append, hc, takeBytes, if_pos (by omega), hr, ih]
    rfl

/-- A part of a text is what its place in bytes covers. -/
theorem slice?_append (before part behind : List Char) :
    slice? (String.ofList (before ++ part ++ behind))
      ⟨Text.byteLength before, Text.byteLength part⟩ = some (String.ofList part) := by
  unfold slice?
  dsimp only
  rw [String.toList_ofList, List.append_assoc, dropBytes_append, Option.bind_some, takeBytes_append]
  rfl

namespace TokenKind

/-- The characters that a token of each kind starts with. -/
def StartsWith : TokenKind → Char → Prop
  | word, c => Text.isBlank c = false ∧ c ≠ ';'
  | comment, c => c = ';'
  | blank, c => c ≠ '\n' ∧ Text.isBlank c = true
  | newline, c => c = '\n'

theorem startsWith_ofFirst (c : Char) : (ofFirst c).StartsWith c := by
  unfold ofFirst
  by_cases hs : c = ';'
  · rw [if_pos hs]
    exact hs
  by_cases hn : c = '\n'
  · rw [if_neg hs, if_pos hn]
    exact hn
  rw [if_neg hs, if_neg hn]
  cases hb : Text.isBlank c with
  | true => exact ⟨hn, hb⟩
  | false => exact ⟨hb, hs⟩

theorem startsWith_of_ofFirst {c : Char} {k : TokenKind} (h : ofFirst c = k) : k.StartsWith c :=
  h ▸ startsWith_ofFirst c

end TokenKind

/-- The characters of the token that comes first. -/
def firstTaken (c : Char) (cs : List Char) : List Char :=
  c :: cs.takeWhile (TokenKind.ofFirst c).extendsOver

/-- The characters behind it. -/
def behindFirst (c : Char) (cs : List Char) : List Char :=
  cs.dropWhile (TokenKind.ofFirst c).extendsOver

/-- The token that comes first. -/
def firstToken (offset : Nat) (c : Char) (cs : List Char) : Token :=
  ⟨⟨String.ofList (firstTaken c cs), ⟨offset, Text.byteLength (firstTaken c cs)⟩⟩,
    TokenKind.ofFirst c⟩

theorem firstTaken_append (c : Char) (cs : List Char) :
    firstTaken c cs ++ behindFirst c cs = c :: cs := by
  unfold firstTaken behindFirst
  rw [List.cons_append, List.takeWhile_append_dropWhile]

theorem mem_firstTaken {a c : Char} {cs : List Char} (h : a ∈ firstTaken c cs) :
    a = c ∨ (TokenKind.ofFirst c).extendsOver a = true := by
  rcases List.mem_cons.mp h with rfl | h
  · exact .inl rfl
  · exact .inr (List.mem_takeWhile_imp h)

/-- Tokens are as long as their kind allows. -/
theorem head?_behindFirst {a c : Char} {cs : List Char} (h : a ∈ (behindFirst c cs).head?) :
    (TokenKind.ofFirst c).extendsOver a = false := by
  have hd := List.head?_dropWhile_not (TokenKind.ofFirst c).extendsOver cs
  have ha : (cs.dropWhile (TokenKind.ofFirst c).extendsOver).head? = some a := h
  rw [ha] at hd
  exact hd

theorem tokensFrom_cons (offset : Nat) (c : Char) (cs : List Char) :
    tokensFrom offset (c :: cs) =
      firstToken offset c cs ::
        tokensFrom (offset + Text.byteLength (firstTaken c cs)) (behindFirst c cs) := by
  rw [tokensFrom]
  rfl

/-- What holds of a text if it holds behind its first token holds of every text. -/
theorem tokens_induction {motive : Nat → List Char → Prop} (nil : ∀ offset, motive offset [])
    (cons : ∀ offset c cs,
      motive (offset + Text.byteLength (firstTaken c cs)) (behindFirst c cs) →
        motive offset (c :: cs)) (offset : Nat) (cs : List Char) : motive offset cs := by
  induction offset, cs using tokensFrom.induct with
  | case1 offset => exact nil offset
  | case2 offset c cs kind taken span ih => exact cons offset c cs ih

/-- Tokens side by side that cover the bytes from `start` to `stop`, some of them each. -/
def Tiles (start : Nat) : List Token → Nat → Prop
  | [], stop => start = stop
  | t :: ts, stop => t.span.offset = start ∧ 0 < t.span.length ∧ Tiles t.span.stop ts stop

theorem tiles_tokensFrom (offset : Nat) (cs : List Char) :
    Tiles offset (tokensFrom offset cs) (offset + Text.byteLength cs) := by
  induction offset, cs using tokens_induction with
  | nil offset => rw [tokensFrom]; rfl
  | cons offset c cs ih =>
    have hb : Text.byteLength (c :: cs) =
        Text.byteLength (firstTaken c cs) + Text.byteLength (behindFirst c cs) := by
      rw [← Text.byteLength_append, firstTaken_append]
    have hpos : 0 < Text.byteLength (firstTaken c cs) := Text.byteLength_pos _
    rw [tokensFrom_cons, hb, ← Nat.add_assoc]
    exact ⟨rfl, hpos, ih⟩

/-- Every token stands at its place, between what comes before it and what comes behind. -/
theorem exists_of_mem_tokensFrom {offset : Nat} {before cs : List Char} {t : Token}
    (ho : offset = Text.byteLength before) (h : t ∈ tokensFrom offset cs) :
    ∃ before' part behind, before ++ cs = before' ++ part ++ behind ∧ part ≠ [] ∧
      t.text = String.ofList part ∧ t.span = ⟨Text.byteLength before', Text.byteLength part⟩ := by
  induction offset, cs using tokens_induction generalizing before with
  | nil offset =>
    rw [tokensFrom] at h
    contradiction
  | cons offset c cs ih =>
    have hc := firstTaken_append c cs
    subst ho
    rw [tokensFrom_cons] at h
    rcases List.mem_cons.mp h with rfl | h
    · refine ⟨before, firstTaken c cs, behindFirst c cs, ?_, List.cons_ne_nil _ _, rfl, rfl⟩
      rw [List.append_assoc, hc]
    · have hb := Text.byteLength_append before (firstTaken c cs)
      obtain ⟨before', part, behind, he, hp, ht, hs⟩ := ih hb.symm h
      refine ⟨before', part, behind, ?_, hp, ht, hs⟩
      rw [← he, List.append_assoc, hc]

theorem flatMap_tokensFrom (offset : Nat) (cs : List Char) :
    (tokensFrom offset cs).flatMap (fun t => t.text.toList) = cs := by
  induction offset, cs using tokens_induction with
  | nil offset => rw [tokensFrom]; rfl
  | cons offset c cs ih =>
    rw [tokensFrom_cons, List.flatMap_cons, ih]
    change (String.ofList (firstTaken c cs)).toList ++ _ = _
    rw [String.toList_ofList, firstTaken_append]

theorem length_tokensFrom_le (offset : Nat) (cs : List Char) :
    (tokensFrom offset cs).length ≤ cs.length := by
  induction offset, cs using tokens_induction with
  | nil offset => rw [tokensFrom]; exact Nat.le_refl 0
  | cons offset c cs ih =>
    have hs : (behindFirst c cs).length ≤ cs.length := (List.dropWhile_sublist _).length_le
    rw [tokensFrom_cons, List.length_cons, List.length_cons]
    omega

theorem slice?_of_mem_tokens {src : String} {t : Token} (h : t ∈ tokens src) :
    slice? src t.span = some t.text ∧ t.text ≠ "" := by
  have ho : 0 = Text.byteLength [] := rfl
  obtain ⟨before, part, behind, he, hp, ht, hs⟩ := exists_of_mem_tokensFrom ho h
  have hsrc : src = String.ofList (before ++ part ++ behind) := by
    rw [← he, List.nil_append, String.ofList_toList]
  constructor
  · rw [hs, ht, hsrc]
    exact slice?_append before part behind
  · rw [ht]
    intro hn
    have hl := congrArg String.toList hn
    rw [String.toList_ofList] at hl
    exact hp hl

end Source

end LittleMan
