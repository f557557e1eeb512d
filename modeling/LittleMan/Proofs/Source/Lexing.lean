import Mathlib.Data.List.Chain
import Mathlib.Data.List.Forall2
import LittleMan.Proofs.Source.Cleaning

/-! Texts put together from tokens: when they are taken apart into the same tokens again, and on
which line each of these begins. -/
namespace LittleMan.Source

namespace TokenKind

/-- Whether a token of the first kind would take in one of the second that follows it. -/
def runsInto : TokenKind → TokenKind → Bool
  | word, k => k == word
  | comment, k => k != newline
  | blank, k => k == blank
  | newline, _ => false

theorem extendsOver_eq (k : TokenKind) (c : Char) : k.extendsOver c = k.runsInto (ofFirst c) := by
  have hs : Text.isBlank ';' = false := by decide
  have hn : Text.isBlank '\n' = true := by decide
  unfold ofFirst
  by_cases hsc : c = ';'
  · subst hsc
    cases k <;> simp [extendsOver, runsInto, hs]
  by_cases hnc : c = '\n'
  · subst hnc
    cases k <;> simp [extendsOver, runsInto, hn]
  · have hne : (c != '\n') = true := bne_iff_ne.mpr hnc
    cases k <;> cases hb : Text.isBlank c <;> simp [extendsOver, runsInto, hsc, hnc, hne, hb]

end TokenKind

/-- A token that is all of its kind. -/
def Token.Whole (t : Token) : Prop :=
  ∃ c cs, t.text.toList = c :: cs ∧ TokenKind.ofFirst c = t.kind ∧
    ∀ a ∈ cs, t.kind.extendsOver a = true

/-- Tokens side by side, each of which ends before the next one. -/
def Apart (ts : List Token) : Prop := ts.IsChain fun t u => t.kind.runsInto u.kind = false

/-- The characters of tokens side by side. -/
def characters (ts : List Token) : List Char := ts.flatMap fun t => t.text.toList

/-- Whether tokens are apart only depends on their kinds. -/
theorem Apart.congr {ts us : List Token} (h : us.map (·.kind) = ts.map (·.kind)) (ha : Apart ts) :
    Apart us := by
  have hk : (ts.map (·.kind)).IsChain fun k k' => k.runsInto k' = false :=
    (List.isChain_map _).mpr ha
  rw [← h] at hk
  exact (List.isChain_map _).mp hk

theorem whole_firstToken (offset : Nat) (c : Char) (cs : List Char) :
    (firstToken offset c cs).Whole := by
  refine ⟨c, _, String.toList_ofList, rfl, ?_⟩
  exact fun a ha => List.mem_takeWhile_imp ha

theorem whole_of_mem_tokensFrom {offset : Nat} {cs : List Char} {t : Token}
    (h : t ∈ tokensFrom offset cs) : t.Whole := by
  induction offset, cs using tokens_induction with
  | nil offset =>
    rw [tokensFrom] at h
    contradiction
  | cons offset c cs ih =>
    rw [tokensFrom_cons] at h
    rcases List.mem_cons.mp h with rfl | h
    · exact whole_firstToken offset c cs
    · exact ih h

theorem apart_tokensFrom (offset : Nat) (cs : List Char) : Apart (tokensFrom offset cs) := by
  induction offset, cs using tokens_induction with
  | nil offset =>
    rw [tokensFrom]
    exact .nil
  | cons offset c cs ih =>
    rw [tokensFrom_cons]
    cases hb : behindFirst c cs with
    | nil =>
      rw [tokensFrom]
      exact .singleton _
    | cons b bs =>
      have he : (TokenKind.ofFirst c).extendsOver b = false :=
        head?_behindFirst (by rw [hb]; rfl)
      rw [TokenKind.extendsOver_eq] at he
      rw [hb, tokensFrom_cons] at ih
      rw [tokensFrom_cons]
      exact .cons_cons he ih

/-- Whole tokens apart from each other are the tokens of the text that they make up. -/
theorem tokensFrom_characters {ts : List Token} (hw : ∀ t ∈ ts, t.Whole) (ha : Apart ts)
    (offset : Nat) :
    List.Forall₂ (fun t u => u.kind = t.kind ∧ u.text = t.text) ts
      (tokensFrom offset (characters ts)) := by
  induction ts generalizing offset with
  | nil =>
    have hn : characters [] = [] := rfl
    rw [hn, tokensFrom]
    exact .nil
  | cons t ts ih =>
    obtain ⟨c, cs, ht, hk, hcs⟩ := hw t List.mem_cons_self
    have hts : ∀ u ∈ ts, u.Whole := fun u hu => hw u (List.mem_cons_of_mem t hu)
    have hl : characters (t :: ts) = c :: (cs ++ characters ts) := by
      rw [characters, List.flatMap_cons, ht]
      rfl
    -- the first token ends where the second begins, since it would not take that in
    have hnext : ∀ a ∈ (characters ts).head?, (TokenKind.ofFirst c).extendsOver a = false := by
      intro a h
      cases ts with
      | nil => contradiction
      | cons u us =>
        obtain ⟨b, bs, hu, hku, -⟩ := hts u List.mem_cons_self
        rw [characters, List.flatMap_cons, hu] at h
        obtain rfl := Option.some.inj h
        rw [TokenKind.extendsOver_eq, hku, hk]
        exact (List.isChain_cons_cons.mp ha).1
    rw [← hk] at hcs
    have hfirst : firstTaken c (cs ++ characters ts) = c :: cs := by
      rw [firstTaken, List.takeWhile_append_of_pos hcs]
      cases hr : characters ts with
      | nil => exact congrArg (c :: ·) (List.append_nil cs)
      | cons b bs =>
        rw [hr] at hnext
        rw [List.takeWhile_cons_of_neg (by simp [hnext b rfl]), List.append_nil]
    have hbehind : behindFirst c (cs ++ characters ts) = characters ts := by
      have h := firstTaken_append c (cs ++ characters ts)
      rw [hfirst] at h
      exact List.append_cancel_left h
    rw [hl, tokensFrom_cons, hbehind]
    refine .cons ⟨hk, ?_⟩ (ih hts (List.IsChain.of_cons ha) _)
    change String.ofList (firstTaken c (cs ++ characters ts)) = t.text
    rw [hfirst, ← ht, String.ofList_toList]

/-- The newlines among characters that start before the byte. -/
def newlinesBefore (offset : Nat) (l : List (Nat × Char)) : Nat :=
  l.countP fun a => a.1 < offset ∧ a.2 = '\n'

/-- How many lines end before the byte. -/
def lineNumber (src : String) (offset : Nat) : Nat := newlinesBefore offset (placed 0 src.toList)

theorem newlinesBefore_mono {i j : Nat} (h : i ≤ j) (l : List (Nat × Char)) :
    newlinesBefore i l ≤ newlinesBefore j l := by
  apply List.countP_mono_left
  intro a _ ha
  simp only [decide_eq_true_eq] at ha ⊢
  exact ⟨by omega, ha.2⟩

theorem lineNumber_min (src : String) (i j : Nat) :
    lineNumber src (min i j) = min (lineNumber src i) (lineNumber src j) := by
  rcases Nat.le_total i j with h | h
  · have hl : lineNumber src i ≤ lineNumber src j := newlinesBefore_mono h _
    rw [Nat.min_eq_left h, Nat.min_eq_left hl]
  · have hl : lineNumber src j ≤ lineNumber src i := newlinesBefore_mono h _
    rw [Nat.min_eq_right h, Nat.min_eq_right hl]

theorem mem_placed_range {offset : Nat} {cs : List Char} {a : Nat × Char}
    (h : a ∈ placed offset cs) : offset ≤ a.1 ∧ a.1 < offset + Text.byteLength cs := by
  induction cs generalizing offset with
  | nil => contradiction
  | cons c cs ih =>
    have hc : 0 < c.utf8Size := c.utf8Size_pos
    rw [Text.byteLength_cons]
    rcases List.mem_cons.mp h with rfl | h
    · dsimp only
      omega
    · have := ih h
      omega

/-- A token holds a newline if that is what it is. -/
theorem newlinesBefore_firstTaken {offset stop : Nat} {c : Char} {cs : List Char}
    (h : offset + Text.byteLength (firstTaken c cs) ≤ stop) :
    newlinesBefore stop (placed offset (firstTaken c cs)) =
      if TokenKind.ofFirst c = .newline then 1 else 0 := by
  have hall : newlinesBefore stop (placed offset (firstTaken c cs)) =
      (firstTaken c cs).countP (· = '\n') := by
    rw [← map_snd_placed offset (firstTaken c cs), List.countP_map, newlinesBefore, map_snd_placed]
    apply List.countP_congr
    intro a ha
    have hr := mem_placed_range ha
    simp only [decide_eq_true_eq, Function.comp_apply]
    exact ⟨And.right, fun hn => ⟨by omega, hn⟩⟩
  rw [hall]
  by_cases hk : TokenKind.ofFirst c = .newline
  · obtain rfl : c = '\n' := TokenKind.startsWith_of_ofFirst hk
    rw [if_pos hk, firstTaken_newline]
    rfl
  · rw [if_neg hk, List.countP_eq_zero]
    intro a ha
    rw [decide_eq_true_eq]
    rintro rfl
    rcases mem_firstTaken ha with rfl | he
    · exact hk (by decide)
    · rw [TokenKind.extendsOver_eq] at he
      have hn : TokenKind.ofFirst '\n' = .newline := by decide
      rw [hn] at he
      cases hc : TokenKind.ofFirst c <;> rw [hc] at he <;> contradiction

theorem le_offset_of_mem_tokensFrom {offset : Nat} {cs : List Char} {t : Token}
    (h : t ∈ tokensFrom offset cs) : offset ≤ t.span.offset := by
  induction offset, cs using tokens_induction with
  | nil offset =>
    rw [tokensFrom] at h
    contradiction
  | cons offset c cs ih =>
    rw [tokensFrom_cons] at h
    rcases List.mem_cons.mp h with rfl | h
    · exact Nat.le_refl offset
    · exact Nat.le_trans (Nat.le_add_right _ _) (ih h)

/-- The lines that end before a token are the newlines among the tokens in front of it. -/
theorem newlinesBefore_token {offset i : Nat} {cs : List Char} {t : Token}
    (h : (tokensFrom offset cs)[i]? = some t) :
    newlinesBefore t.span.offset (placed offset cs) =
      ((tokensFrom offset cs).take i).countP (·.kind = .newline) := by
  induction offset, cs using tokens_induction generalizing i with
  | nil offset =>
    rw [tokensFrom] at h
    contradiction
  | cons offset c cs ih =>
    have hp := placed_append offset (firstTaken c cs) (behindFirst c cs)
    rw [firstTaken_append] at hp
    rw [tokensFrom_cons] at h ⊢
    cases i with
    | zero =>
      obtain rfl := Option.some.inj h
      rw [newlinesBefore, List.take_zero, List.countP_nil, List.countP_eq_zero]
      intro a ha
      have hr := mem_placed_range ha
      simp only [decide_eq_true_eq, not_and]
      intro hlt
      exact absurd hr.1 (Nat.not_le_of_lt hlt)
    | succ i =>
      have ht : t ∈ tokensFrom (offset + Text.byteLength (firstTaken c cs)) (behindFirst c cs) :=
        List.mem_of_getElem? h
      have hstop := le_offset_of_mem_tokensFrom ht
      have hn := ih h
      rw [newlinesBefore] at hn ⊢
      rw [hp, List.countP_append, hn, List.take_succ_cons, List.countP_cons]
      have hf := newlinesBefore_firstTaken hstop
      rw [newlinesBefore] at hf
      rw [hf]
      have hkind : (firstToken offset c cs).kind = TokenKind.ofFirst c := rfl
      simp only [hkind, decide_eq_true_eq]
      omega

/-- Places on the same line of two texts. -/
def SameLine (src src' : String) (a b : Span) : Prop :=
  lineNumber src a.offset = lineNumber src' b.offset

theorem SameLine.join {src src' : String} {a a' b b' : Span} (ha : SameLine src src' a a')
    (hb : SameLine src src' b b') : SameLine src src' (a.join b) (a'.join b') := by
  unfold SameLine Span.join at *
  rw [lineNumber_min, lineNumber_min, ha, hb]

/-- Tokens of the same kinds are on the same lines. -/
theorem sameLine_of_kinds {src src' : String} {i : Nat} {t u : Token}
    (h : (tokens src).map (·.kind) = (tokens src').map (·.kind))
    (ht : (tokens src)[i]? = some t) (hu : (tokens src')[i]? = some u) :
    SameLine src src' t.span u.span := by
  have hcount : ∀ ts : List Token, (ts.take i).countP (·.kind = .newline) =
      ((ts.map (·.kind)).take i).countP (· = .newline) := by
    intro ts
    rw [← List.map_take, List.countP_map]
    rfl
  have hl : lineNumber src t.span.offset = _ := newlinesBefore_token ht
  have hr : lineNumber src' u.span.offset = _ := newlinesBefore_token hu
  rw [SameLine, hl, hr]
  exact (hcount _).trans ((congrArg _ (congrArg _ h)).trans (hcount _).symm)

section

variable {R : Lexeme → Lexeme → Prop}

theorem rel_consFirst {a b : Lexeme} {rows rows' : List (List Lexeme)} (h : R a b)
    (hrows : List.Forall₂ (List.Forall₂ R) rows rows') :
    List.Forall₂ (List.Forall₂ R) (Text.consFirst a rows) (Text.consFirst b rows') := by
  cases hrows with
  | nil => exact .cons (.cons h .nil) .nil
  | cons hrow hrows => exact .cons (.cons h hrow) hrows

/-- Tokens that go together one by one make up rows that do. -/
theorem rel_wordRows {ts us : List Token}
    (h : List.Forall₂ (fun t u => u.kind = t.kind ∧ R t.toLexeme u.toLexeme) ts us) :
    List.Forall₂ (List.Forall₂ R) (wordRows ts) (wordRows us) := by
  induction h with
  | nil => exact .cons .nil .nil
  | @cons t u ts us hr _ ih =>
    rw [wordRows, wordRows, hr.1]
    cases t.kind with
    | newline => exact .cons .nil ih
    | word => exact rel_consFirst hr.2 ih
    | comment | blank => exact ih

end

end LittleMan.Source
