import LittleMan.Proofs.Assembly.SecondPass
import LittleMan.Proofs.Source.Splitting

/-! What becomes of a source text: the error of its leftmost fault, or the program that it stands
for. -/
namespace LittleMan

theorem ok_of_toOption {ε α : Type} {x : Except ε α} {a : α} (h : x.toOption = some a) :
    x = .ok a := by
  cases x with
  | error e => contradiction
  | ok b => exact congrArg Except.ok (Option.some.inj h)

namespace Assembly

open Source

variable {L : List Statement} {s : Statement} {e e' : Error} {p q : Program}

/-- The second pass encodes one line after the other, up to the first that it cannot encode. -/
theorem encodeAll_cases (symbols : SymbolTable) (ss : List Statement) :
    (∃ e, encodeAll symbols ss = .error e ∧ ∃ (i : Nat) (s : Statement),
      ss[i]? = some s ∧ encode symbols s = .error e ∧ ∀ k < i, ∀ s, ss[k]? = some s → ∃ w, encode symbols s = .ok w) ∨
    (∃ ws, encodeAll symbols ss = .ok ws ∧ ws.length = ss.length ∧
      ∀ (i : Nat) s w, ss[i]? = some s → ws[i]? = some w → encode symbols s = .ok w) := by
  induction ss with
  | nil =>
    refine .inr ⟨[], rfl, rfl, ?_⟩
    intro i s w hs
    simp at hs
  | cons t ts ih =>
    unfold encodeAll
    cases ht : encode symbols t with
    | error e =>
      refine .inl ⟨e, rfl, 0, t, rfl, ht, ?_⟩
      intro k hk
      omega
    | ok w =>
      rcases ih with ⟨e, ha, i, s, hs, he, hb⟩ | ⟨ws, ha, hl, hw⟩
      · refine .inl ⟨e, by rw [ha]; rfl, i + 1, s, hs, he, ?_⟩
        intro k hk s' hs'
        cases k with
        | zero =>
          rw [← Option.some.inj hs']
          exact ⟨w, ht⟩
        | succ k => exact hb k (by omega) s' hs'
      · refine .inr ⟨w :: ws, by rw [ha]; rfl, by simp [hl], ?_⟩
        intro i s' w' hs' hw'
        cases i with
        | zero =>
          rw [← Option.some.inj hs', ← Option.some.inj hw']
          exact ht
        | succ i => exact hw i s' w' hs' hw'

theorem encodeFault_line {i : Nat} (h : EncodeFault L i e) : ∃ s, L[i]? = some s := by
  cases h with
  | unknownMnemonic hs _ _ => exact ⟨_, hs⟩
  | undefinedLabel hs _ _ _ _ => exact ⟨_, hs⟩
  | addressOutOfRange hs _ _ _ _ => exact ⟨_, hs⟩

theorem EncodeFault.unique (hL : Distinct L) {i : Nat} (h : EncodeFault L i e)
    (h' : EncodeFault L i e') : e = e' := by
  obtain ⟨s, hs⟩ := encodeFault_line h
  have he := encode_of_encodeFault hL hs h
  rw [encode_of_encodeFault hL hs h'] at he
  exact (Except.error.inj he).symm

/-- Where a line can be encoded nothing is wrong with it. -/
theorem no_encodeFault (hL : Distinct L) {i : Nat}
    (h : ∀ s, L[i]? = some s → ∃ w, encode (tableOf L) s = .ok w) : ∀ e, ¬EncodeFault L i e := by
  intro e he
  obtain ⟨s, hs⟩ := encodeFault_line he
  obtain ⟨w, hw⟩ := h s hs
  rw [encode_of_encodeFault hL hs he] at hw
  contradiction

theorem encodeAll_tableOf (hL : Distinct L) :
    (∃ e, encodeAll (tableOf L) L = .error e ∧ Leftmost (EncodeFault L) e) ∨
    (∃ ws, encodeAll (tableOf L) L = .ok ws ∧ Clean (EncodeFault L) ∧ ws.length = L.length ∧
      ∀ (i : Nat) s w, L[i]? = some s → ws[i]? = some w → WordOf L s w) := by
  rcases encodeAll_cases (tableOf L) L with ⟨e, ha, i, s, hs, he, hb⟩ | ⟨ws, ha, hl, hw⟩
  · refine .inl ⟨e, ha, i, (encode_error_iff hL hs).mp he, ?_⟩
    exact fun k hk => no_encodeFault hL (hb k hk)
  · refine .inr ⟨ws, ha, ?_, hl, ?_⟩
    · intro i
      apply no_encodeFault hL
      intro s hs
      have hi : i < ws.length := by
        rw [hl]
        exact (List.getElem?_eq_some_iff.mp hs).1
      exact ⟨ws[i], hw i s _ hs (List.getElem?_eq_getElem hi)⟩
    · intro i s w hs hw'
      exact (encode_ok_iff hL hs).mp (hw i s w hs hw')

theorem Rejected.unique (h : Rejected L e) (h' : Rejected L e') : e = e' := by
  have hd : ∀ i e e', DraftFault L i e → DraftFault L i e' →
      (∀ k < i, ∀ e, ¬DraftFault L k e) → e = e' := fun i e e' => DraftFault.unique
  rcases h with h | ⟨hc, h⟩
  · rcases h' with h' | ⟨hc', h'⟩
    · exact h.unique hd h'
    · exact absurd hc' h.not_clean
  · rcases h' with h' | ⟨hc', h'⟩
    · exact absurd hc h'.not_clean
    · exact h.unique (fun i e e' he he' _ => he.unique (distinct_of_clean hc) he') h'

theorem Rejected.not_accepted (h : Rejected L e) : ¬Accepted L p := by
  intro hp
  rcases h with h | ⟨-, h⟩
  · exact h.not_clean hp.draft
  · exact h.not_clean hp.encode

theorem Accepted.unique (h : Accepted L p) (h' : Accepted L q) : p = q := by
  have hL := distinct_of_clean h.draft
  have hw : p.words = q.words := by
    apply List.ext_getElem
    · rw [h.length, h'.length]
    · intro i hi hi'
      have hl : i < L.length := by
        rw [← h.length]
        exact hi
      have hs : L[i]? = some L[i] := List.getElem?_eq_getElem hl
      have h₁ := encode_of_wordOf hL (h.word i _ _ hs (List.getElem?_eq_getElem hi))
      have h₂ := encode_of_wordOf hL (h'.word i _ _ hs (List.getElem?_eq_getElem hi'))
      rw [h₁] at h₂
      exact Except.ok.inj h₂
  have hs : p.symbols = q.symbols := congrArg SymbolTable.mk (h.symbols.trans h'.symbols.symm)
  have hx : p.spans = q.spans := h.spans.trans h'.spans.symm
  cases p
  cases q
  simp only at hw hs hx
  rw [hw, hs, hx]

theorem assemble_cases (src : String) :
    (∃ e, Program.assemble src = .error e ∧ Rejected (statements src) e) ∨
      ∃ p, Program.assemble src = .ok p ∧ Accepted (statements src) p := by
  unfold Program.assemble
  rcases draft_cases src with ⟨e, hd, he⟩ | ⟨hd, hc⟩
  · refine .inl ⟨e, ?_, .inl he⟩
    rw [hd]
    rfl
  · rw [hd]
    rcases encodeAll_tableOf (distinct_of_clean hc) with ⟨e, ha, he⟩ | ⟨ws, ha, he, hl, hw⟩
    · refine .inl ⟨e, ?_, .inr ⟨hc, he⟩⟩
      change (encodeAll (tableOf (statements src)) (statements src)).bind _ = _
      rw [ha]
      rfl
    · refine .inr ⟨⟨ws, tableOf (statements src), (statements src).map (·.span)⟩, ?_,
        ⟨hc, he, hl, hw, rfl, rfl⟩⟩
      change (encodeAll (tableOf (statements src)) (statements src)).bind _ = _
      rw [ha]
      rfl

theorem accepted_of_assemble {src : String} {p : Program} (h : Program.assemble src = .ok p) :
    Accepted (statements src) p := by
  rcases assemble_cases src with ⟨e, he, -⟩ | ⟨q, hq, ha⟩
  · rw [h] at he
    contradiction
  · rw [h] at hq
    rw [Except.ok.inj hq]
    exact ha

theorem rejected_of_assemble {src : String} (h : Program.assemble src = .error e) :
    Rejected (statements src) e := by
  rcases assemble_cases src with ⟨e', he, hr⟩ | ⟨p, hp, -⟩
  · rw [h] at he
    rw [Except.error.inj he]
    exact hr
  · rw [h] at hp
    contradiction

theorem assemble_of_accepted {src : String} (h : Accepted (statements src) p) :
    Program.assemble src = .ok p := by
  rcases assemble_cases src with ⟨e, -, he⟩ | ⟨q, hq, ha⟩
  · exact absurd h he.not_accepted
  · rw [hq, ha.unique h]

theorem assemble_of_rejected {src : String} (h : Rejected (statements src) e) :
    Program.assemble src = .error e := by
  rcases assemble_cases src with ⟨e', he, hr⟩ | ⟨p, -, hp⟩
  · rw [he, h.unique hr]
  · exact absurd hp h.not_accepted

/-- Lines in which the first pass finds nothing wrong are accepted if each of them stands for a
word. -/
theorem accepted_of_wordOf {ws : List Nat} (hc : Clean (DraftFault L)) (hl : ws.length = L.length)
    (hw : ∀ (i : Nat) s w, L[i]? = some s → ws[i]? = some w → WordOf L s w) :
    Accepted L ⟨ws, tableOf L, L.map (·.span)⟩ where
  draft := hc
  encode := by
    intro i
    apply no_encodeFault (distinct_of_clean hc)
    intro s hs
    have hi : i < ws.length := by
      rw [hl]
      exact (List.getElem?_eq_some_iff.mp hs).1
    have hword := hw i s ws[i] hs (List.getElem?_eq_getElem hi)
    exact ⟨ws[i], encode_of_wordOf (distinct_of_clean hc) hword⟩
  length := hl
  word := hw
  symbols := rfl
  spans := rfl

theorem Accepted.symbols_eq (h : Accepted L p) : p.symbols = tableOf L :=
  congrArg SymbolTable.mk h.symbols

/-- Each word of a program is what its line is encoded as. -/
theorem encode_of_accepted {i : Nat} (h : Accepted L p) (hs : L[i]? = some s) :
    ∃ w, p.words[i]? = some w ∧ encode p.symbols s = .ok w := by
  have hi : i < p.words.length := by
    rw [h.length]
    exact (List.getElem?_eq_some_iff.mp hs).1
  have hw : p.words[i]? = some p.words[i] := List.getElem?_eq_getElem hi
  refine ⟨_, hw, ?_⟩
  rw [h.symbols_eq]
  exact encode_of_wordOf (distinct_of_clean h.draft) (h.word i s _ hs hw)

/-- A text that is a single line without a label becomes the word of that line. -/
theorem assemble_single {src : String} (hs : statements src = [s]) (hl : s.label = none) :
    (Program.assemble src).map (·.words) = (encode .empty s).map ([·]) := by
  have hd : draft src = .ok ⟨[s], .empty⟩ := by
    rw [draft, hs, Draft.addAll, Draft.add, Draft.bind, hl]
    rfl
  rw [Program.assemble, hd]
  change ((encodeAll .empty [s]).bind _).map _ = _
  rw [encodeAll]
  cases encode .empty s <;> rfl

/-- A text is split into statements in one way. It is rejected with the leftmost fault that they
have in the first pass, or else in the second, and if there is none it is accepted as the program
that they stand for. What they are made of is read as it is written: mnemonics in letters of any
case, literals as the integers that they write, within 64 bits, and labels without one colon at the
end. -/
theorem assemble_outcome :
    (∀ src, ∃ L, (∀ L', SplitInto src L' ↔ L' = L) ∧
      (∀ e, Program.assemble src = .error e ↔ Rejected L e) ∧
      ∀ p, Program.assemble src = .ok p ↔ Accepted L p) ∧
    (∀ t m, Mnemonic.ofName? t = some m ↔ Mnemonic.SpelledBy t m) ∧
    (∀ t v, Decimal.literal? t = some v ↔
      ∃ n, Decimal.Writes t.toList n ∧
        v = max (-9223372036854775808) (min n 9223372036854775807)) ∧
    ∀ t name, stripColon t = name ↔ NameOf t name := by
  refine ⟨fun src => ⟨statements src, ?_, ?_, ?_⟩, ?_, ?_, ?_⟩
  · exact fun L' => splitInto_iff
  · exact fun e => ⟨rejected_of_assemble, assemble_of_rejected⟩
  · exact fun p => ⟨accepted_of_assemble, assemble_of_accepted⟩
  · exact fun t m => Mnemonic.ofName?_eq_some_iff
  · exact fun t v => Decimal.literal?_eq_some_iff_writes
  · exact fun t name => nameOf_iff.symm

end Assembly

end LittleMan
