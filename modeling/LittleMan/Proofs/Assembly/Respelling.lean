import Mathlib.Data.List.Forall2
import Mathlib.Data.Option.Basic
import LittleMan.Proofs.Assembly.Outcome

/-! Lines of code that differ in how their labels are spelled and in where they stand: they mean the
same, or the same is wrong with them. -/
namespace LittleMan

namespace Assembly

open Source

/-- How names are spelled anew, in labels and in operands. -/
structure Respelling where
  label : String → String
  operand : String → String

/-- The same word, spelled anew, at a place that goes with the old one. -/
def Respelled (spell : String → String) (place : Span → Span → Prop) (a b : Lexeme) : Prop :=
  b.text = spell a.text ∧ place a.span b.span

/-- The same statement, spelled anew, at places that go with the old ones. -/
structure Alike (f : Respelling) (place : Span → Span → Prop) (s t : Statement) : Prop where
  label : Option.Rel (Respelled f.label place) s.label t.label
  mnemonic : Option.Rel (Respelled id place) s.mnemonic t.mnemonic
  operand : Option.Rel (Respelled f.operand place) s.operand t.operand
  span : place s.span t.span

/-- The same fault, with names spelled anew, at places that go with the old ones. -/
inductive AlikeError (f : Respelling) (place : Span → Span → Prop) : Error → Error → Prop
  | duplicateLabel {name : String} {a b a' b' : Span} (ha : place a a') (hb : place b b') :
      AlikeError f place (.duplicateLabel name (some a) b)
        (.duplicateLabel (f.label name) (some a') b')
  | programTooLong {a a' : Span} (ha : place a a') :
      AlikeError f place (.programTooLong a) (.programTooLong a')
  | unknownMnemonic {word : String} {a a' : Span} (ha : place a a') :
      AlikeError f place (.unknownMnemonic word a) (.unknownMnemonic word a')
  | addressOutOfRange {v : Int} {a a' : Span} (ha : place a a') :
      AlikeError f place (.addressOutOfRange v a) (.addressOutOfRange v a')
  | undefinedLabel {name : String} {a a' : Span} (ha : place a a') :
      AlikeError f place (.undefinedLabel name a) (.undefinedLabel (f.operand name) a')

/-- The names in a statement: its label, and its operand unless that is a literal. -/
def namesOf (s : Statement) : List String :=
  (s.label.map (·.text)).toList ++
    ((s.operand.map (·.text)).filter (Decimal.literal? · = none)).toList.map stripColon

/-- A respelling that lets operands name what they have named before. -/
structure Respelling.Keeps (f : Respelling) (L : List Statement) : Prop where
  literal : ∀ s ∈ L, ∀ o ∈ s.operand, Decimal.literal? (f.operand o.text) = Decimal.literal? o.text
  name : ∀ s ∈ L, ∀ o ∈ s.operand, Decimal.literal? o.text = none →
    stripColon (f.operand o.text) = f.label (stripColon o.text)
  injective : ∀ a ∈ L.flatMap namesOf, ∀ b ∈ L.flatMap namesOf, f.label a = f.label b → a = b

section

variable {α β : Type} {R : α → β → Prop} {l : List α} {l' : List β}

theorem rel_getElem? (h : List.Forall₂ R l l') (i : Nat) : Option.Rel R l[i]? l'[i]? := by
  induction h generalizing i with
  | nil => exact .none
  | cons hab _ ih =>
    cases i with
    | zero => exact .some hab
    | succ i => exact ih i

theorem eq_none_of_rel {o : Option α} {o' : Option β} (h : Option.Rel R o o') (ho : o = none) :
    o' = none := by
  cases h with
  | none => rfl
  | some _ => contradiction

theorem rel_bind {γ δ : Type} {S : γ → δ → Prop} {g : α → Option γ} {g' : β → Option δ}
    {o : Option α} {o' : Option β} (h : Option.Rel R o o')
    (hg : ∀ a b, R a b → Option.Rel S (g a) (g' b)) : Option.Rel S (o.bind g) (o'.bind g') := by
  cases h with
  | none => exact .none
  | some hab => exact hg _ _ hab

theorem exists_of_rel_left {o : Option α} {o' : Option β} {a : α} (h : Option.Rel R o o')
    (ha : o = some a) : ∃ b, o' = some b ∧ R a b := by
  cases h with
  | none => contradiction
  | some hab =>
    obtain rfl := Option.some.inj ha
    exact ⟨_, rfl, hab⟩

theorem exists_of_rel_right {o : Option α} {o' : Option β} {b : β} (h : Option.Rel R o o')
    (hb : o' = some b) : ∃ a, o = some a ∧ R a b := by
  cases h with
  | none => contradiction
  | some hab =>
    obtain rfl := Option.some.inj hb
    exact ⟨_, rfl, hab⟩

end

section

variable {fault fault' : Nat → Error → Prop} {related : Error → Error → Prop}

theorem Clean.transfer (h : Clean fault) (hback : ∀ i e', fault' i e' → ∃ e, fault i e) :
    Clean fault' := by
  intro i e' he'
  obtain ⟨e, he⟩ := hback i e' he'
  exact h i e he

theorem Leftmost.transfer {e : Error} (h : Leftmost fault e)
    (hforth : ∀ i e, fault i e → ∃ e', fault' i e' ∧ related e e')
    (hback : ∀ i e', fault' i e' → ∃ e, fault i e) : ∃ e', Leftmost fault' e' ∧ related e e' := by
  obtain ⟨i, hi, hb⟩ := h
  obtain ⟨e', he', hr⟩ := hforth i e hi
  refine ⟨e', ⟨i, he', ?_⟩, hr⟩
  intro k hk d' hd'
  obtain ⟨d, hd⟩ := hback k d' hd'
  exact hb k hk d hd

end

variable {f : Respelling} {place : Span → Span → Prop} {L L' : List Statement} {s s' : Statement}
variable {i : Nat} {a b a' b' : Lexeme} {e e' : Error}

theorem mem_names_of_label (h : labelAt L i = some a) : a.text ∈ L.flatMap namesOf := by
  obtain ⟨s, hs, ha⟩ := Option.bind_eq_some_iff.mp h
  refine List.mem_flatMap.mpr ⟨s, List.mem_of_getElem? hs, List.mem_append_left _ ?_⟩
  rw [ha]
  exact List.mem_cons_self

theorem mem_names_of_operand (hs : s ∈ L) (ho : s.operand = some a)
    (hl : Decimal.literal? a.text = none) : stripColon a.text ∈ L.flatMap namesOf := by
  refine List.mem_flatMap.mpr ⟨s, hs, List.mem_append_right _ ?_⟩
  refine List.mem_map.mpr ⟨a.text, ?_, rfl⟩
  rw [ho, Option.map_some, Option.mem_toList, Option.filter_eq_some_iff]
  exact ⟨rfl, decide_eq_true hl⟩

theorem rel_labelAt (hL : List.Forall₂ (Alike f place) L L') (i : Nat) :
    Option.Rel (Respelled f.label place) (labelAt L i) (labelAt L' i) :=
  rel_bind (rel_getElem? hL i) fun _ _ h => h.label

theorem Repeats.respelled (hL : List.Forall₂ (Alike f place) L L') (h : Repeats L i a b) :
    ∃ a' b', Repeats L' i a' b' ∧ Respelled f.label place a a' ∧ Respelled f.label place b b' := by
  obtain ⟨j, hj, hb⟩ := h.earlier
  obtain ⟨a', ha', hra⟩ := exists_of_rel_left (rel_labelAt hL i) h.here
  obtain ⟨b', hb', hrb⟩ := exists_of_rel_left (rel_labelAt hL j) hb
  refine ⟨a', b', ⟨ha', ⟨j, hj, hb'⟩, ?_⟩, hra, hrb⟩
  rw [hra.1, hrb.1, h.text]

/-- Labels that are the same now have been the same before. -/
theorem Repeats.of_respelled (hL : List.Forall₂ (Alike f place) L L') (hf : f.Keeps L)
    (h : Repeats L' i a' b') : ∃ a b, Repeats L i a b := by
  obtain ⟨j, hj, hb'⟩ := h.earlier
  obtain ⟨a, ha, hra⟩ := exists_of_rel_right (rel_labelAt hL i) h.here
  obtain ⟨b, hb, hrb⟩ := exists_of_rel_right (rel_labelAt hL j) hb'
  have he : f.label b.text = f.label a.text := by rw [← hra.1, ← hrb.1, h.text]
  have hab := hf.injective _ (mem_names_of_label hb) _ (mem_names_of_label ha) he
  exact ⟨a, b, ha, ⟨j, hj, hb⟩, hab⟩

theorem DraftFault.respelled (hL : List.Forall₂ (Alike f place) L L') (hf : f.Keeps L)
    (h : DraftFault L i e) : ∃ e', DraftFault L' i e' ∧ AlikeError f place e e' := by
  cases h with
  | duplicateLabel h =>
    obtain ⟨a', b', h', ha, hb⟩ := h.respelled hL
    refine ⟨_, .duplicateLabel h', ?_⟩
    rw [ha.1]
    exact .duplicateLabel hb.2 ha.2
  | programTooLong hs hi hn =>
    obtain ⟨s', hs', hr⟩ := exists_of_rel_left (rel_getElem? hL i) hs
    refine ⟨_, .programTooLong hs' hi ?_, .programTooLong hr.span⟩
    intro a' b' h'
    obtain ⟨a, b, h⟩ := h'.of_respelled hL hf
    exact hn a b h

theorem DraftFault.of_respelled (hL : List.Forall₂ (Alike f place) L L') (hf : f.Keeps L)
    (h : DraftFault L' i e') : ∃ e, DraftFault L i e := by
  cases h with
  | duplicateLabel h =>
    obtain ⟨a, b, h⟩ := h.of_respelled hL hf
    exact ⟨_, .duplicateLabel h⟩
  | programTooLong hs hi hn =>
    obtain ⟨s, hs, -⟩ := exists_of_rel_right (rel_getElem? hL i) hs
    refine ⟨_, .programTooLong hs hi ?_⟩
    intro a b h
    obtain ⟨a', b', h', -⟩ := h.respelled hL
    exact hn a' b' h'

/-- An operand keeps its value. -/
theorem OperandValue.respelled (hL : List.Forall₂ (Alike f place) L L') (hf : f.Keeps L)
    (hs : s ∈ L) (hr : Alike f place s s') {v : Int} (h : OperandValue L s.operand v) :
    OperandValue L' s'.operand v := by
  cases ho : s.operand with
  | none =>
    rw [ho] at h
    rw [eq_none_of_rel hr.operand ho]
    cases h
    exact .missing
  | some o =>
    obtain ⟨o', ho', hro⟩ := exists_of_rel_left hr.operand ho
    have hlit := hf.literal s hs o ho
    rw [← hro.1] at hlit
    rw [ho] at h
    rw [ho']
    cases h with
    | literal hl =>
      rw [← hlit] at hl
      exact .literal hl
    | label hl hd he =>
      obtain ⟨d', hd', hrd⟩ := exists_of_rel_left (rel_labelAt hL _) hd
      refine .label (hlit.trans hl) hd' ?_
      rw [hrd.1, hro.1, hf.name s hs o ho hl, he]

theorem UndefinedOperand.respelled (hL : List.Forall₂ (Alike f place) L L') (hf : f.Keeps L)
    (hs : s ∈ L) (ho : s.operand = some a) (hr : Respelled f.operand place a a')
    (h : UndefinedOperand L a) : UndefinedOperand L' a' where
  literal := by
    rw [hr.1, hf.literal s hs a ho]
    exact h.literal
  label := by
    intro j d' hd' he'
    obtain ⟨d, hd, hrd⟩ := exists_of_rel_right (rel_labelAt hL j) hd'
    rw [hrd.1, hr.1, hf.name s hs a ho h.literal] at he'
    have he := hf.injective _ (mem_names_of_label hd) _ (mem_names_of_operand hs ho h.literal) he'
    exact h.label j d hd he

theorem Names.respelled {word : Lexeme} {m : Mnemonic} (hr : Alike f place s s')
    (h : Names s word m) : ∃ word', Names s' word' m ∧ place word.span word'.span := by
  obtain ⟨word', hw', hrw⟩ := exists_of_rel_left hr.mnemonic h.1
  refine ⟨word', ⟨hw', ?_⟩, hrw.2⟩
  rw [hrw.1]
  exact h.2

/-- A line keeps the word that it stands for. -/
theorem WordOf.respelled (hL : List.Forall₂ (Alike f place) L L') (hf : f.Keeps L) (hs : s ∈ L)
    (hr : Alike f place s s') {w : Nat} (h : WordOf L s w) : WordOf L' s' w := by
  cases h with
  | labelOnly hm => exact .labelOnly (eq_none_of_rel hr.mnemonic hm)
  | data hn hv =>
    obtain ⟨word', hn', -⟩ := hn.respelled hr
    exact .data hn' (hv.respelled hL hf hs hr)
  | address hn hb hv ha =>
    obtain ⟨word', hn', -⟩ := hn.respelled hr
    exact .address hn' hb (hv.respelled hL hf hs hr) ha
  | input hn =>
    obtain ⟨word', hn', -⟩ := hn.respelled hr
    exact .input hn'
  | output hn =>
    obtain ⟨word', hn', -⟩ := hn.respelled hr
    exact .output hn'
  | halt hn =>
    obtain ⟨word', hn', -⟩ := hn.respelled hr
    exact .halt hn'

theorem EncodeFault.respelled (hL : List.Forall₂ (Alike f place) L L') (hf : f.Keeps L)
    (h : EncodeFault L i e) : ∃ e', EncodeFault L' i e' ∧ AlikeError f place e e' := by
  cases h with
  | unknownMnemonic hs hw hn =>
    obtain ⟨s', hs', hr⟩ := exists_of_rel_left (rel_getElem? hL i) hs
    obtain ⟨word', hw', hrw⟩ := exists_of_rel_left hr.mnemonic hw
    have ht : word'.text = _ := hrw.1
    refine ⟨_, .unknownMnemonic hs' hw' (by rw [ht]; exact hn), ?_⟩
    rw [ht]
    exact .unknownMnemonic hrw.2
  | undefinedLabel hs hn hm ho hu =>
    obtain ⟨s', hs', hr⟩ := exists_of_rel_left (rel_getElem? hL i) hs
    obtain ⟨word', hn', -⟩ := hn.respelled hr
    obtain ⟨o', ho', hro⟩ := exists_of_rel_left hr.operand ho
    have hu' := hu.respelled hL hf (List.mem_of_getElem? hs) ho hro
    refine ⟨_, .undefinedLabel hs' hn' hm ho' hu', ?_⟩
    rw [hro.1]
    exact .undefinedLabel hro.2
  | @addressOutOfRange s word _ _ hs hn hm hv hr =>
    obtain ⟨s', hs', hrs⟩ := exists_of_rel_left (rel_getElem? hL i) hs
    obtain ⟨word', hn', hw⟩ := hn.respelled hrs
    have hv' := hv.respelled hL hf (List.mem_of_getElem? hs) hrs
    refine ⟨_, .addressOutOfRange hs' hn' hm hv' hr, .addressOutOfRange ?_⟩
    cases ho : s.operand with
    | none =>
      rw [eq_none_of_rel hrs.operand ho]
      exact hw
    | some o =>
      obtain ⟨o', ho', hro⟩ := exists_of_rel_left hrs.operand ho
      rw [ho']
      exact hro.2

/-- A line that is wrong now has been wrong before: otherwise it would have kept its word. -/
theorem EncodeFault.of_respelled (hL : List.Forall₂ (Alike f place) L L') (hf : f.Keeps L)
    (hd : Distinct L) (hd' : Distinct L') (h : EncodeFault L' i e') : ∃ e, EncodeFault L i e := by
  obtain ⟨s', hs'⟩ := encodeFault_line h
  obtain ⟨s, hs, hr⟩ := exists_of_rel_right (rel_getElem? hL i) hs'
  rcases encode_cases hd hs with ⟨w, hw⟩ | he
  · have hw' := encode_of_wordOf hd' (hw.respelled hL hf (List.mem_of_getElem? hs) hr)
    rw [encode_of_encodeFault hd' hs' h] at hw'
    contradiction
  · exact he

theorem zipIdx_respelled (hL : List.Forall₂ (Alike f place) L L') (k : Nat) :
    (L'.zipIdx k).filterMap (fun p => p.1.label.map fun label => (label.text, p.2)) =
      ((L.zipIdx k).filterMap fun p => p.1.label.map fun label => (label.text, p.2)).map
        fun d => (f.label d.1, d.2) := by
  induction hL generalizing k with
  | nil => rfl
  | @cons s s' L L' hr _ ih =>
    rw [List.zipIdx_cons, List.zipIdx_cons, List.filterMap_cons, List.filterMap_cons, ih]
    cases hs : s.label with
    | none =>
      rw [eq_none_of_rel hr.label hs]
      rfl
    | some label =>
      obtain ⟨label', hs', ht⟩ := exists_of_rel_left hr.label hs
      rw [hs']
      dsimp only [Option.map_some]
      rw [List.map_cons, ht.1]

theorem definitions_respelled (hL : List.Forall₂ (Alike f place) L L') :
    definitions L' = (definitions L).map fun d => (f.label d.1, d.2) :=
  zipIdx_respelled hL 0

/-- What becomes of two texts: two programs or two errors that go together. -/
def Agree (errors : Error → Error → Prop) (programs : Program → Program → Prop) :
    Except Error Program → Except Error Program → Prop
  | .error e, .error e' => errors e e'
  | .ok p, .ok p' => programs p p'
  | _, _ => False

theorem Rejected.respelled (hL : List.Forall₂ (Alike f place) L L') (hf : f.Keeps L)
    (h : Rejected L e) : ∃ e', Rejected L' e' ∧ AlikeError f place e e' := by
  have hdraft : ∀ i e', DraftFault L' i e' → ∃ e, DraftFault L i e :=
    fun i e' h => h.of_respelled hL hf
  rcases h with h | ⟨hc, h⟩
  · obtain ⟨e', he', hr⟩ := h.transfer (fun i e h => h.respelled hL hf) hdraft
    exact ⟨e', .inl he', hr⟩
  · have hc' : Clean (DraftFault L') := hc.transfer hdraft
    have hencode : ∀ i e', EncodeFault L' i e' → ∃ e, EncodeFault L i e :=
      fun i e' h => h.of_respelled hL hf (distinct_of_clean hc) (distinct_of_clean hc')
    obtain ⟨e', he', hr⟩ := h.transfer (fun i e h => h.respelled hL hf) hencode
    exact ⟨e', .inr ⟨hc', he'⟩, hr⟩

theorem Accepted.respelled (hL : List.Forall₂ (Alike f place) L L') (hf : f.Keeps L) {p : Program}
    (h : Accepted L p) : ∃ p', Accepted L' p' ∧ p'.words = p.words ∧
      p'.symbols.entries = p.symbols.entries.map fun d => (f.label d.1, d.2) := by
  have hc : Clean (DraftFault L') := h.draft.transfer fun i e' h => h.of_respelled hL hf
  have hlen : p.words.length = L'.length := by
    rw [h.length]
    exact hL.length_eq
  refine ⟨⟨p.words, tableOf L', L'.map (·.span)⟩, accepted_of_wordOf hc hlen ?_, rfl, ?_⟩
  · intro i s' w hs' hw
    obtain ⟨s, hs, hr⟩ := exists_of_rel_right (rel_getElem? hL i) hs'
    exact (h.word i s w hs hw).respelled hL hf (List.mem_of_getElem? hs) hr
  · rw [h.symbols]
    exact definitions_respelled hL

/-- Texts with statements alike are assembled into the same words, with the labels spelled anew, or
rejected with errors alike. -/
theorem agree_of_alike {src src' : String}
    (hL : List.Forall₂ (Alike f place) (statements src) (statements src'))
    (hf : f.Keeps (statements src)) :
    Agree (AlikeError f place)
      (fun p p' => p'.words = p.words ∧
        p'.symbols.entries = p.symbols.entries.map fun d => (f.label d.1, d.2))
      (Program.assemble src) (Program.assemble src') := by
  rcases assemble_cases src with ⟨e, he, hr⟩ | ⟨p, hp, ha⟩
  · obtain ⟨e', hr', h⟩ := hr.respelled hL hf
    rcases assemble_cases src' with ⟨d, hd, hrd⟩ | ⟨q, -, hq⟩
    · rw [he, hd, hrd.unique hr']
      exact h
    · exact absurd hq hr'.not_accepted
  · obtain ⟨p', ha', h⟩ := ha.respelled hL hf
    rw [hp, assemble_of_accepted ha']
    exact h

end Assembly

end LittleMan
