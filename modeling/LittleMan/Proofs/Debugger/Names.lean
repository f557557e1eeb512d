import LittleMan.Proofs.Assembly.Outcome
import LittleMan.Proofs.Debugger.Places
import LittleMan.Proofs.Source.Statements

/-! Places by name: the debugger finds the place whose address the assembler would put into an
instruction for the same word, and refuses the words that the assembler would refuse. -/
namespace LittleMan

/-- A word that ends in two colons is no matter, because neither way of reading it names a label. -/
def SymbolTable.Undoubled (t : SymbolTable) (w : String) : Prop :=
  ∀ u, w = u ++ ":" ++ ":" → t.find? (u ++ ":") = none ∧ t.find? u = none

/-- So do all words that have a single colon at the end, or none. -/
theorem SymbolTable.Undoubled.of_stripColon {t : SymbolTable} {w : String}
    (h : Source.stripColon (Source.stripColon w) = Source.stripColon w) : t.Undoubled w := by
  rintro u rfl
  rw [Source.stripColon_append, Source.stripColon_append] at h
  have hl := congrArg String.length h
  rw [String.length_append] at hl
  have hc : ":".length = 1 := rfl
  omega

namespace Assembly

open Source

variable {st : Statement} {word operand : Lexeme} {m : Mnemonic} {a : Nat}

/-- The address that a word means as an operand. -/
def operandAddress? (symbols : SymbolTable) (w : String) : Option Nat :=
  match Decimal.literal? w with
  | some v => if 0 ≤ v ∧ v ≤ 99 then some v.toNat else none
  | none => (symbols.get? w).filter (· ≤ 99)

/-- An instruction that takes an address is its base and the address, or it is rejected. -/
theorem encode_of_address (symbols : SymbolTable) (h : Names st word m) (hm : m.takesAddress)
    (ho : st.operand = some operand) :
    (∃ a, operandAddress? symbols operand.text = some a ∧ encode symbols st = .ok (m.base + a)) ∨
      (operandAddress? symbols operand.text = none ∧ ∃ e, encode symbols st = .error e) := by
  rw [encode_of_names h, encodeAs_address _ _ _ hm, ho]
  unfold operandAddress? operandValue
  dsimp only
  cases Decimal.literal? operand.text with
  | some v =>
    by_cases hv : 0 ≤ v ∧ v ≤ 99
    · exact .inl ⟨v.toNat, if_pos hv, if_pos hv⟩
    · exact .inr ⟨if_neg hv, _, if_neg hv⟩
  | none =>
    cases symbols.get? operand.text with
    | none => exact .inr ⟨rfl, _, rfl⟩
    | some j =>
      by_cases hj : j ≤ 99
      · refine .inl ⟨j, ?_, ?_⟩
        · simp [Option.filter, hj]
        · exact if_pos ⟨Int.natCast_nonneg j, by omega⟩
      · refine .inr ⟨?_, _, if_neg (by omega)⟩
        simp [Option.filter, hj]

/-- The table of an accepted text has each label at its line. -/
theorem Accepted.find?_symbols {L : List Statement} {p : Program} (h : Accepted L p)
    {name : String} :
    p.symbols.find? name = some a ↔ ∃ label, labelAt L a = some label ∧ label.text = name := by
  rw [h.symbols_eq]
  exact find?_tableOf (distinct_of_clean h.draft)

theorem Accepted.address_le {L : List Statement} {p : Program} (h : Accepted L p) {name : String}
    (ha : p.symbols.find? name = some a) : a ≤ 99 := by
  obtain ⟨label, hl, -⟩ := h.find?_symbols.mp ha
  have hlt := lt_length_of_labelAt hl
  have hle := length_le_of_clean h.draft
  omega

end Assembly

namespace Debugger

open Source Assembly

variable {s : Session} {k : PlaceCommand} {w line : String}

theorem readArgument_location (w : String) :
    (readArgument "location" Argument.location w).toOption =
      match Decimal.literal? w with
      | some v => if 0 ≤ v ∧ v ≤ 99 then some (.address v.toNat) else none
      | none => if stripColon w = "" then none else some (.label (stripColon w)) := by
  unfold readArgument Argument.ofWord
  cases Decimal.literal? w with
  | some v =>
    have hm : (memorySize : Int) = 100 := rfl
    dsimp only [Argument.location]
    by_cases hv : 0 ≤ v ∧ v ≤ 99
    · have hv' : 0 ≤ v ∧ v < memorySize := by omega
      rw [if_pos hv, if_pos hv']
      rfl
    · have hv' : ¬(0 ≤ v ∧ v < memorySize) := by omega
      rw [if_neg hv, if_neg hv']
      rfl
  | none =>
    dsimp only
    by_cases hn : stripColon w = ""
    · rw [if_pos hn, if_pos hn]
      rfl
    · rw [if_neg hn, if_neg hn]
      rfl

theorem ofWords_suffix {ws rest : List String} {n : CommandName}
    (h : CommandName.ofWords ws = .ok (n, rest)) : rest <:+ ws := by
  cases ws with
  | nil => contradiction
  | cons w ws =>
    unfold CommandName.ofWords at h
    dsimp only at h
    split at h
    · obtain ⟨-, rfl⟩ := Prod.mk.inj (Except.ok.inj h)
      exact List.suffix_cons w ws
    · split at h
      · cases ws with
        | nil => contradiction
        | cons sub ws =>
          dsimp only at h
          split at h
          · obtain ⟨-, rfl⟩ := Prod.mk.inj (Except.ok.inj h)
            exact (List.suffix_cons sub ws).trans (List.suffix_cons w _)
          · contradiction
      · contradiction

theorem ne_empty_of_mem_words (h : w ∈ Text.words line) : w ≠ "" := by
  obtain ⟨cs, hcs, rfl⟩ := List.mem_map.mp h
  have hne : cs ≠ [] := by simpa using (List.mem_filter.mp hcs).2
  intro he
  have hl := congrArg String.toList he
  rw [String.toList_ofList] at hl
  exact hne hl

theorem PlaceCommand.Asks.ne_empty (h : k.Asks w line) : w ≠ "" := by
  obtain ⟨ws, hw, -⟩ := h.words
  exact ne_empty_of_mem_words ((ofWords_suffix hw).subset List.mem_cons_self)

/-- But for a colon alone and doubled colons, the debugger reads a word as an operand is read. -/
theorem Session.wordAddress?_eq (hs : ∀ name a, s.program.symbols.find? name = some a → a ≤ 99)
    (he : w ≠ "") (hc : w ≠ ":") (hd : s.program.symbols.Undoubled w) :
    s.wordAddress? w = operandAddress? s.program.symbols w := by
  unfold wordAddress? operandAddress?
  rw [readArgument_location]
  cases Decimal.literal? w with
  | some v =>
    dsimp only
    split <;> rfl
  | none =>
    have hn : stripColon w ≠ "" := by
      intro hn
      rcases stripColon_cases w with h | h
      · exact he (h ▸ hn)
      · rw [hn] at h
        exact hc h
    have hf : (s.program.symbols.get? w).filter (· ≤ 99) = s.program.symbols.get? w := by
      cases hg : s.program.symbols.get? w with
      | none => rfl
      | some a =>
        have ha : a ≤ 99 := hs _ a hg
        simp [Option.filter, ha]
    -- the debugger takes a colon off the word, and the table takes one off what is left
    have ht : s.program.symbols.get? (stripColon w) = s.program.symbols.get? w := by
      rcases stripColon_cases w with hw | hw
      · rw [hw]
      · unfold SymbolTable.get?
        rcases stripColon_cases (stripColon w) with h | h
        · rw [h]
        · rw [h] at hw
          obtain ⟨h₁, h₂⟩ := hd _ hw
          rw [← h] at h₁
          rw [h₁, h₂]
    dsimp only
    rw [if_neg hn, hf]
    exact ht

/-- A colon alone names no place, even where it is a label. -/
theorem Session.wordAddress?_colon (s : Session) : s.wordAddress? ":" = none := by
  unfold wordAddress?
  rw [readArgument_location]
  rfl

/-- The address of a label, as the line that defines it has it. -/
theorem operandAddress?_of_label {src : String} {p : Program} {i : Nat} {l : Line}
    (hp : Accepted (statements src) p) (hi : (lines src)[i]? = some l)
    (hl : isLabel l.first.text = true) :
    operandAddress? p.symbols l.first.text = some i := by
  have hlit : Decimal.literal? l.first.text = none := by
    unfold isLabel at hl
    rw [Bool.and_eq_true, Bool.not_eq_true'] at hl
    unfold Decimal.literal?
    rw [hl.1]
    rfl
  have hst : l.statement.label = some { l.first with text := stripColon l.first.text } := by
    unfold Line.statement
    rw [if_pos hl]
  have hs : labelAt (statements src) i = some { l.first with text := stripColon l.first.text } := by
    unfold labelAt statements
    rw [List.getElem?_map, hi]
    exact hst
  have hf : p.symbols.get? l.first.text = some i := hp.find?_symbols.mpr ⟨_, hs, rfl⟩
  have hle : i ≤ 99 := hp.address_le hf
  unfold operandAddress?
  rw [hlit]
  dsimp only
  rw [hf]
  simp [Option.filter, hle]

/-- A command that finds the place an operand means does what the instruction with this operand
says, also when there is none. -/
theorem Session.finds_iff_encode {f : Finished} {symbols : SymbolTable} {st : Statement}
    {word operand : Lexeme} {m : Mnemonic}
    (hf : (∃ a, operandAddress? symbols operand.text = some a ∧ s.Finds k a f) ∨
      (operandAddress? symbols operand.text = none ∧ s.Refuses f))
    (hw : Names st word m) (hm : m.takesAddress) (ho : st.operand = some operand) :
    (∀ a, s.Finds k a f ↔ encode symbols st = .ok (m.base + a)) ∧
      (s.Refuses f ↔ ∃ e, encode symbols st = .error e) := by
  have henc := encode_of_address symbols hw hm ho
  rcases hf with ⟨a, hop, hfind⟩ | ⟨hop, href⟩
  · rw [hop] at henc
    obtain ⟨b, hb, hok⟩ | ⟨hb, -⟩ := henc
    · obtain rfl := Option.some.inj hb
      refine ⟨fun a' => ⟨fun hf' => ?_, fun hok' => ?_⟩, fun hr => ?_, ?_⟩
      · rw [hf'.unique hfind]
        exact hok
      · rw [hok] at hok'
        rw [← Nat.add_left_cancel (Except.ok.inj hok')]
        exact hfind
      · exact absurd hr hfind.not_refuses
      · rintro ⟨e, herr⟩
        rw [hok] at herr
        contradiction
    · contradiction
  · rw [hop] at henc
    obtain ⟨b, hb, -⟩ | ⟨-, herr⟩ := henc
    · contradiction
    · refine ⟨fun a => ⟨fun hf' => ?_, fun hok => ?_⟩, fun _ => herr, fun _ => href⟩
      · exact absurd href hf'.not_refuses
      · obtain ⟨e, he⟩ := herr
        rw [he] at hok
        contradiction

/-- A word names the same place in the debugger and in an instruction: the command does what it does
at the address that the instruction has, and it is refused if the instruction is. So every label
can be written as its definition writes it. A colon alone is always refused, and nothing is said of
words that end in two colons and name a label without one of them or without both. -/
theorem place_agrees {src : String} {p : Program} (s : Session) (limit : Nat)
    (stdin : List UInt8) (hp : Program.assemble src = .ok p) (hs : s.program = p)
    (h : k.Asks w line) :
    let f := s.run limit (Script.ofText line stdin)
    (w ≠ ":" → p.symbols.Undoubled w →
      (∀ (st : Statement) word operand m, Names st word m → m.takesAddress →
        st.operand = some operand → operand.text = w →
          (∀ a, s.Finds k a f ↔ encode p.symbols st = .ok (m.base + a)) ∧
          (s.Refuses f ↔ ∃ e, encode p.symbols st = .error e)) ∧
      ∀ i l, (lines src)[i]? = some l → isLabel l.first.text = true → l.first.text = w →
        s.Finds k i f) ∧
    (w = ":" → s.Refuses f) := by
  intro f
  subst hs
  have ha := accepted_of_assemble hp
  have hf := Session.run_asks limit s stdin h
  refine ⟨fun hc hd => ?_, fun hc => ?_⟩
  · have he : s.wordAddress? w = operandAddress? s.program.symbols w :=
      Session.wordAddress?_eq (fun _ _ => ha.address_le) h.ne_empty hc hd
    rw [he] at hf
    constructor
    · rintro st word operand m hw hm ho rfl
      exact Session.finds_iff_encode hf hw hm ho
    · rintro i l hi hl rfl
      have hop := operandAddress?_of_label ha hi hl
      rcases hf with ⟨a, hop', hfind⟩ | ⟨hop', -⟩
      · rw [hop] at hop'
        rw [Option.some.inj hop']
        exact hfind
      · rw [hop] at hop'
        contradiction
  · subst hc
    exact Session.refuses_of_wordAddress? h s.wordAddress?_colon

/-- A halt and a cell with the given label. -/
def labelled (name : String) (span : Span) : Program := ⟨[0, 7], ⟨[(name, 1)]⟩, [⟨0, 3⟩, span]⟩

/-- A session at the start of the program. -/
def atStart (p : Program) : Session := .start p none ⟨Machine.load p.words, [], #[]⟩

/-- A plain word can be asked for. -/
theorem asks_get {w : String} (h : PlainWord w) : PlaceCommand.read.Asks w ("get " ++ w) := by
  have hline : " ".intercalate ["get", w] = "get " ++ w := by
    rw [String.intercalate_cons_cons, String.intercalate_singleton]
    rfl
  have hf : PlaceCommand.read.FollowedBy [] := rfl
  rw [← hline]
  exact PlaceCommand.asks_line hf (by simpa using h)

/-- The label is found as its definition writes it. -/
theorem get_labelled :
    Program.assemble "HLT\nX: DAT 7" = .ok (labelled "X" ⟨4, 8⟩) ∧
      PlaceCommand.read.Asks "X:" "get X:" ∧ (labelled "X" ⟨4, 8⟩).symbols.Undoubled "X:" ∧
      (atStart (labelled "X" ⟨4, 8⟩)).Finds .read 1
        ((atStart (labelled "X" ⟨4, 8⟩)).run 10 (Script.ofText "get X:" [])) := by
  have hp : Program.assemble "HLT\nX: DAT 7" = .ok (labelled "X" ⟨4, 8⟩) :=
    ok_of_toOption (by decide +kernel)
  have hk : PlaceCommand.read.Asks "X:" "get X:" := asks_get (by decide +kernel)
  have hd : (labelled "X" ⟨4, 8⟩).symbols.Undoubled "X:" := .of_stripColon (by decide +kernel)
  have hi : (lines "HLT\nX: DAT 7")[1]? =
      some ⟨⟨"X:", ⟨4, 2⟩⟩, [⟨"DAT", ⟨7, 3⟩⟩, ⟨"7", ⟨11, 1⟩⟩]⟩ := by decide +kernel
  have hx := (place_agrees (atStart (labelled "X" ⟨4, 8⟩)) 10 [] hp rfl hk).1 (by decide) hd
  exact ⟨hp, hk, hd, hx.2 1 _ hi (by decide +kernel) rfl⟩

/-- Loads from the place that a word names. -/
def loadFrom (w : String) : Statement := ⟨none, some ⟨"LDA", ⟨0, 3⟩⟩, some ⟨w, ⟨4, 1⟩⟩, ⟨0, 5⟩⟩

/-- An instruction may name the label that is a colon alone, and the one that keeps a colon of its
own, but the debugger refuses both. -/
theorem get_colons_refused :
    (Program.assemble "HLT\n: DAT 7" = .ok (labelled "" ⟨4, 7⟩) ∧
      encode (labelled "" ⟨4, 7⟩).symbols (loadFrom ":") = .ok (Mnemonic.load.base + 1) ∧
      PlaceCommand.read.Asks ":" "get :" ∧
      (atStart (labelled "" ⟨4, 7⟩)).Refuses
        ((atStart (labelled "" ⟨4, 7⟩)).run 10 (Script.ofText "get :" []))) ∧
    Program.assemble "HLT\nA:: DAT 7" = .ok (labelled "A:" ⟨4, 9⟩) ∧
      encode (labelled "A:" ⟨4, 9⟩).symbols (loadFrom "A::") = .ok (Mnemonic.load.base + 1) ∧
      PlaceCommand.read.Asks "A::" "get A::" ∧
      (atStart (labelled "A:" ⟨4, 9⟩)).Refuses
        ((atStart (labelled "A:" ⟨4, 9⟩)).run 10 (Script.ofText "get A::" [])) := by
  have hk : PlaceCommand.read.Asks ":" "get :" := asks_get (by decide +kernel)
  have hk' : PlaceCommand.read.Asks "A::" "get A::" := asks_get (by decide +kernel)
  have hn : (atStart (labelled "A:" ⟨4, 9⟩)).wordAddress? "A::" = none := by decide +kernel
  refine ⟨⟨?_, ?_, hk, ?_⟩, ?_, ?_, hk', ?_⟩
  · exact ok_of_toOption (by decide +kernel)
  · exact ok_of_toOption (by decide +kernel)
  · exact Session.refuses_of_wordAddress? hk (Session.wordAddress?_colon _)
  · exact ok_of_toOption (by decide +kernel)
  · exact ok_of_toOption (by decide +kernel)
  · exact Session.refuses_of_wordAddress? hk' hn

end Debugger

end LittleMan
