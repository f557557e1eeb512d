import LittleMan.Proofs.Debugger.Grammar
import LittleMan.Proofs.Debugger.Names

/-! Lines that are understood: just those that the grammar has, each as the command that it spells.
All others are answered with what is wrong with them. -/
namespace LittleMan.Debugger

variable {w a b : String} {ws called args : List String} {n : CommandName} {e : CommandError}

theorem sameLetters_trans (ha : Text.sameLetters w a = true) (hb : Text.sameLetters w b = true) :
    Text.sameLetters a b = true := by
  unfold Text.sameLetters at ha hb ⊢
  rw [beq_iff_eq] at ha hb ⊢
  rw [← ha, hb]

/-- A table in which no word stands for two commands. -/
def Unambiguous (table : CommandName → List String) : Prop :=
  ∀ n ∈ CommandName.all, ∀ n' ∈ CommandName.all, ∀ a ∈ table n, ∀ b ∈ table n',
    Text.sameLetters a b = true → n = n'

theorem unambiguous_aliases : Unambiguous CommandName.aliases := by
  unfold Unambiguous
  decide +kernel

theorem unambiguous_breakAliases : Unambiguous CommandName.breakAliases := by
  unfold Unambiguous
  decide +kernel

/-- It does not matter in which order a table without ambiguities is searched. -/
theorem find?_all_eq_some_iff {table : CommandName → List String} (h : Unambiguous table) :
    (CommandName.all.find? fun n => (table n).any (Text.sameLetters w)) = some n ↔
      ∃ a ∈ table n, Text.sameLetters w a = true := by
  constructor
  · intro hf
    have hany := List.find?_some hf
    exact List.any_eq_true.mp hany
  · rintro ⟨a, ha, hw⟩
    cases hf : CommandName.all.find? fun n => (table n).any (Text.sameLetters w) with
    | none =>
      have hn := List.find?_eq_none.mp hf n n.mem_all
      exact absurd (List.any_eq_true.mpr ⟨a, ha, hw⟩) hn
    | some n' =>
      have hany := List.find?_some hf
      obtain ⟨b, hb, hw'⟩ := List.any_eq_true.mp hany
      have hn := h n' n'.mem_all n n.mem_all b hb a ha (sameLetters_trans hw' hw)
      rw [hn]

theorem calls_word_iff : Calls [w] n ↔ CommandName.ofWord? w = some n := by
  unfold CommandName.ofWord?
  rw [find?_all_eq_some_iff unambiguous_aliases]
  constructor
  · rintro ⟨ha, hw⟩
    exact ⟨_, ha, hw⟩
  · rintro ⟨a, ha, hw⟩
    exact .word ha hw

theorem calls_breakWords_iff {sub : String} :
    Calls [w, sub] n ↔ isBreak w = true ∧ CommandName.ofBreakWord? sub = some n := by
  unfold CommandName.ofBreakWord?
  rw [find?_all_eq_some_iff unambiguous_breakAliases]
  constructor
  · rintro (_ | ⟨hw, ha, hs⟩)
    exact ⟨hw, _, ha, hs⟩
  · rintro ⟨hw, a, ha, hs⟩
    exact .breakWords hw ha hs

/-- The first word of a name of two words is no name itself. -/
theorem ofWord?_of_isBreak (h : isBreak w = true) : CommandName.ofWord? w = none := by
  have hb : ∀ b ∈ ["break", "b"], ∀ n ∈ CommandName.all, ∀ a ∈ n.aliases,
      Text.sameLetters b a = false := by
    decide +kernel
  obtain ⟨b, hmem, hw⟩ := List.any_eq_true.mp h
  unfold CommandName.ofWord?
  rw [List.find?_eq_none]
  intro n hn hany
  obtain ⟨a, ha, hwa⟩ := List.any_eq_true.mp hany
  have hfalse := hb b hmem n hn a ha
  rw [sameLetters_trans hw hwa] at hfalse
  contradiction

theorem Calls.ofWords (h : Calls called n) (args : List String) :
    CommandName.ofWords (called ++ args) = .ok (n, args) := by
  cases h with
  | @word w a _ ha hw =>
    have hn : CommandName.ofWord? w = some n := calls_word_iff.mp (.word ha hw)
    unfold CommandName.ofWords
    rw [List.singleton_append]
    dsimp only
    rw [hn]
  | @breakWords w sub a _ hw ha hs =>
    have hn : CommandName.ofBreakWord? sub = some n :=
      (calls_breakWords_iff.mp (.breakWords hw ha hs)).2
    unfold CommandName.ofWords
    rw [List.cons_append, List.singleton_append]
    dsimp only
    rw [ofWord?_of_isBreak hw]
    dsimp only
    rw [if_pos hw, hn]

theorem Miscalls.ofWords (h : Miscalls ws e) : CommandName.ofWords ws = .error e := by
  have hnone : ∀ {o : Option CommandName}, (∀ n, o ≠ some n) → o = none := by
    intro o ho
    cases o with
    | none => rfl
    | some n => exact absurd rfl (ho n)
  cases h with
  | @unknown w ws hn hw =>
    have hw' : CommandName.ofWord? w = none := hnone fun n h => hn n (calls_word_iff.mpr h)
    unfold CommandName.ofWords
    simp [hw', hw]
  | @missingSubcommand w hw =>
    unfold CommandName.ofWords
    simp [ofWord?_of_isBreak hw, hw]
  | @unknownSubcommand w sub ws hw hn =>
    have hs : CommandName.ofBreakWord? sub = none :=
      hnone fun n h => hn n (calls_breakWords_iff.mpr ⟨hw, h⟩)
    unfold CommandName.ofWords
    simp [ofWord?_of_isBreak hw, hw, hs]

/-- Words begin with a name, or something is wrong with how they begin. -/
theorem calls_or_miscalls (h : ws ≠ []) :
    (∃ called args n, ws = called ++ args ∧ Calls called n) ∨ ∃ e, Miscalls ws e := by
  obtain ⟨w, ws, rfl⟩ := List.exists_cons_of_ne_nil h
  by_cases hn : ∃ n, Calls [w] n
  · obtain ⟨n, hn⟩ := hn
    exact .inl ⟨[w], ws, n, rfl, hn⟩
  by_cases hw : isBreak w = true
  · cases ws with
    | nil => exact .inr ⟨_, .missingSubcommand hw⟩
    | cons sub ws =>
      by_cases hs : ∃ n, Calls [w, sub] n
      · obtain ⟨n, hs⟩ := hs
        exact .inl ⟨[w, sub], ws, n, rfl, hs⟩
      · exact .inr ⟨_, .unknownSubcommand hw fun n h => hs ⟨n, h⟩⟩
  · exact .inr ⟨_, .unknown (fun n h => hn ⟨n, h⟩) (by simpa using hw)⟩

section Arguments

open Decimal

variable {α : Type} {k : Kind} {given : α → Given} {read : Argument → Except ValueError α}
  {name : String} {expected taken : Nat} {ps : List Parameter} {before : List Given}

/-- A word is a literal, a colon alone or, without its colon, a label. -/
theorem Argument.ofWord_cases (hw : w ≠ "") :
    (isLiteral w = true ∧ ofWord w = .ok (.integer (signed64.nearest (denoted w)))) ∨
      (w = ":" ∧ ofWord w = .error .malformed) ∨
      (isLiteral w = false ∧ w ≠ ":" ∧ ofWord w = .ok (.label (Source.stripColon w))) := by
  by_cases hl : isLiteral w = true
  · have hv : literal? w = some (signed64.nearest (denoted w)) :=
      literal?_eq_some_iff.mpr ⟨hl, rfl⟩
    refine .inl ⟨hl, ?_⟩
    unfold ofWord
    rw [hv]
  have hn : literal? w = none := if_neg hl
  by_cases hc : w = ":"
  · subst hc
    exact .inr (.inl ⟨rfl, rfl⟩)
  · have hs : Source.stripColon w ≠ "" := by
      intro hs
      rcases Source.stripColon_cases w with h | h
      · exact hw (h ▸ hs)
      · rw [hs] at h
        exact hc h
    refine .inr (.inr ⟨by simpa using hl, hc, ?_⟩)
    unfold ofWord
    rw [hn]
    exact if_neg hs

/-- The reader takes the words that are arguments of the kind, and no others. -/
def Understands (k : Kind) (given : α → Given) (read : Argument → Except ValueError α) : Prop :=
  ∀ name w, w ≠ "" →
    (∃ v, readArgument name read w = .ok v ∧ Accepts k w (given v)) ∨
      ∃ fault, readArgument name read w = .error (.invalid name fault) ∧ Rejects k w fault

theorem understands_count : Understands .count Given.count Argument.count := by
  intro name w hw
  unfold readArgument
  rcases Argument.ofWord_cases hw with ⟨hl, ho⟩ | ⟨rfl, ho⟩ | ⟨hl, hc, ho⟩
  · have hn : max 1 (min (signed64.nearest (denoted w)) 4294967295) =
        max 1 (min (denoted w) 4294967295) := by
      unfold Bounds.nearest
      simp only [signed64]
      omega
    rw [ho]
    refine .inl ⟨_, rfl, ?_⟩
    rw [hn]
    exact .count hl
  · rw [ho]
    exact .inr ⟨_, rfl, .colon⟩
  · rw [ho]
    exact .inr ⟨_, rfl, .label (by decide) hl hc⟩

theorem understands_value : Understands .value Given.value Argument.value := by
  intro name w hw
  unfold readArgument
  rcases Argument.ofWord_cases hw with ⟨hl, ho⟩ | ⟨rfl, ho⟩ | ⟨hl, hc, ho⟩
  · rw [ho]
    by_cases hv : -999 ≤ denoted w ∧ denoted w ≤ 999
    · have hn : signed64.nearest (denoted w) = denoted w := by
        unfold Bounds.nearest
        simp only [signed64]
        omega
      rw [hn]
      dsimp only [Argument.value]
      rw [if_pos hv]
      exact .inl ⟨_, rfl, .value hl hv.1 hv.2⟩
    · have hn : ¬(-999 ≤ signed64.nearest (denoted w) ∧ signed64.nearest (denoted w) ≤ 999) := by
        unfold Bounds.nearest
        simp only [signed64]
        omega
      dsimp only [Argument.value]
      rw [if_neg hn]
      exact .inr ⟨_, rfl, .value hl hv⟩
  · rw [ho]
    exact .inr ⟨_, rfl, .colon⟩
  · rw [ho]
    exact .inr ⟨_, rfl, .label (by decide) hl hc⟩

theorem understands_place : Understands .place Given.place Argument.location := by
  intro name w hw
  have hm : (memorySize : Int) = 100 := rfl
  unfold readArgument
  rcases Argument.ofWord_cases hw with ⟨hl, ho⟩ | ⟨rfl, ho⟩ | ⟨hl, hc, ho⟩
  · rw [ho]
    dsimp only [Argument.location]
    by_cases hv : 0 ≤ denoted w ∧ denoted w ≤ 99
    · have hn : signed64.nearest (denoted w) = denoted w := by
        unfold Bounds.nearest
        simp only [signed64]
        omega
      rw [hn, if_pos (by omega)]
      exact .inl ⟨_, rfl, .address hl (Int.toNat_of_nonneg hv.1).symm (by omega)⟩
    · have hn : ¬(0 ≤ signed64.nearest (denoted w) ∧
          signed64.nearest (denoted w) < memorySize) := by
        unfold Bounds.nearest
        simp only [signed64]
        omega
      rw [if_neg hn]
      exact .inr ⟨_, rfl, .address hl hv⟩
  · rw [ho]
    exact .inr ⟨_, rfl, .colon⟩
  · rw [ho]
    exact .inl ⟨_, rfl, .label hl hc⟩

/-- The outcome of reading the parameters that are left, behind arguments that are in order: the
command with all its arguments, or what is wrong with the words that are left. -/
def Judged (n : CommandName) (expected taken : Nat) (ps : List Parameter) (before : List Given)
    (ws : List String) (r : Except ArgumentError Command) : Prop :=
  (∃ c gs, r = .ok c ∧ c.name = n ∧ c.arguments = before ++ gs ∧ Fills ps ws gs) ∨
    ∃ e, r = .error e ∧ Faults expected taken ps ws e

theorem judged_finish {c : Command} (hn : c.name = n) (ha : c.arguments = before) (taken : Nat)
    (ws : List String) : Judged n taken taken [] before ws (finish taken c ws) := by
  cases ws with
  | nil => exact .inl ⟨c, [], rfl, hn, by rw [ha, List.append_nil], .nil⟩
  | cons w ws =>
    have hn : reportedCount taken (taken + (w :: ws).length) =
        min 255 (taken + (w :: ws).length % 256) := by
      unfold reportedCount
      rw [Nat.add_sub_cancel_left]
    refine .inr ⟨_, rfl, ?_⟩
    rw [← hn]
    exact .tooMany

/-- An argument that is there, and what comes behind it. -/
theorem judged_given (hu : Understands k given read) (hw : w ≠ "") {absent : Option Given}
    (next : α → List String → Except ArgumentError Command)
    (hn : ∀ v, Judged n expected (taken + 1) ps (before ++ [given v]) ws (next v ws)) :
    Judged n expected taken (⟨name, k, absent⟩ :: ps) before (w :: ws)
      (((readArgument name read w).map (·, ws)).bind fun x => next x.1 x.2) := by
  rcases hu name w hw with ⟨v, hr, ha⟩ | ⟨fault, hr, hf⟩
  · rw [hr]
    rcases hn v with ⟨c, gs, hc, hname, hargs, hfill⟩ | ⟨e, he, hfault⟩
    · refine .inl ⟨c, given v :: gs, hc, hname, ?_, .cons (.given ha) hfill⟩
      rw [hargs, List.append_assoc]
      rfl
    · exact .inr ⟨e, he, .later ha hfault⟩
  · rw [hr]
    exact .inr ⟨_, rfl, .invalid hf⟩

theorem judged_required (hu : Understands k given read) (hw : ∀ w ∈ ws, w ≠ "")
    (next : α → List String → Except ArgumentError Command)
    (hn : ∀ v rest, (∀ w ∈ rest, w ≠ "") →
      Judged n expected (taken + 1) ps (before ++ [given v]) rest (next v rest)) :
    Judged n expected taken (⟨name, k, none⟩ :: ps) before ws
      ((required name expected taken read ws).bind fun x => next x.1 x.2) := by
  cases ws with
  | nil => exact .inr ⟨_, rfl, .missing rfl⟩
  | cons w ws =>
    obtain ⟨hwe, hws⟩ := List.forall_mem_cons.mp hw
    exact judged_given hu hwe next fun v => hn v ws hws

/-- An argument that may be left out is the last one. -/
theorem judged_optional (hu : Understands k given read) (hw : ∀ w ∈ ws, w ≠ "") (absent : α)
    (next : α → List String → Except ArgumentError Command)
    (hn : ∀ v rest, Judged n expected (taken + 1) [] (before ++ [given v]) rest (next v rest)) :
    Judged n expected taken [⟨name, k, some (given absent)⟩] before ws
      ((optional name absent read ws).bind fun x => next x.1 x.2) := by
  cases ws with
  | nil =>
    rcases hn absent [] with ⟨c, gs, hc, hname, hargs, hfill⟩ | ⟨e, he, hfault⟩
    · refine .inl ⟨c, given absent :: gs, hc, hname, ?_, .cons (.absent rfl) hfill⟩
      rw [hargs, List.append_assoc]
      rfl
    · cases hfault
  | cons w ws => exact judged_given hu (hw w List.mem_cons_self) next fun v => hn v ws

/-- A command with a single argument. -/
theorem judged_single_required (hu : Understands k given read) (hw : ∀ w ∈ ws, w ≠ "")
    (c : α → Command) (hc : ∀ v, (c v).name = n ∧ (c v).arguments = [given v]) :
    Judged n 1 0 [⟨name, k, none⟩] [] ws
      ((required name 1 0 read ws).bind fun x => finish 1 (c x.1) x.2) :=
  judged_required hu hw (fun v rest => finish 1 (c v) rest) fun v rest _ =>
    judged_finish (hc v).1 (hc v).2 1 rest

theorem judged_single_optional (hu : Understands k given read) (hw : ∀ w ∈ ws, w ≠ "")
    (absent : α) (c : α → Command) (hc : ∀ v, (c v).name = n ∧ (c v).arguments = [given v]) :
    Judged n 1 0 [⟨name, k, some (given absent)⟩] [] ws
      ((optional name absent read ws).bind fun x => finish 1 (c x.1) x.2) :=
  judged_optional hu hw absent (fun v rest => finish 1 (c v) rest) fun v rest =>
    judged_finish (hc v).1 (hc v).2 1 rest

end Arguments

/-- The words behind a name other than `help` are its arguments, or something is wrong with them. -/
theorem judged_ofArguments (hn : n ≠ .help) (hw : ∀ w ∈ ws, w ≠ "") :
    Judged n n.parameters.length 0 n.parameters [] ws (Command.ofArguments n ws) := by
  cases n with
  | help => contradiction
  | proceed | quit | exit | registers | memory | outputs | breakList | reset =>
    exact judged_finish rfl rfl 0 ws
  | step => exact judged_single_optional understands_count hw 1 .step fun v => ⟨rfl, rfl⟩
  | read => exact judged_single_required understands_place hw .read fun v => ⟨rfl, rfl⟩
  | jump => exact judged_single_required understands_place hw .jump fun v => ⟨rfl, rfl⟩
  | input => exact judged_single_required understands_value hw .input fun v => ⟨rfl, rfl⟩
  | write =>
    exact judged_required understands_place hw _ fun place rest hrest =>
      judged_required understands_value hrest (fun v rest => finish 2 (.write place v) rest)
        fun v rest _ => judged_finish rfl rfl 2 rest
  | breakAdd =>
    exact judged_single_optional understands_place hw .counter .breakAdd fun v => ⟨rfl, rfl⟩
  | breakRemove =>
    exact judged_single_optional understands_place hw .counter .breakRemove fun v => ⟨rfl, rfl⟩
  | source =>
    exact judged_single_optional understands_place hw .counter .source fun v => ⟨rfl, rfl⟩

theorem Command.eq_help {c : Command} (h : c.name = .help) : c = .help := by
  cases c with
  | help => rfl
  | _ => contradiction

theorem ofArguments_of_fills {c : Command} (hn : c.name ≠ .help) (hw : ∀ w ∈ ws, w ≠ "")
    (h : Fills c.name.parameters ws c.arguments) : Command.ofArguments c.name ws = .ok c := by
  rcases judged_ofArguments hn hw with ⟨c', gs, hc, hname, hargs, hfill⟩ | ⟨e, -, hfault⟩
  · obtain rfl := hfill.unique h
    rw [hc, Command.eq_of_arguments hname hargs]
  · exact absurd h hfault.not_fills

theorem ofArguments_of_faults {e : ArgumentError} (hn : n ≠ .help) (hw : ∀ w ∈ ws, w ≠ "")
    (h : Faults n.parameters.length 0 n.parameters ws e) :
    Command.ofArguments n ws = .error e := by
  rcases judged_ofArguments hn hw with ⟨c, gs, -, -, -, hfill⟩ | ⟨e', he, hfault⟩
  · exact absurd hfill h.not_fills
  · rw [he, hfault.unique h]

theorem ofWords_of_calls (h : Calls called n) (args : List String) :
    Command.ofWords (called ++ args) =
      (Command.ofArguments n args).mapError (.invalidArgument n) := by
  unfold Command.ofWords
  rw [h.ofWords]
  dsimp only [Bind.bind, Except.bind]
  cases Command.ofArguments n args <;> rfl

theorem Spells.ofWords {c : Command} (h : Spells ws c) (hw : ∀ w ∈ ws, w ≠ "") :
    Command.ofWords ws = .ok c := by
  obtain ⟨called, args, rfl, hc, hf⟩ := h
  rw [ofWords_of_calls hc]
  by_cases hn : c.name = .help
  · obtain rfl := Command.eq_help hn
    rfl
  · have hfill : Fills c.name.parameters args c.arguments := by
      rcases hf with rfl | hf
      · exact absurd rfl hn
      · exact hf
    rw [ofArguments_of_fills hn (fun w h => hw w (List.mem_append_right _ h)) hfill]
    rfl

theorem Misspells.ofWords (h : Misspells ws e) (hw : ∀ w ∈ ws, w ≠ "") :
    Command.ofWords ws = .error e := by
  cases h with
  | name h =>
    unfold Command.ofWords
    rw [h.ofWords]
    rfl
  | arguments hc hn h =>
    rw [ofWords_of_calls hc,
      ofArguments_of_faults hn (fun w h => hw w (List.mem_append_right _ h)) h]
    rfl

/-- Any words are a command, or something is wrong with them. -/
theorem spells_or_misspells (h : ws ≠ []) (hw : ∀ w ∈ ws, w ≠ "") :
    (∃ c, Spells ws c) ∨ ∃ e, Misspells ws e := by
  rcases calls_or_miscalls h with ⟨called, args, n, rfl, hc⟩ | ⟨e, he⟩
  · by_cases hn : n = .help
    · subst hn
      exact .inl ⟨.help, called, args, rfl, hc, .inl rfl⟩
    have hargs : ∀ w ∈ args, w ≠ "" := fun w h => hw w (List.mem_append_right _ h)
    rcases judged_ofArguments hn hargs with ⟨c, gs, -, rfl, harg, hfill⟩ | ⟨e, -, hfault⟩
    · rw [List.nil_append] at harg
      rw [← harg] at hfill
      exact .inl ⟨c, called, args, rfl, hc, .inr hfill⟩
    · exact .inr ⟨_, .arguments hc hn hfault⟩
  · exact .inr ⟨e, .name he⟩

theorem ofLine_eq_ok_iff {line : String} (h : Text.trim line ≠ "") {c : Command} :
    Command.ofLine line = .ok c ↔ Spells (Text.words line) c := by
  have hne : Text.words line ≠ [] := fun hn => h (Text.words_eq_nil_iff.mp hn)
  have hw : ∀ w ∈ Text.words line, w ≠ "" := fun w => ne_empty_of_mem_words
  unfold Command.ofLine
  refine ⟨fun hc => ?_, fun hs => hs.ofWords hw⟩
  rcases spells_or_misspells hne hw with ⟨c', hs⟩ | ⟨e, hm⟩
  · rw [hs.ofWords hw] at hc
    rwa [← Except.ok.inj hc]
  · rw [hm.ofWords hw] at hc
    contradiction

theorem ofLine_eq_error_iff {line : String} (h : Text.trim line ≠ "") :
    Command.ofLine line = .error e ↔ Misspells (Text.words line) e := by
  have hw : ∀ w ∈ Text.words line, w ≠ "" := fun w => ne_empty_of_mem_words
  refine ⟨fun he => ?_, fun hm => hm.ofWords hw⟩
  have hne : Text.words line ≠ [] := fun hn => h (Text.words_eq_nil_iff.mp hn)
  rcases spells_or_misspells hne hw with ⟨c, hs⟩ | ⟨e', hm⟩
  · rw [(ofLine_eq_ok_iff h).mpr hs] at he
    contradiction
  · have he' : Command.ofLine line = .error e' := hm.ofWords hw
    rw [he'] at he
    rwa [← Except.error.inj he]

/-- A line that is not blank is understood as the command that its words spell, and if they spell
none, it is answered with what is wrong with them: with the name, or else with the first argument
that is missing or no such argument, or else that there are too many. All names of a command are
equal. -/
theorem ofLine_understood (line : String) (h : Text.trim line ≠ "") :
    (∀ c, Command.ofLine line = .ok c ↔ Spells (Text.words line) c) ∧
    (∀ e, Command.ofLine line = .error e ↔ Misspells (Text.words line) e) ∧
    ∀ line' called called' n args, Text.words line = called ++ args → Calls called n →
      Text.words line' = called' ++ args → Calls called' n →
        Command.ofLine line' = Command.ofLine line := by
  refine ⟨fun c => ofLine_eq_ok_iff h, fun e => ofLine_eq_error_iff h, ?_⟩
  intro line' called called' n args hl hc hl' hc'
  unfold Command.ofLine
  rw [hl, hl', ofWords_of_calls hc, ofWords_of_calls hc']

/-- A name of two words, and a line in which the second argument is wrong and a third one follows. -/
theorem ofLine_understood_mixed :
    Text.trim " B a loop: " ≠ "" ∧
      Command.ofLine " B a loop: " = .ok (.breakAdd (.label "loop")) ∧
      Text.trim "SET 007 1000 now" ≠ "" ∧
      Command.ofLine "SET 007 1000 now" =
        .error (.invalidArgument .write (.invalid "value" (.outOfRange (-999) 999))) := by
  have ht : Text.trim " B a loop: " ≠ "" := by decide +kernel
  have hw : Text.words " B a loop: " = ["B", "a"] ++ ["loop:"] := by decide +kernel
  have hs : Spells (Text.words " B a loop: ") (.breakAdd (.label "loop")) :=
    ⟨_, _, hw, .breakWords (by decide +kernel) (a := "a") (by decide) (by decide +kernel),
      .inr (.cons (.given (.label (by decide +kernel) (by decide))) .nil)⟩
  have ht' : Text.trim "SET 007 1000 now" ≠ "" := by decide +kernel
  have hw' : Text.words "SET 007 1000 now" = ["SET"] ++ ["007", "1000", "now"] := by decide +kernel
  have hplace : Accepts .place "007" (.place (.address 7)) :=
    .address (by decide +kernel) (by decide +kernel) (by decide)
  have hvalue : Rejects .value "1000" (.outOfRange (-999) 999) :=
    .value (by decide +kernel) (by decide +kernel)
  have hm : Misspells (Text.words "SET 007 1000 now")
      (.invalidArgument .write (.invalid "value" (.outOfRange (-999) 999))) := by
    rw [hw']
    refine .arguments (.word (a := "set") (by decide) (by decide +kernel)) (by decide) ?_
    exact .later hplace (.invalid (p := ⟨"value", .value, none⟩) hvalue)
  exact ⟨ht, ((ofLine_understood _ ht).1 _).mpr hs, ht',
    ((ofLine_understood _ ht').2.1 _).mpr hm⟩

end LittleMan.Debugger
