import LittleMan.Proofs.Debugger.Scripts

/-! Commands that leave a session as it is: what a script does without them is what it does with
them. -/
namespace LittleMan.Debugger

variable {symbols : SymbolTable} {place : Location} {c : Command} {piece : String}

/-- A label that the program does not have. -/
def Location.isUnknown (symbols : SymbolTable) : Location → Bool
  | .label name => (symbols.get? name).isNone
  | .address _ | .counter => false

/-- The command only shows something, or it is about an unknown label. -/
def Command.isIdle (symbols : SymbolTable) : Command → Bool
  | .help | .registers | .memory | .outputs | .breakList | .read _ | .source _ => true
  | .breakAdd place | .breakRemove place | .write place _ | .jump place => place.isUnknown symbols
  | .step _ | .proceed | .quit | .exit | .input _ | .reset => false

/-- A piece of a script that is blank, that is not understood, or that is an idle command. -/
def isIdle (symbols : SymbolTable) (piece : String) : Bool :=
  Text.trim piece = "" ||
    match Command.ofLine piece with
    | .error _ => true
    | .ok c => c.isIdle symbols

theorem Command.action?_of_isIdle (h : c.isIdle symbols = true) : c.action? = none := by
  cases c with
  | quit | exit => contradiction
  | _ => rfl

/-- A blank line is not understood either. -/
theorem Command.ofLine_of_blank (h : Text.trim piece = "") : ofLine piece = .error (.unknown "") := by
  have hw : Text.words piece = [] := Text.words_eq_nil_iff.mpr h
  unfold ofLine
  rw [hw]
  rfl

theorem isIdle_of_blank (h : Text.trim piece = "") : isIdle symbols piece = true := by
  simp [isIdle, h]

theorem isIdle_trim (symbols : SymbolTable) (piece : String) :
    isIdle symbols (Text.trim piece) = isIdle symbols piece := by
  have ht : Text.trim (Text.trim piece) = Text.trim piece := by
    unfold Text.trim
    rw [String.toList_ofList, (Text.isTrimmed_trimmed _).eq]
  unfold isIdle
  rw [ht, Command.ofLine_trim]

/-- An idle piece is an idle command, or it is none. -/
theorem ofLine_of_isIdle (h : isIdle symbols piece = true) {c : Command}
    (hc : Command.ofLine piece = .ok c) : c.isIdle symbols = true := by
  unfold isIdle at h
  rw [hc] at h
  rcases Bool.or_eq_true _ _ |>.mp h with hblank | hidle
  · rw [Command.ofLine_of_blank (of_decide_eq_true hblank)] at hc
    contradiction
  · exact hidle

namespace Session

variable {s s' : Session}

theorem prompt_of_not_announce (h : s.announce = false) : s.prompt.1 = s := by
  obtain ⟨program, source, initialInbox, breakpoints, announce, computer⟩ := s
  obtain rfl : announce = false := h
  rfl

theorem atPlace_of_isUnknown (h : place.isUnknown s.program.symbols = true)
    (act : Nat → Session × List Notice) : (s.atPlace place act).1 = s := by
  cases place with
  | address a => contradiction
  | counter => contradiction
  | label name =>
    have hn : s.program.symbols.get? name = none := Option.isNone_iff_eq_none.mp h
    unfold atPlace
    dsimp only
    rw [hn]

/-- What holds whether or not the place is found. -/
theorem atPlace_induction {P : Session → Prop} (hs : P s) (place : Location)
    {act : Nat → Session × List Notice} (h : ∀ a, P (act a).1) : P (s.atPlace place act).1 := by
  cases place with
  | address a => exact h a
  | counter => exact h s.counter
  | label name =>
    unfold atPlace
    dsimp only
    cases s.program.symbols.get? name with
    | none => exact hs
    | some a => exact h a

theorem answer_of_isIdle (h : c.isIdle s.program.symbols = true) : (s.answer c).1 = s := by
  cases c with
  | step n | proceed | quit | exit | input v | reset => contradiction
  | help | registers | memory | outputs | breakList => rfl
  | read place | source place => exact atPlace_induction (P := (· = s)) rfl place fun a => rfl
  | breakAdd place | breakRemove place | write place v | jump place =>
    exact atPlace_of_isUnknown h _

theorem carryOut_of_isIdle (limit : Nat) (h : c.isIdle s.program.symbols = true) :
    (s.carryOut limit c).1 = s := by
  have ha : (s.answer c).1 = s := answer_of_isIdle h
  cases c with
  | step n | proceed => contradiction
  | _ => exact ha

/-- What a reset goes back to. -/
structure SameStart (s s' : Session) : Prop where
  program : s'.program = s.program
  source : s'.source = s.source
  initialInbox : s'.initialInbox = s.initialInbox

theorem SameStart.refl (s : Session) : s.SameStart s := ⟨rfl, rfl, rfl⟩

theorem SameStart.trans {s'' : Session} (h : s.SameStart s') (h' : s'.SameStart s'') :
    s.SameStart s'' where
  program := h'.program.trans h.program
  source := h'.source.trans h.source
  initialInbox := h'.initialInbox.trans h.initialInbox

/-- No command touches what a reset goes back to. The program is part of it, so labels stay known or
unknown. -/
theorem sameStart_carryOut (limit : Nat) (s : Session) (c : Command) :
    s.SameStart (s.carryOut limit c).1 := by
  cases c with
  | breakAdd place | breakRemove place | read place | write place v | jump place | source place =>
    exact atPlace_induction (P := s.SameStart) (.refl s) place fun a => ⟨rfl, rfl, rfl⟩
  | _ => exact ⟨rfl, rfl, rfl⟩

/-- A session that has had its prompt obeys with and without the idle pieces alike. -/
theorem obey_without_idle (limit : Nat) (s : Session) (h : s.announce = false) (ts : List String) :
    s.obey limit (ts.filter (!isIdle s.program.symbols ·)) = s.obey limit ts := by
  induction ts generalizing s with
  | nil => rfl
  | cons t ts ih =>
    by_cases ht : isIdle s.program.symbols t = true
    · rw [List.filter_cons_of_neg (by simpa using ht), ih s h, obey]
      cases hc : Command.ofLine t with
      | error fault => rfl
      | ok c =>
        have hidle : c.isIdle s.program.symbols = true := ofLine_of_isIdle ht hc
        dsimp only
        rw [Command.action?_of_isIdle hidle]
        dsimp only
        rw [carryOut_of_isIdle limit hidle, prompt_of_not_announce h]
    · rw [List.filter_cons_of_pos (by simpa using ht), obey, obey]
      cases Command.ofLine t with
      | error fault => exact ih s h
      | ok c =>
        dsimp only
        cases c.action? with
        | some action => rfl
        | none =>
          have hp : (s.carryOut limit c).1.prompt.1.program = s.program :=
            (sameStart_carryOut limit s c).program
          have hrest := ih (s.carryOut limit c).1.prompt.1 rfl
          rw [hp] at hrest
          exact hrest

end Session

theorem commandTexts_filter {f : String → Bool} (h : ∀ p, f (Text.trim p) = f p)
    (ps : List String) : commandTexts (ps.filter f) = (commandTexts ps).filter f := by
  have hf : f = f ∘ Text.trim := funext fun p => (h p).symm
  have hmap : (ps.filter f).map Text.trim = (ps.map Text.trim).filter f := by
    rw [List.filter_map, ← hf]
  unfold commandTexts
  rw [hmap, List.filter_comm]

/-- The pieces of a text that are not idle. -/
def busyPieces (symbols : SymbolTable) (text : String) : List String :=
  (piecesIn text).filter (!isIdle symbols ·)

/-- A text with its idle pieces deleted. -/
def withoutIdle (symbols : SymbolTable) (text : String) : String :=
  ";".intercalate (busyPieces symbols text)

theorem commandTexts_busyPieces (symbols : SymbolTable) (text : String) :
    commandTexts (busyPieces symbols text) = (commandsIn text).filter (!isIdle symbols ·) := by
  have ht : ∀ p, (!isIdle symbols (Text.trim p)) = !isIdle symbols p := by
    intro p
    rw [isIdle_trim]
  exact commandTexts_filter (f := (!isIdle symbols ·)) ht (piecesIn text)

theorem isCut_of_mem_piecesIn {text : String} (h : piece ∈ piecesIn text) :
    ∀ c ∈ piece.toList, isCut c = false := by
  obtain ⟨p, hp, rfl⟩ := List.mem_map.mp h
  rw [String.toList_ofList]
  exact fun c hc => (Text.of_mem_splitOnP hp c hc).2

/-- Pieces are found again in the text that they are put together to. -/
theorem piecesIn_intercalate {ps : List String} (hn : ps ≠ [])
    (h : ∀ p ∈ ps, ∀ c ∈ p.toList, isCut c = false) : piecesIn (";".intercalate ps) = ps := by
  have hd : ";".toList = [';'] := by decide
  have hc : isCut ';' = true := by decide
  unfold piecesIn
  rw [Text.splitOnP_intercalate isCut hd hc hn h, List.map_map]
  simp

/-- Nothing more is deleted the second time. -/
theorem busyPieces_withoutIdle (symbols : SymbolTable) (text : String) :
    busyPieces symbols (withoutIdle symbols text) = busyPieces symbols text := by
  by_cases hn : busyPieces symbols text = []
  · unfold withoutIdle
    rw [hn]
    have hblank : isIdle symbols "" = true := isIdle_of_blank (by decide)
    simp [busyPieces, piecesIn, hblank]
  · have hp : piecesIn (withoutIdle symbols text) = busyPieces symbols text := by
      apply piecesIn_intercalate hn
      intro p hp
      exact isCut_of_mem_piecesIn (List.mem_filter.mp hp).1
    rw [busyPieces, hp]
    simp [busyPieces, List.filter_filter]

example : withoutIdle ⟨[("x", 3)]⟩ "get x; set y 1;; step 2\nfoo; set x 4" = " step 2; set x 4" := by
  decide +kernel

namespace Session

/-- What becomes of a session depends on the pieces of its script that are not idle. -/
theorem outcome_ofText (limit : Nat) (s : Session) (text : String) (stdin : List UInt8) :
    (s.run limit (.ofText text stdin)).outcome =
      s.opened.obey limit (commandTexts (busyPieces s.program.symbols text)) := by
  have hobey := obey_without_idle limit s.opened rfl (commandsIn text)
  rw [outcome_run, commandTexts_ofText, commandTexts_busyPieces, ← hobey]
  rfl

/-- Deleting the idle pieces of a script changes nothing in what becomes of the session, and neither
does deleting some of them or putting others in. -/
theorem run_without_idle (limit : Nat) (s : Session) (text : String) (stdin : List UInt8) :
    (s.run limit (.ofText (withoutIdle s.program.symbols text) stdin)).outcome =
        (s.run limit (.ofText text stdin)).outcome ∧
      ∀ text', busyPieces s.program.symbols text' = busyPieces s.program.symbols text →
        (s.run limit (.ofText text' stdin)).outcome =
          (s.run limit (.ofText text stdin)).outcome := by
  have hsame : ∀ text', busyPieces s.program.symbols text' = busyPieces s.program.symbols text →
      (s.run limit (.ofText text' stdin)).outcome =
        (s.run limit (.ofText text stdin)).outcome := by
    intro text' h
    rw [outcome_ofText, outcome_ofText, h]
  constructor
  · exact hsame _ (busyPieces_withoutIdle s.program.symbols text)
  · exact hsame

end Session

end LittleMan.Debugger
