import LittleMan.Proofs.Debugger.Scripts
import LittleMan.Proofs.Source.Rows

/-! Commands about a place in memory: what a session does when it finds the place that a word names,
and what it does when there is none. -/
namespace LittleMan.Debugger

/-- Commands that are told a place. -/
inductive PlaceCommand
  | read
  | write (value : Int)
  | jump
  | breakAdd
  | breakRemove
  | source
  deriving DecidableEq, Repr

/-- A command is understood by the name that messages give it. -/
theorem CommandName.ofWords_text (n : CommandName) (ws : List String) :
    ofWords (Text.words n.text ++ ws) = .ok (n, ws) := by
  cases n <;> rfl

theorem CommandName.text_on_line (n : CommandName) :
    '\n' ∉ n.text.toList ∧ ';' ∉ n.text.toList := by
  cases n <;> decide

namespace PlaceCommand

variable {k : PlaceCommand} {w line : String}

def name : PlaceCommand → CommandName
  | read => .read
  | write _ => .write
  | jump => .jump
  | breakAdd => .breakAdd
  | breakRemove => .breakRemove
  | source => .source

def command (place : Location) : PlaceCommand → Command
  | read => .read place
  | write v => .write place v
  | jump => .jump place
  | breakAdd => .breakAdd place
  | breakRemove => .breakRemove place
  | source => .source place

/-- The words that have to follow the place. -/
def FollowedBy : PlaceCommand → List String → Prop
  | write v, ws => ∃ x, ws = [x] ∧ readArgument "value" Argument.value x = .ok v
  | _, ws => ws = []

/-- A line that is this command, with `w` for its place. -/
structure Asks (k : PlaceCommand) (w line : String) : Prop where
  newline : '\n' ∉ line.toList
  semicolon : ';' ∉ line.toList
  words : ∃ ws, CommandName.ofWords (Text.words line) = .ok (k.name, w :: ws) ∧ k.FollowedBy ws

/-- Each command can be given each plain word for its place. -/
theorem asks_line {ws : List String} (hf : k.FollowedBy ws)
    (h : ∀ x ∈ w :: ws, Source.PlainWord x) :
    k.Asks w (" ".intercalate (k.name.text :: w :: ws)) := by
  have hmem : ∀ c, c ≠ ' ' → c ∉ k.name.text.toList →
      (∀ x, Source.PlainWord x → c ∉ x.toList) →
      c ∉ (" ".intercalate (k.name.text :: w :: ws)).toList := by
    intro c hc hk hx hm
    obtain rfl | ⟨x, hxs, hm⟩ := Text.mem_intercalate hm
    · exact hc rfl
    · rcases List.mem_cons.mp hxs with rfl | hxs
      · exact hk hm
      · exact hx x (h x hxs) hm
  obtain ⟨hn, hs⟩ := k.name.text_on_line
  constructor
  · exact hmem '\n' (by decide) hn fun x hx => hx.newline_not_mem
  · exact hmem ';' (by decide) hs fun x hx hc => (hx.plain ';' hc).2 rfl
  · have hwords : (w :: ws).flatMap Text.words = w :: ws := by
      rw [← Text.words_intercalate]
      exact (Source.words_of_plainWords h).2.2
    refine ⟨ws, ?_, hf⟩
    rw [Text.words_intercalate, List.flatMap_cons, hwords]
    exact CommandName.ofWords_text k.name _

theorem ofArguments_cons {ws : List String} (h : k.FollowedBy ws) (w : String) :
    Command.ofArguments k.name (w :: ws) =
      (readArgument "location" Argument.location w).map fun place => k.command place := by
  cases k with
  | write v =>
    obtain ⟨x, rfl, hx⟩ := h
    unfold Command.ofArguments name required
    dsimp only
    cases readArgument "location" Argument.location w with
    | error fault => rfl
    | ok place =>
      change (((readArgument "value" Argument.value x).map (·, [])).bind _ : Except _ Command) = _
      rw [hx]
      rfl
  | read | jump | breakAdd | breakRemove | source =>
    obtain rfl : ws = [] := h
    unfold Command.ofArguments name
    dsimp only [required, optional]
    cases readArgument "location" Argument.location w <;> rfl

theorem Asks.ofWords (h : k.Asks w line) :
    Command.ofWords (Text.words line) =
      ((readArgument "location" Argument.location w).map fun place => k.command place).mapError
        (.invalidArgument k.name) := by
  obtain ⟨ws, hw, hf⟩ := h.words
  unfold Command.ofWords
  rw [hw]
  dsimp only [Bind.bind, Except.bind]
  rw [ofArguments_cons hf]
  cases readArgument "location" Argument.location w <;> rfl

theorem Asks.words_ne_nil (h : k.Asks w line) : Text.words line ≠ [] := by
  obtain ⟨ws, hw, -⟩ := h.words
  intro hn
  rw [hn] at hw
  contradiction

theorem Asks.pieces (h : k.Asks w line) (stdin : List UInt8) :
    (Script.ofText line stdin).pieces = [⟨line, [Script.echo line], stdin⟩] := by
  have hne : line.toList ≠ [] := by
    intro hn
    apply h.words_ne_nil
    unfold Text.words
    rw [hn]
    rfl
  have hc : ∀ c ∈ line.toList, (c == '\n' || c == ';') = false := by
    intro c hc
    rw [Bool.or_eq_false_iff, beq_eq_false_iff_ne, beq_eq_false_iff_ne]
    constructor
    · rintro rfl
      exact h.newline hc
    · rintro rfl
      exact h.semicolon hc
  have hs : line.toList.splitOnP (fun c => c == '\n' || c == ';') = [line.toList] :=
    List.splitOnP_eq_singleton hc
  have hp := map_fst_allPieces (fun c => c == '\n' || c == ';') line.toList
  rw [hs, withoutEmptyEnd, List.isEmpty_eq_false_iff.mpr hne] at hp
  obtain ⟨q, hq, hl⟩ := List.map_eq_singleton_iff.mp hp
  unfold Script.ofText
  dsimp only
  rw [hq, List.map_singleton, hl, String.ofList_toList]

end PlaceCommand

/-- The place that an answer is about. -/
def Notice.place? : Notice → Option Nat
  | cell a _ | cellWritten a | counterMoved a | sourceLine a _ | noSourceLine a | breakpointAdded a
  | breakpointExists a | breakpointRemoved a | breakpointAbsent a => some a
  | _ => none

/-- The places that answers are about. -/
def namedPlaces (es : List Event) : List Nat :=
  es.filterMap fun
    | .notice n => n.place?
    | _ => none

/-- A command is not understood, or the label in it is unknown. -/
def Refusal : Event → Prop
  | .notice (.notUnderstood _) | .notice (.labelUnknown _) => True
  | _ => False

namespace Session

variable {s : Session} {k : PlaceCommand} {place : Location} {w line : String} {a : Nat}

/-- The place that a location means. -/
def address? (s : Session) : Location → Option Nat
  | .address a => some a
  | .counter => some s.counter
  | .label name => s.program.symbols.get? name

theorem answer_eq (s : Session) (k : PlaceCommand) (place : Location) :
    s.answer (k.command place) =
      s.atPlace place fun a => s.answer (k.command (.address a)) := by
  cases k <;> rfl

/-- A label is found before the command is answered as with its address. -/
theorem answer_of_address? (h : s.address? place = some a) :
    ∃ ns, namedPlaces (ns.map .notice) = [] ∧
      s.answer (k.command place) =
        ((s.answer (k.command (.address a))).1, ns ++ (s.answer (k.command (.address a))).2) := by
  rw [answer_eq]
  cases place with
  | address b =>
    obtain rfl := Option.some.inj h
    exact ⟨[], rfl, rfl⟩
  | counter =>
    obtain rfl := Option.some.inj h
    exact ⟨[], rfl, rfl⟩
  | label name =>
    have hn : s.program.symbols.get? name = some a := h
    refine ⟨[.labelAt name a], rfl, ?_⟩
    unfold atPlace
    dsimp only
    rw [hn]
    rfl

theorem answer_of_unknown (h : s.address? place = none) :
    ∃ name, s.answer (k.command place) = (s, [.labelUnknown name]) := by
  rw [answer_eq]
  cases place with
  | address b => contradiction
  | counter => contradiction
  | label name =>
    have hn : s.program.symbols.get? name = none := h
    refine ⟨name, ?_⟩
    unfold atPlace
    dsimp only
    rw [hn]

theorem namedPlaces_answer (s : Session) (k : PlaceCommand) (a : Nat) :
    namedPlaces ((s.answer (k.command (.address a))).2.map .notice) = [a] := by
  cases k with
  | read | write v | jump => rfl
  | breakAdd =>
    change namedPlaces [.notice (if (s.breakpoints.insert a).1 then _ else _)] = [a]
    split <;> rfl
  | breakRemove =>
    change namedPlaces [.notice (if (s.breakpoints.remove a).1 then _ else _)] = [a]
    split <;> rfl
  | source =>
    change namedPlaces [.notice (s.sourceNotice a)] = [a]
    unfold sourceNotice
    split <;> rfl

theorem announce_answer (s : Session) (k : PlaceCommand) (a : Nat) :
    (s.answer (k.command (.address a))).1.announce = s.announce := by
  cases k <;> rfl

/-- The place has been found, and the command has done with it what it does. -/
structure Finds (s : Session) (k : PlaceCommand) (a : Nat) (f : Finished) : Prop where
  session : f.session = (s.opened.answer (k.command (.address a))).1
  places : namedPlaces f.events = [a]

/-- The command has been turned down, and nothing has been done. -/
structure Refuses (s : Session) (f : Finished) : Prop where
  session : f.session = s.opened
  places : namedPlaces f.events = []
  refusal : ∃ e ∈ f.events, Refusal e

theorem Finds.unique {f : Finished} {b : Nat} (h : s.Finds k a f) (h' : s.Finds k b f) : a = b := by
  have hp := h.places
  rw [h'.places] at hp
  exact (List.cons.inj hp).1.symm

theorem Finds.not_refuses {f : Finished} (h : s.Finds k a f) : ¬s.Refuses f := by
  intro h'
  have hp := h.places
  rw [h'.places] at hp
  contradiction

/-- The place that a word names as an argument. -/
def wordAddress? (s : Session) (w : String) : Option Nat :=
  (readArgument "location" Argument.location w).toOption.bind s.address?

theorem namedPlaces_append (es es' : List Event) :
    namedPlaces (es ++ es') = namedPlaces es ++ namedPlaces es' :=
  List.filterMap_append

theorem namedPlaces_prompt (s : Session) : namedPlaces s.prompt.2 = [] := by
  unfold prompt
  dsimp only
  split <;> rfl

theorem follow_of_error {limit : Nat} {script : Script} {p : Piece} {ps : List Piece}
    {fault : CommandError} (hn : Text.words p.text ≠ [])
    (h : Command.ofWords (Text.words p.text) = .error fault) :
    s.follow limit script (p :: ps) =
      (s.follow limit script ps).after (p.shown ++ [.notice (.notUnderstood fault)]) := by
  rw [follow]
  split
  · next hw => exact absurd hw hn
  · rw [h]

theorem follow_of_ok {limit : Nat} {script : Script} {p : Piece} {ps : List Piece} {c : Command}
    (hn : Text.words p.text ≠ []) (h : Command.ofWords (Text.words p.text) = .ok c)
    (ha : c.action? = none) :
    s.follow limit script (p :: ps) =
      ((s.carryOut limit c).1.prompt.1.follow limit script ps).after
        (p.shown ++ (s.carryOut limit c).2 ++ (s.carryOut limit c).1.prompt.2) := by
  rw [follow]
  split
  · next hw => exact absurd hw hn
  · rw [h]
    dsimp only
    rw [ha]

theorem carryOut_place (limit : Nat) (s : Session) (k : PlaceCommand) (place : Location) :
    s.carryOut limit (k.command place) =
      ((s.answer (k.command place)).1, (s.answer (k.command place)).2.map .notice) := by
  cases k <;> rfl

variable {f : Finished} {before es : List Event}

theorem Finds.after (h : s.Finds k a f) (hb : namedPlaces before = []) :
    s.Finds k a (f.after before) where
  session := h.session
  places := by
    unfold Finished.after
    dsimp only
    rw [namedPlaces_append, hb, h.places]
    rfl

theorem Refuses.after (h : s.Refuses f) (hb : namedPlaces before = []) :
    s.Refuses (f.after before) where
  session := h.session
  places := by
    unfold Finished.after
    dsimp only
    rw [namedPlaces_append, hb, h.places]
    rfl
  refusal := by
    obtain ⟨e, he, hr⟩ := h.refusal
    exact ⟨e, List.mem_append_right before he, hr⟩

/-- A session that is left as it is when its script ends. -/
theorem refuses_at_end (limit : Nat) (line : String) (stdin : List UInt8) (hp : namedPlaces es = [])
    (hr : ∃ e ∈ es, Refusal e) :
    s.Refuses ((s.opened.follow limit (Script.ofText line stdin) []).after es) := by
  have he : ((s.opened.follow limit (Script.ofText line stdin) []).after es).events = es :=
    List.append_nil es
  refine ⟨rfl, ?_, ?_⟩
  · rw [he]
    exact hp
  · rw [he]
    exact hr

/-- What a session is told in a single line, behind its first prompt. -/
theorem run_of_line (limit : Nat) (s : Session) (stdin : List UInt8) (h : k.Asks w line) :
    ∃ before, namedPlaces before = [] ∧
      s.run limit (Script.ofText line stdin) =
        (s.opened.follow limit (Script.ofText line stdin)
          [⟨line, [Script.echo line], stdin⟩]).after before := by
  refine ⟨_, namedPlaces_prompt { s with initialInbox := s.computer.inbox }, ?_⟩
  unfold run
  dsimp only
  rw [h.pieces]
  rfl

theorem follow_refuses_error (limit : Nat) (s : Session) (stdin : List UInt8) (h : k.Asks w line)
    {fault : ArgumentError}
    (hr : readArgument "location" Argument.location w = .error fault) :
    s.Refuses (s.opened.follow limit (Script.ofText line stdin)
      [⟨line, [Script.echo line], stdin⟩]) := by
  have hw := h.ofWords
  rw [hr] at hw
  rw [follow_of_error (p := ⟨line, [Script.echo line], stdin⟩) h.words_ne_nil hw]
  apply refuses_at_end
  · rfl
  · exact ⟨_, List.mem_append_right _ (List.mem_singleton_self _), trivial⟩

/-- The session behind a command about a place. -/
theorem follow_place (limit : Nat) (s : Session) (stdin : List UInt8) (h : k.Asks w line)
    {place : Location} (hr : readArgument "location" Argument.location w = .ok place) :
    s.follow limit (Script.ofText line stdin) [⟨line, [Script.echo line], stdin⟩] =
      ((s.answer (k.command place)).1.prompt.1.follow limit (Script.ofText line stdin) []).after
        ([Script.echo line] ++ (s.answer (k.command place)).2.map .notice ++
          (s.answer (k.command place)).1.prompt.2) := by
  have hw := h.ofWords
  rw [hr] at hw
  have ha : (k.command place).action? = none := by cases k <;> rfl
  rw [follow_of_ok (p := ⟨line, [Script.echo line], stdin⟩) h.words_ne_nil hw ha, carryOut_place]

theorem follow_refuses_unknown (limit : Nat) (s : Session) (stdin : List UInt8)
    (h : k.Asks w line) (hr : readArgument "location" Argument.location w = .ok place)
    (hp : s.opened.address? place = none) :
    s.Refuses (s.opened.follow limit (Script.ofText line stdin)
      [⟨line, [Script.echo line], stdin⟩]) := by
  obtain ⟨name, hans⟩ := answer_of_unknown (k := k) hp
  rw [follow_place limit s.opened stdin h hr, hans]
  apply refuses_at_end
  · rfl
  · refine ⟨.notice (.labelUnknown name), ?_, trivial⟩
    simp

theorem follow_finds (limit : Nat) (s : Session) (stdin : List UInt8) (h : k.Asks w line)
    (hr : readArgument "location" Argument.location w = .ok place)
    (hp : s.opened.address? place = some a) :
    s.Finds k a (s.opened.follow limit (Script.ofText line stdin)
      [⟨line, [Script.echo line], stdin⟩]) := by
  obtain ⟨ns, hns, hans⟩ := answer_of_address? (k := k) hp
  have hq : ∀ s' : Session, s'.announce = false → s'.prompt.1 = s' := by
    rintro ⟨program, source, inbox, breakpoints, announce, computer⟩ rfl
    rfl
  have hs := hq _ (announce_answer s.opened k a)
  rw [follow_place limit s.opened stdin h hr, hans]
  constructor
  · exact hs
  · change namedPlaces (([Script.echo line] ++ _ ++ _) ++ []) = [a]
    rw [List.append_nil, namedPlaces_append, namedPlaces_append, namedPlaces_prompt,
      List.map_append, namedPlaces_append, hns, namedPlaces_answer]
    rfl

/-- A session given nothing but one line that asks for a place either finds it or refuses it. -/
theorem run_asks (limit : Nat) (s : Session) (stdin : List UInt8) (h : k.Asks w line) :
    (∃ a, s.wordAddress? w = some a ∧ s.Finds k a (s.run limit (Script.ofText line stdin))) ∨
      (s.wordAddress? w = none ∧ s.Refuses (s.run limit (Script.ofText line stdin))) := by
  obtain ⟨before, hb, hrun⟩ := run_of_line limit s stdin h
  rw [hrun]
  unfold wordAddress?
  cases hr : readArgument "location" Argument.location w with
  | error fault => exact .inr ⟨rfl, (follow_refuses_error limit s stdin h hr).after hb⟩
  | ok place =>
    have hopened : s.opened.address? place = s.address? place := by cases place <;> rfl
    cases hp : s.address? place with
    | none =>
      rw [hp] at hopened
      exact .inr ⟨hp, (follow_refuses_unknown limit s stdin h hr hopened).after hb⟩
    | some a =>
      rw [hp] at hopened
      exact .inl ⟨a, hp, (follow_finds limit s stdin h hr hopened).after hb⟩

theorem refuses_of_wordAddress? {limit : Nat} {stdin : List UInt8} (h : k.Asks w line)
    (hn : s.wordAddress? w = none) : s.Refuses (s.run limit (Script.ofText line stdin)) := by
  rcases run_asks limit s stdin h with ⟨a, ha, -⟩ | ⟨-, hr⟩
  · rw [hn] at ha
    contradiction
  · exact hr

end Session

end LittleMan.Debugger
