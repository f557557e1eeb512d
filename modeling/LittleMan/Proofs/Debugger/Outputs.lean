import Mathlib.Data.List.DropRight
import LittleMan.Execution
import LittleMan.Proofs.PlainRun.Cycles
import LittleMan.Proofs.ValueLines

/-! Outputs are shown once each: whatever the debugger is told, the values in its transcript, and in
what is printed of it, are those that output instructions have emitted, and the outbox has those
since the last reset. -/
namespace LittleMan.Debugger

/-- What there is to tell of a debugged computer: the machine at which each cycle begins, and when
all was put back. -/
inductive Happening
  | cycle (m : Machine)
  | reset

namespace Happening

def emits? : Happening → Option Int
  | cycle m => m.emits?
  | reset => none

def isCycle : Happening → Bool
  | cycle _ => true
  | reset => false

end Happening

/-- The values that have been emitted. -/
def emitted (past : List Happening) : List Int := past.filterMap Happening.emits?

/-- What has happened since the last reset, or since the start. -/
def sinceReset (past : List Happening) : List Happening := past.rtakeWhile Happening.isCycle

variable {past : List Happening} {ms : List Machine} {limit : Nat} {s : Session} {c : Command}

@[simp] theorem emitted_append (past past' : List Happening) :
    emitted (past ++ past') = emitted past ++ emitted past' := List.filterMap_append

@[simp] theorem emitted_cycles (ms : List Machine) :
    emitted (ms.map .cycle) = ms.filterMap Machine.emits? := by
  unfold emitted
  rw [List.filterMap_map]
  rfl

theorem sinceReset_append_cycles (past : List Happening) (ms : List Machine) :
    sinceReset (past ++ ms.map .cycle) = sinceReset past ++ ms.map .cycle := by
  induction ms using List.reverseRecOn with
  | nil => simp
  | append_singleton ms m ih =>
    rw [List.map_append, ← List.append_assoc, ← List.append_assoc, ← ih]
    exact List.rtakeWhile_concat_pos _ _ _ rfl

theorem sinceReset_append_reset (past : List Happening) : sinceReset (past ++ [.reset]) = [] :=
  List.rtakeWhile_concat_neg _ _ _ Bool.false_ne_true

namespace Session

/-- What happens when a command is carried out. -/
def happening (limit : Nat) (s : Session) : Command → List Happening
  | .step count => (s.computer.cycles (s.computer.run s.breakpoints count)).map .cycle
  | .proceed => (s.computer.cycles (s.computer.run s.breakpoints limit)).map .cycle
  | .reset => [.reset]
  | _ => []

theorem values_runCycles (s : Session) (limit : Nat) :
    shownValues (s.runCycles limit).2.2 =
      (s.computer.cycles (s.computer.run s.breakpoints limit)).filterMap Machine.emits? := by
  rw [← Computer.newOutputs_run]
  unfold runCycles runEvents
  simp

theorem outbox_runCycles (s : Session) (limit : Nat) :
    (s.runCycles limit).2.1.computer.outbox.toList = s.computer.outbox.toList ++
      (s.computer.cycles (s.computer.run s.breakpoints limit)).filterMap Machine.emits? := by
  rw [← Computer.newOutputs_run]
  exact (Computer.reaches_runOn s.breakpoints 0 limit s.computer).outbox

theorem outbox_atPlace {place : Location} {act : Nat → Session × List Notice}
    (h : ∀ a, (act a).1.computer.outbox = s.computer.outbox) :
    (s.atPlace place act).1.computer.outbox = s.computer.outbox := by
  cases place with
  | address a => exact h a
  | counter => exact h s.counter
  | label name =>
    unfold atPlace
    dsimp only
    cases s.program.symbols.get? name with
    | none => rfl
    | some a => exact h a

/-- Only a reset takes anything out of the outbox. -/
theorem outbox_answer (hc : c ≠ .reset) : (s.answer c).1.computer.outbox = s.computer.outbox := by
  cases c with
  | reset => contradiction
  | breakAdd place => exact outbox_atPlace fun a => rfl
  | breakRemove place => exact outbox_atPlace fun a => rfl
  | read place => exact outbox_atPlace fun a => rfl
  | write place v => exact outbox_atPlace fun a => rfl
  | jump place => exact outbox_atPlace fun a => rfl
  | source place => exact outbox_atPlace fun a => rfl
  | _ => rfl

/-- A command runs some cycles, none perhaps, and shows what they put into the outbox, or it empties
the outbox and shows no value. -/
theorem carryOut_cases (limit : Nat) (s : Session) (c : Command) :
    (∃ ms : List Machine, s.happening limit c = ms.map .cycle ∧
      shownValues (s.carryOut limit c).2 = ms.filterMap Machine.emits? ∧
      (s.carryOut limit c).1.computer.outbox.toList =
        s.computer.outbox.toList ++ ms.filterMap Machine.emits?) ∨
    (s.happening limit c = [.reset] ∧ shownValues (s.carryOut limit c).2 = [] ∧
      (s.carryOut limit c).1.computer.outbox.toList = []) := by
  have hanswer : ∀ h : c ≠ .reset, shownValues ((s.answer c).2.map .notice) = [] ∧
      (s.answer c).1.computer.outbox.toList = s.computer.outbox.toList ++ [] := by
    intro h
    rw [outbox_answer h, List.append_nil]
    exact ⟨shownValues_map_notice _, rfl⟩
  cases c with
  | step count =>
    exact .inl ⟨_, rfl, values_runCycles s count, outbox_runCycles s count⟩
  | proceed =>
    refine .inl ⟨_, rfl, ?_, outbox_runCycles s limit⟩
    rw [← values_runCycles]
    unfold carryOut
    dsimp only
    split <;> simp
  | reset => exact .inr ⟨rfl, rfl, rfl⟩
  | _ => exact .inl ⟨[], rfl, hanswer (by simp)⟩

end Session

/-- A session at a prompt. -/
structure Moment where
  session : Session
  /-- All that has been shown. -/
  events : List Event
  /-- All that has happened. -/
  past : List Happening

namespace Moment

variable {m m' : Moment} {p : Piece} {ps : List Piece} {script : Script}

/-- The first prompt of a session. -/
def first (s : Session) : Moment :=
  let (s', prompted) := { s with initialInbox := s.computer.inbox }.prompt
  ⟨s', prompted, []⟩

/-- The prompt behind a piece of the script that holds a command. -/
def behind (limit : Nat) (m : Moment) (p : Piece) (c : Command) : Moment where
  session := (m.session.carryOut limit c).1.prompt.1
  events := m.events ++
    (p.shown ++ (m.session.carryOut limit c).2 ++ (m.session.carryOut limit c).1.prompt.2)
  past := m.past ++ m.session.happening limit c

/-- The prompt behind any piece of the script, unless that ends the session. -/
def next? (limit : Nat) (m : Moment) (p : Piece) : Option Moment :=
  match Text.words p.text with
  | [] => some { m with events := m.events ++ p.shown }
  | ws =>
    match Command.ofWords ws with
    | .error fault =>
      some { m with events := m.events ++ (p.shown ++ [.notice (.notUnderstood fault)]) }
    | .ok c => if c.action?.isSome then none else some (m.behind limit p c)

/-- All prompts of a session, beginning with this one. -/
def prompts (limit : Nat) (m : Moment) : List Piece → List Moment
  | [] => [m]
  | p :: ps =>
    match m.next? limit p with
    | some m' => m :: m'.prompts limit ps
    | none => [m]

/-- The last of them. -/
def last (limit : Nat) (m : Moment) : List Piece → Moment
  | [] => m
  | p :: ps =>
    match m.next? limit p with
    | some m' => m'.last limit ps
    | none => m

/-- Just the values that have been emitted are shown, and those since the last reset are in the
outbox. -/
structure Tells (m : Moment) : Prop where
  values : shownValues m.events = emitted m.past
  outbox : m.session.computer.outbox.toList = emitted (sinceReset m.past)

theorem values_prompt (s : Session) : shownValues s.prompt.2 = [] := by
  unfold Session.prompt
  dsimp only
  split <;> rfl

theorem tells_first (h : s.computer.outbox = #[]) : (first s).Tells where
  values := values_prompt _
  outbox := congrArg Array.toList h

theorem Tells.behind (hm : m.Tells) (hp : shownValues p.shown = []) (limit : Nat) (c : Command) :
    (m.behind limit p c).Tells := by
  have hq := values_prompt (m.session.carryOut limit c).1
  have hv : shownValues (m.behind limit p c).events =
      shownValues m.events ++ shownValues (m.session.carryOut limit c).2 := by
    unfold Moment.behind
    simp only [shownValues_append, hp, hq, List.nil_append, List.append_nil]
  rw [hm.values] at hv
  rcases Session.carryOut_cases limit m.session c with ⟨ms, hh, hs, ho⟩ | ⟨hh, hs, ho⟩
  · have hpast : (m.behind limit p c).past = m.past ++ ms.map .cycle := congrArg (m.past ++ ·) hh
    refine ⟨?_, ?_⟩
    · rw [hv, hs, hpast, emitted_append, emitted_cycles]
    · rw [hpast, sinceReset_append_cycles, emitted_append, emitted_cycles, ← hm.outbox]
      exact ho
  · have hpast : (m.behind limit p c).past = m.past ++ [.reset] := congrArg (m.past ++ ·) hh
    refine ⟨?_, ?_⟩
    · rw [hv, hs, hpast, emitted_append]
      rfl
    · rw [hpast, sinceReset_append_reset]
      exact ho

/-- From one prompt to the next a session keeps telling the truth. -/
theorem Tells.next (hm : m.Tells) (hp : shownValues p.shown = []) (h : m.next? limit p = some m') :
    m'.Tells := by
  have hsame : ∀ es, shownValues es = [] → Tells { m with events := m.events ++ es } := by
    intro es hes
    refine ⟨?_, hm.outbox⟩
    rw [shownValues_append, hes, List.append_nil]
    exact hm.values
  unfold next? at h
  split at h
  · obtain rfl := Option.some.inj h
    exact hsame _ hp
  · split at h
    · obtain rfl := Option.some.inj h
      exact hsame _ (by rw [shownValues_append, hp]; rfl)
    · split at h
      · contradiction
      · obtain rfl := Option.some.inj h
        exact hm.behind hp limit _

theorem after_after (f : Session.Finished) (es es' : List Event) :
    (f.after es').after es = f.after (es ++ es') := by
  simp [Session.Finished.after]

/-- A piece is passed over, is no command, ends the session or leads to the next prompt. -/
theorem next?_cases (limit : Nat) (m : Moment) (p : Piece) :
    (Text.words p.text = [] ∧ m.next? limit p = some { m with events := m.events ++ p.shown }) ∨
    ∃ w ws, Text.words p.text = w :: ws ∧
      ((∃ fault, Command.ofWords (w :: ws) = .error fault ∧ m.next? limit p =
          some { m with events := m.events ++ (p.shown ++ [.notice (.notUnderstood fault)]) }) ∨
        ∃ c, Command.ofWords (w :: ws) = .ok c ∧
          ((∃ action, c.action? = some action ∧ m.next? limit p = none) ∨
            c.action? = none ∧ m.next? limit p = some (m.behind limit p c))) := by
  unfold next?
  cases hw : Text.words p.text with
  | nil => exact .inl ⟨rfl, rfl⟩
  | cons w ws =>
    refine .inr ⟨w, ws, rfl, ?_⟩
    dsimp only
    cases hc : Command.ofWords (w :: ws) with
    | error fault => exact .inl ⟨fault, rfl, rfl⟩
    | ok c =>
      refine .inr ⟨c, rfl, ?_⟩
      dsimp only
      cases ha : c.action? with
      | some action => exact .inl ⟨action, rfl, rfl⟩
      | none => exact .inr ⟨rfl, rfl⟩

/-- What follows a piece of the script that does not end the session. -/
theorem follow_of_next (h : m.next? limit p = some m') :
    (m.session.follow limit script (p :: ps)).after m.events =
      (m'.session.follow limit script ps).after m'.events := by
  rw [Session.follow]
  rcases next?_cases limit m p with ⟨hw, hn⟩ | ⟨w, ws, hw, ⟨fault, hc, hn⟩ |
    ⟨c, hc, ⟨action, ha, hn⟩ | ⟨ha, hn⟩⟩⟩
  · obtain rfl := Option.some.inj (hn.symm.trans h)
    rw [hw, after_after]
  · obtain rfl := Option.some.inj (hn.symm.trans h)
    rw [hw]
    dsimp only
    rw [hc]
    exact after_after _ _ _
  · rw [hn] at h
    contradiction
  · obtain rfl := Option.some.inj (hn.symm.trans h)
    rw [hw]
    dsimp only
    rw [hc]
    dsimp only
    rw [ha]
    exact after_after _ _ _

/-- A piece that ends the session leaves it as it is. -/
theorem follow_of_end (h : m.next? limit p = none) :
    (m.session.follow limit script (p :: ps)).session = m.session ∧
      (m.session.follow limit script (p :: ps)).events = p.shown := by
  rw [Session.follow]
  rcases next?_cases limit m p with ⟨-, hn⟩ | ⟨w, ws, hw, ⟨fault, -, hn⟩ |
    ⟨c, hc, ⟨action, ha, -⟩ | ⟨-, hn⟩⟩⟩
  · rw [hn] at h
    contradiction
  · rw [hn] at h
    contradiction
  · rw [hw]
    dsimp only
    rw [hc]
    dsimp only
    rw [ha]
    exact ⟨rfl, rfl⟩
  · rw [hn] at h
    contradiction

/-- The session comes by all its prompts, and tells the truth at each of them. -/
theorem of_mem_prompts (script : Script) (hm : m.Tells)
    (hp : ∀ p ∈ ps, shownValues p.shown = []) (h : m' ∈ m.prompts limit ps) :
    m'.Tells ∧ ∃ rest, rest <:+ ps ∧ (m.session.follow limit script ps).after m.events =
      (m'.session.follow limit script rest).after m'.events := by
  -- each prompt hands a true account on to the next, with the pieces that are left
  induction ps generalizing m with
  | nil =>
    obtain rfl := List.mem_singleton.mp h
    exact ⟨hm, [], List.suffix_refl _, rfl⟩
  | cons p ps ih =>
    have hself : m.Tells ∧ ∃ rest, rest <:+ p :: ps ∧
        (m.session.follow limit script (p :: ps)).after m.events =
          (m.session.follow limit script rest).after m.events :=
      ⟨hm, p :: ps, List.suffix_refl _, rfl⟩
    have hps : ∀ q ∈ ps, shownValues q.shown = [] := fun q hq => hp q (List.mem_cons_of_mem p hq)
    rw [prompts] at h
    cases hn : m.next? limit p with
    | none =>
      rw [hn] at h
      obtain rfl := List.mem_singleton.mp h
      exact hself
    | some q =>
      rw [hn] at h
      rcases List.mem_cons.mp h with rfl | h
      · exact hself
      · obtain ⟨ht, rest, hs, hf⟩ := ih (hm.next (hp p List.mem_cons_self) hn) hps h
        refine ⟨ht, rest, hs.trans (List.suffix_cons p ps), ?_⟩
        rw [follow_of_next hn, hf]

theorem last_mem_prompts (limit : Nat) (m : Moment) (ps : List Piece) :
    m.last limit ps ∈ m.prompts limit ps := by
  induction ps generalizing m with
  | nil => exact List.mem_cons_self
  | cons p ps ih =>
    rw [last, prompts]
    cases m.next? limit p with
    | none => exact List.mem_cons_self
    | some q => exact List.mem_cons_of_mem m (ih q)

/-- Behind the last prompt no value is shown any more. -/
theorem values_follow (hp : ∀ p ∈ ps, shownValues p.shown = [])
    (he : shownValues script.shownAtEnd = []) :
    shownValues ((m.session.follow limit script ps).after m.events).events =
      shownValues (m.last limit ps).events := by
  induction ps generalizing m with
  | nil =>
    change shownValues (m.events ++ script.shownAtEnd) = shownValues m.events
    rw [shownValues_append, he, List.append_nil]
  | cons p ps ih =>
    have hps : ∀ q ∈ ps, shownValues q.shown = [] := fun q hq => hp q (List.mem_cons_of_mem p hq)
    rw [last]
    cases hn : m.next? limit p with
    | none =>
      change shownValues (m.events ++ (m.session.follow limit script (p :: ps)).events) = _
      rw [(follow_of_end hn).2, shownValues_append, hp p List.mem_cons_self, List.append_nil]
    | some q =>
      rw [follow_of_next hn]
      exact ih hps

end Moment

/-- Reading the script shows no values. -/
structure Script.Quiet (script : Script) : Prop where
  pieces : ∀ p ∈ script.pieces, shownValues p.shown = []
  atEnd : shownValues script.shownAtEnd = []

namespace Script

theorem quiet_ofText (text : String) (stdin : List UInt8) : (ofText text stdin).Quiet := by
  refine ⟨fun p hp => ?_, rfl⟩
  obtain ⟨q, -, rfl⟩ := List.mem_map.mp hp
  rfl

theorem quiet_ofPipe (stdin : List UInt8) : (ofPipe stdin).Quiet := by
  refine ⟨fun p hp => ?_, rfl⟩
  obtain ⟨q, -, rfl⟩ := List.mem_map.mp hp
  rfl

theorem Quiet.showFirst {script : Script} (h : script.Quiet) {e : Event} (he : e.value? = none) :
    (script.showFirst e).Quiet := by
  have hcons : ∀ es, shownValues es = [] → shownValues (e :: es) = [] := by
    intro es hes
    rw [shownValues, List.filterMap_cons_none he]
    exact hes
  unfold Script.showFirst
  cases hs : script.pieces with
  | nil => exact ⟨by simp, hcons _ h.atEnd⟩
  | cons p ps =>
    have hp := h.pieces
    rw [hs] at hp
    refine ⟨fun q hq => ?_, h.atEnd⟩
    rcases List.mem_cons.mp hq with rfl | hq
    · exact hcons _ (hp p List.mem_cons_self)
    · exact hp q (List.mem_cons_of_mem p hq)

theorem Quiet.addLine {script : Script} (h : script.Quiet) (line : String) (left : List UInt8) :
    (script.addLine line left).Quiet := by
  refine ⟨fun p hp => ?_, h.atEnd⟩
  rcases List.mem_append.mp hp with hp | hp
  · obtain ⟨q, -, rfl⟩ := List.mem_map.mp hp
    rfl
  · exact h.pieces p hp

theorem quiet_ofTyped (stdin : List UInt8) : (ofTyped stdin).Quiet := by
  fun_induction ofTyped stdin with
  | case1 stdin line script ih =>
    have hs : script.Quiet := by
      unfold script
      split
      · exact ⟨by simp, rfl⟩
      · next rest hr =>
        split
        · exact ih rest hr
        · exact (ih rest hr).addLine line.text rest
    exact hs.showFirst rfl

end Script

end LittleMan.Debugger

namespace LittleMan

open Debugger

theorem StandardInput.quiet_input (i : StandardInput) :
    Input.Quiet i.input.shownAtEnd i.input.lines := by
  unfold StandardInput.input
  split
  · exact Input.quiet_ofTyped i.bytes
  · exact Input.quiet_ofPipe i.bytes

namespace Job

variable {j : Job} {commands : Option String}

theorem quiet_script (j : Job) (commands : Option String) : (j.script commands).Quiet := by
  cases commands with
  | some text => exact Script.quiet_ofText text j.stdin.bytes
  | none =>
    change j.stdin.script.Quiet
    unfold StandardInput.script
    split
    · exact Script.quiet_ofTyped j.stdin.bytes
    · exact Script.quiet_ofPipe j.stdin.bytes

/-- The prompts of a debugged program. -/
def prompts (j : Job) (commands : Option String) : List Moment :=
  (Moment.first j.session).prompts j.settings.stepLimit (j.script commands).pieces

/-- The cycles of the run that follows when the debugger is stopped. -/
def cyclesAfter (j : Job) (f : Session.Finished) : List Machine :=
  match f.action with
  | .exitProgram => []
  | .stopDebugger =>
    let input := StandardInput.input { j.stdin with bytes := f.stdin }
    (PlainRun.begin input f.session.computer).cycles j.settings input.shownAtEnd

/-- All that happens to a debugged program, up to the end of the run that follows. -/
def past (j : Job) (commands : Option String) : List Happening :=
  let last := (Moment.first j.session).last j.settings.stepLimit (j.script commands).pieces
  let f := j.session.run j.settings.stepLimit (j.script commands)
  last.past ++ (j.cyclesAfter f).map .cycle

theorem values_debug (j : Job) (commands : Option String) :
    shownValues (j.debug commands).events =
      shownValues (j.session.run j.settings.stepLimit (j.script commands)).events ++
        (j.cyclesAfter (j.session.run j.settings.stepLimit (j.script commands))).filterMap
          Machine.emits? := by
  unfold debug cyclesAfter Debugged.events
  dsimp only
  cases ha : (j.session.run j.settings.stepLimit (j.script commands)).action with
  | exitProgram => exact shownValues_append _ _
  | stopDebugger =>
    dsimp only
    rw [shownValues_append]
    congr 1
    exact PlainRun.values_run _ _ (StandardInput.quiet_input _)

/-- Whatever the debugger is told, and with the run that follows, the values that are shown are
those that output instructions have emitted, in order, each of them once. At every prompt that the
session comes by these are the values so far, and the outbox holds those since the last reset. In
every style the same values can be read off what is printed: on the output stream each of them is a
text of its own with the end of its line, and nothing else there looks like one. -/
theorem debug_outputs (j : Job) (commands : Option String) :
    (∀ m ∈ j.prompts commands,
      (∃ rest, rest <:+ (j.script commands).pieces ∧
        j.session.run j.settings.stepLimit (j.script commands) =
          (m.session.follow j.settings.stepLimit (j.script commands) rest).after m.events) ∧
      shownValues m.events = emitted m.past ∧
      (∀ st vs, Shows st ((Terminal.Screen.fresh st).present m.events).2 vs ↔
        vs = emitted m.past) ∧
      m.session.computer.outbox.toList = emitted (sinceReset m.past)) ∧
    shownValues (j.debug commands).events = emitted (j.past commands) ∧
    ∀ st vs, Shows st ((Terminal.Screen.fresh st).present (j.debug commands).events).2 vs ↔
      vs = emitted (j.past commands) := by
  have hq := j.quiet_script commands
  have hfirst : (Moment.first j.session).Tells := Moment.tells_first rfl
  have hprinted : ∀ st es vs, Shows st ((Terminal.Screen.fresh st).present es).2 vs ↔
      vs = shownValues es := fun st es vs => Terminal.Screen.shows_present_iff (.fresh st) es vs
  have hvalues : shownValues (j.debug commands).events = emitted (j.past commands) := by
    have hlast := Moment.last_mem_prompts j.settings.stepLimit (Moment.first j.session)
      (j.script commands).pieces
    obtain ⟨ht, -⟩ := Moment.of_mem_prompts (j.script commands) hfirst hq.pieces hlast
    have hf : shownValues (j.session.run j.settings.stepLimit (j.script commands)).events = _ :=
      Moment.values_follow (m := .first j.session) hq.pieces hq.atEnd
    rw [values_debug, hf, ht.values, past, emitted_append, emitted_cycles]
  refine ⟨?_, hvalues, ?_⟩
  · intro m hm
    obtain ⟨ht, rest, hs, hf⟩ := Moment.of_mem_prompts (j.script commands) hfirst hq.pieces hm
    refine ⟨⟨rest, hs, hf⟩, ht.values, ?_, ht.outbox⟩
    intro st vs
    rw [hprinted, ht.values]
  · intro st vs
    rw [hprinted, hvalues]

/-- Emits a number and its double. -/
def doubler : Job where
  program := { words := [505, 902, 105, 902, 0, 7] }
  stdin := ⟨[], false⟩
  settings := .standard

theorem debug_outputs_doubler :
    (doubler.prompts (some "step 2; reset; continue; exit")).map
        (fun m => m.session.computer.outbox.toList) = [[], [7], [], [7, 14]] ∧
      shownValues (doubler.debug (some "step 2; reset; continue; exit")).events = [7, 7, 14] ∧
      ∀ st, Shows st ((Terminal.Screen.fresh st).present
        (doubler.debug (some "step 2; reset; continue; exit")).events).2 [7, 7, 14] := by
  have hpast : emitted (doubler.past (some "step 2; reset; continue; exit")) = [7, 7, 14] := by
    decide +kernel
  obtain ⟨-, hvalues, hprinted⟩ :=
    debug_outputs doubler (some "step 2; reset; continue; exit")
  refine ⟨by decide +kernel, hvalues.trans hpast, ?_⟩
  intro st
  rw [hprinted, hpast]

end Job

end LittleMan
