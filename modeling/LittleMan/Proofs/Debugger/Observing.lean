import LittleMan.Execution
import LittleMan.Proofs.PlainRun

/-! Debugging without interference: a session that only runs cycles and looks at the computer leaves
the program to end as it would have ended without the debugger. -/
namespace LittleMan.Debugger

/-- Leaves a computer alone, cycles that it runs apart. A place with an unknown label is only
reported. -/
def Command.Observes (symbols : SymbolTable) : Command → Prop
  | .write place _ | .jump place => ∃ name, place = .label name ∧ symbols.get? name = none
  | .input _ | .reset | .exit => False
  | _ => True

theorem Command.Observes.action {symbols : SymbolTable} {c : Command} {action : Action}
    (h : c.Observes symbols) (ha : c.action? = some action) : action = .stopDebugger := by
  cases c with
  | quit => exact (Option.some.inj ha).symm
  | exit => exact h.elim
  | _ => contradiction

/-- A piece of a script that is read without a value being shown and, if it is a command, only
observes. -/
structure Piece.Observes (symbols : SymbolTable) (stdin : List UInt8) (p : Piece) : Prop where
  command : ∀ c, Command.ofLine p.text = .ok c → c.Observes symbols
  shown : shownValues p.shown = []
  left : p.left = stdin

/-- The commands of a text, blank pieces and misunderstood ones left out. -/
def commands (text : String) : List Command :=
  (Script.ofText text []).pieces.filterMap fun p => (Command.ofLine p.text).toOption

namespace Session

variable {s s' s'' : Session} {events events' : List Event}

/-- From one state of a session to another some cycles have run, and just the values they emit have
been shown. -/
structure Advances (s : Session) (events : List Event) (s' : Session) : Prop where
  program : s'.program = s.program
  reaches : s.computer.Reaches s'.computer
  values : shownValues events = s.computer.newOutputs s'.computer

namespace Advances

theorem trans (h : Advances s events s') (h' : Advances s' events' s'') :
    Advances s (events ++ events') s'' where
  program := h'.program.trans h.program
  reaches := h.reaches.trans h'.reaches
  values := by
    rw [shownValues_append, h.values, h'.values, h.reaches.newOutputs_append h'.reaches]

/-- Nothing happens to the computer, and no value is shown. -/
theorem of_eq (hp : s'.program = s.program) (hc : s'.computer = s.computer)
    (hv : shownValues events = []) : Advances s events s' where
  program := hp
  reaches := by rw [hc]; exact .refl _
  values := by rw [hc, hv, Computer.newOutputs_self]

theorem prompt (s : Session) : Advances s s.prompt.2 s.prompt.1 := by
  refine of_eq rfl rfl ?_
  unfold Session.prompt
  dsimp only
  split <;> rfl

theorem runCycles (s : Session) (limit : Nat) :
    Advances s (s.runCycles limit).2.2 (s.runCycles limit).2.1 where
  program := rfl
  reaches := Computer.reaches_runOn _ _ _ _
  values := by
    unfold Session.runCycles runEvents
    simp

end Advances

/-- What is done at a place keeps the computer, if it keeps it at every address. -/
theorem atPlace_keeps {place : Location} {act : Nat → Session × List Notice}
    (h : ∀ a, (act a).1.program = s.program ∧ (act a).1.computer = s.computer) :
    (s.atPlace place act).1.program = s.program ∧ (s.atPlace place act).1.computer = s.computer := by
  cases place with
  | address a => exact h a
  | counter => exact h s.counter
  | label name =>
    unfold atPlace
    dsimp only
    split
    · exact ⟨rfl, rfl⟩
    · exact h _

theorem atPlace_keeps_of_unknown {name : String} {act : Nat → Session × List Notice}
    (h : s.program.symbols.get? name = none) :
    (s.atPlace (.label name) act).1.program = s.program ∧
      (s.atPlace (.label name) act).1.computer = s.computer := by
  unfold atPlace
  dsimp only
  rw [h]
  exact ⟨rfl, rfl⟩

theorem answer_keeps {c : Command} (h : c.Observes s.program.symbols) :
    (s.answer c).1.program = s.program ∧ (s.answer c).1.computer = s.computer := by
  cases c with
  | breakAdd place => exact atPlace_keeps fun a => ⟨rfl, rfl⟩
  | breakRemove place => exact atPlace_keeps fun a => ⟨rfl, rfl⟩
  | read place => exact atPlace_keeps fun a => ⟨rfl, rfl⟩
  | source place => exact atPlace_keeps fun a => ⟨rfl, rfl⟩
  | write place v =>
    obtain ⟨name, rfl, hn⟩ := h
    exact atPlace_keeps_of_unknown hn
  | jump place =>
    obtain ⟨name, rfl, hn⟩ := h
    exact atPlace_keeps_of_unknown hn
  | input v => exact h.elim
  | reset => exact h.elim
  | _ => exact ⟨rfl, rfl⟩

theorem advances_carryOut {c : Command} (limit : Nat) (h : c.Observes s.program.symbols) :
    Advances s (s.carryOut limit c).2 (s.carryOut limit c).1 := by
  have ha : Advances s ((s.answer c).2.map .notice) (s.answer c).1 := by
    obtain ⟨hp, hc⟩ := answer_keeps h
    exact .of_eq hp hc (shownValues_map_notice _)
  cases c with
  | step count => exact .runCycles s count
  | proceed =>
    obtain ⟨hp, hr, hv⟩ := Advances.runCycles s limit
    refine ⟨hp, hr, ?_⟩
    unfold carryOut
    dsimp only
    rw [← hv]
    split <;> simp
  | _ => exact ha

/-- The debugger is stopped in the end, has not read standard input and has advanced the session. -/
structure Finished.Observed (s : Session) (stdin : List UInt8) (f : Finished) : Prop where
  action : f.action = .stopDebugger
  stdin : f.stdin = stdin
  advances : Advances s f.events f.session

theorem Finished.Observed.after {stdin : List UInt8} {f : Finished} (h : f.Observed s' stdin)
    (ha : Advances s events s') : (f.after events).Observed s stdin where
  action := h.action
  stdin := h.stdin
  advances := ha.trans h.advances

theorem follow_observed {script : Script} {stdin : List UInt8} (limit : Nat) (ps : List Piece)
    (h : ∀ p ∈ ps, Piece.Observes s.program.symbols stdin p)
    (he : shownValues script.shownAtEnd = []) (hl : script.leftAtEnd = stdin) :
    (s.follow limit script ps).Observed s stdin := by
  induction ps generalizing s with
  | nil => exact ⟨rfl, hl, .of_eq rfl rfl he⟩
  | cons p ps ih =>
    obtain ⟨hp, hv, hl'⟩ := h p List.mem_cons_self
    have hps : ∀ q ∈ ps, Piece.Observes s.program.symbols stdin q :=
      fun q hq => h q (List.mem_cons_of_mem p hq)
    have hs : Advances s p.shown s := .of_eq rfl rfl hv
    rw [follow]
    split
    · exact (ih hps).after hs
    · next ws hw =>
      split
      · exact (ih hps).after (hs.trans (.of_eq rfl rfl (shownValues_notice_cons _ [])))
      · next c hc =>
        have ho : c.Observes s.program.symbols := hp c hc
        split
        · next action ha =>
          exact ⟨ho.action ha, hl', hs⟩
        · -- the program keeps its labels, so the pieces to come observe as they did before
          have hc' := advances_carryOut limit ho
          have hq := hc'.trans (.prompt _)
          have hp' : ∀ q ∈ ps, Piece.Observes (s.carryOut limit c).1.prompt.1.program.symbols stdin q := by
            rw [hq.program]
            exact hps
          have hf := (ih hp').after (hs.trans hq)
          rw [← List.append_assoc] at hf
          exact hf

theorem run_observed {script : Script} {stdin : List UInt8} (limit : Nat)
    (h : ∀ p ∈ script.pieces, Piece.Observes s.program.symbols stdin p)
    (he : shownValues script.shownAtEnd = []) (hl : script.leftAtEnd = stdin) :
    (s.run limit script).Observed s stdin := by
  have hq : Advances s [] { s with initialInbox := s.computer.inbox } := .of_eq rfl rfl rfl
  have hs := hq.trans (.prompt _)
  have hf := follow_observed (s := ({ s with initialInbox := s.computer.inbox } : Session).prompt.1)
    limit script.pieces h he hl
  exact hf.after hs

end Session

theorem Script.observes_ofText {symbols : SymbolTable} {text : String} (stdin : List UInt8)
    (h : ∀ c ∈ commands text, c.Observes symbols) :
    ∀ p ∈ (Script.ofText text stdin).pieces, Piece.Observes symbols stdin p := by
  intro p hp
  obtain ⟨q, hq, rfl⟩ := List.mem_map.mp hp
  refine ⟨fun c hc => h c ?_, rfl, rfl⟩
  exact List.mem_filterMap.mpr ⟨_, List.mem_map.mpr ⟨q, hq, rfl⟩, congrArg Except.toOption hc⟩

end LittleMan.Debugger

namespace LittleMan.Job

open Debugger

/-- The run that follows when the debugger is stopped with standard input unread. -/
theorem debug_of_stopDebugger {j : Job} {commands : Option String}
    (h : (j.session.run j.settings.stepLimit (j.script commands)).action = .stopDebugger)
    (hi : (j.session.run j.settings.stepLimit (j.script commands)).stdin = j.stdin.bytes) :
    j.debug commands =
      ⟨j.session.run j.settings.stepLimit (j.script commands),
        some (PlainRun.run j.settings j.stdin.input
          (j.session.run j.settings.stepLimit (j.script commands)).session.computer)⟩ := by
  unfold debug
  dsimp only
  rw [h, hi]

/-- A debugger that only runs cycles and looks at the computer changes nothing. The program ends as
it ends without the debugger, with the same computer, and shows the same values in the same order. -/
theorem debug_observing (j : Job) (text : String) (hd : j.settings.stepDelay = 0)
    (ho : ∀ c ∈ commands text, c.Observes j.program.symbols)
    (he : j.run.ending = .halted ∨ j.run.ending = .noInput) :
    ∃ r, (j.debug (some text)).rest = some r ∧ r.ending = j.run.ending ∧
      r.computer = j.run.computer ∧
      shownValues (j.debug (some text)).events = shownValues j.run.events := by
  have hr : ∀ n, j.run.ending ≠ .stepLimit n := by
    intro n hn
    rcases he with he | he <;> rw [hn] at he <;> contradiction
  have hp := Script.observes_ofText j.stdin.bytes ho
  have hf : (j.session.run j.settings.stepLimit (j.script (some text))).Observed j.session
      j.stdin.bytes := Session.run_observed _ hp rfl rfl
  obtain ⟨ha, hi, -, hc, hv⟩ := hf
  obtain ⟨h₁, h₂, h₃⟩ := PlainRun.runOn_finishes hd hc (Nat.le_refl 0) hr
  rw [debug_of_stopDebugger ha hi]
  refine ⟨_, rfl, h₁, h₂, ?_⟩
  unfold Debugged.events
  dsimp only
  rw [shownValues_append, hv]
  exact h₃

/-- Takes two values, one that is queued and one from standard input, and emits them. -/
def echoTwice : Job where
  program := { words := [901, 902, 901, 902, 0] }
  inputs := [5]
  stdin := ⟨[55, 10], false⟩
  settings := .standard

theorem ending_run_echoTwice : echoTwice.run.ending = .halted := by
  have hi : echoTwice.stdin.input = ⟨[⟨"7", []⟩], []⟩ := by decide +kernel
  have hn : Input.next [] [⟨"7", []⟩] = ([], some (7, [])) := by decide +kernel
  have h₁ : (PlainRun.leg echoTwice.settings 0 echoTwice.computer).stop = .waiting := by
    decide +kernel
  unfold run PlainRun.run
  rw [hi, PlainRun.runOn_eq, h₁]
  rw [hn]
  dsimp only
  rw [PlainRun.runOn_eq]
  decide +kernel

def watching : String := "step 2; set nowhere 1; break add 3\n; continue"

theorem debug_watching_echoTwice :
    ∃ r, (echoTwice.debug (some watching)).rest = some r ∧ r.ending = echoTwice.run.ending ∧
      r.computer = echoTwice.run.computer ∧
      shownValues (echoTwice.debug (some watching)).events = shownValues echoTwice.run.events := by
  have hc : commands watching =
      [.step 2, .write (.label "nowhere") 1, .breakAdd (.address 3), .proceed] := by
    decide +kernel
  have hw : echoTwice.program.symbols.get? "nowhere" = none := by decide
  have ho : ∀ c ∈ commands watching, c.Observes echoTwice.program.symbols := by
    simp [hc, Command.Observes, hw]
  exact debug_observing echoTwice watching rfl ho (.inl ending_run_echoTwice)

end LittleMan.Job
