import LittleMan.Proofs.Computer.Halted
import LittleMan.Proofs.Debugger.Idle
import LittleMan.Proofs.Debugger.Outputs

/-! A session whose machine has halted: no command but a reset makes it go on, and neither does the
run that follows. -/
namespace LittleMan

namespace Computer

variable {c : Computer}

theorem cycles_run_of_halted (h : c.machine.flag = .halted) (stops : Breakpoints) (limit : Nat) :
    c.cycles (c.run stops limit) = [] := by
  rw [run_of_halted stops limit h]
  rfl

end Computer

namespace PlainRun

variable {c : Computer}

theorem leg_of_halted (h : c.machine.flag = .halted) (settings : Settings) (executed : Nat) :
    leg settings executed c = ⟨.halted, 0, c⟩ :=
  Computer.run_of_halted .empty _ h

/-- A run of a machine that has halted is over at once. -/
theorem round_of_halted (h : c.machine.flag = .halted) (settings : Settings) (input : Input) :
    (begin input c).round settings input.shownAtEnd =
      .inl (stopped .halted 0 c (legEvents settings 0 c)) := by
  have hleg := leg_of_halted h settings 0
  unfold Pending.round overAfter begin
  dsimp only
  rw [hleg]
  rfl

theorem run_of_halted (h : c.machine.flag = .halted) (settings : Settings) (input : Input) :
    run settings input c = stopped .halted 0 c (legEvents settings 0 c) := by
  have hround := round_of_halted h settings input
  have houtcome := Pending.outcome_eq settings input.shownAtEnd (begin input c)
  rw [hround] at houtcome
  rw [← outcome_begin]
  exact houtcome

theorem cycles_of_halted (h : c.machine.flag = .halted) (settings : Settings) (input : Input) :
    (begin input c).cycles settings input.shownAtEnd = [] := by
  rw [Pending.cycles_of_end (round_of_halted h settings input)]
  exact Computer.cycles_run_of_halted h .empty _

end PlainRun

namespace Debugger

variable {limit : Nat} {s s' : Session} {c : Command}

namespace Session

/-- A command other than a reset does at most one thing to the computer. -/
theorem exists_acts_carryOut (limit : Nat) (s : Session) (hc : c ≠ .reset) :
    ∃ as, (s.carryOut limit c).1.computer = (s.computer.performAll as).1 := by
  have hnone : ∃ as, s.computer = (s.computer.performAll as).1 := ⟨[], rfl⟩
  have hplace : ∀ (place : Location) (act : Nat → Session × List Notice),
      (∀ a, ∃ as, (act a).1.computer = (s.computer.performAll as).1) →
        ∃ as, (s.atPlace place act).1.computer = (s.computer.performAll as).1 :=
    fun place act h =>
      atPlace_induction (P := fun s' => ∃ as, s'.computer = (s.computer.performAll as).1) hnone
        place h
  cases c with
  | reset => contradiction
  | step count => exact ⟨[.run s.breakpoints count], rfl⟩
  | proceed => exact ⟨[.run s.breakpoints limit], rfl⟩
  | input v => exact ⟨[.push v], rfl⟩
  | write place v => exact hplace place _ fun a => ⟨[.write a v], rfl⟩
  | jump place => exact hplace place _ fun a => ⟨[.jump a], rfl⟩
  | breakAdd place | breakRemove place | read place | source place =>
    exact hplace place _ fun a => hnone
  | _ => exact hnone

theorem happening_of_halted (h : s.computer.machine.flag = .halted) (limit : Nat)
    (hc : c ≠ .reset) : s.happening limit c = [] := by
  cases c with
  | reset => contradiction
  | step count => exact congrArg (List.map _) (Computer.cycles_run_of_halted h _ count)
  | proceed => exact congrArg (List.map _) (Computer.cycles_run_of_halted h _ limit)
  | _ => rfl

end Session

namespace Moment

variable {m m' : Moment} {p : Piece} {ps : List Piece} {script : Script} {i : Nat}

/-- Nothing has happened from one prompt to another, and the computer has rested. -/
structure Idles (m m' : Moment) : Prop where
  past : m'.past = m.past
  computer : ∃ pushed, m.session.computer.Rests m'.session.computer pushed

theorem Idles.refl (h : m.session.computer.machine.flag = .halted) : m.Idles m :=
  ⟨rfl, [], .refl h⟩

theorem Idles.trans {m'' : Moment} (h : m.Idles m') (h' : m'.Idles m'') : m.Idles m'' := by
  obtain ⟨pushed, hrests⟩ := h.computer
  obtain ⟨pushed', hrests'⟩ := h'.computer
  exact ⟨h'.past.trans h.past, pushed ++ pushed', hrests.trans hrests'⟩

theorem Idles.flag (h : m.Idles m') : m'.session.computer.machine.flag = .halted := by
  obtain ⟨pushed, hrests⟩ := h.computer
  exact hrests.flag

/-- From one prompt to the next nothing happens unless the piece between them is a reset. -/
theorem idles_of_next (hm : m.session.computer.machine.flag = .halted)
    (hp : Command.ofLine p.text ≠ .ok .reset) (h : m.next? limit p = some m') : m.Idles m' := by
  have hself := Idles.refl hm
  rcases next?_cases limit m p with ⟨-, hn⟩ | ⟨w, ws, hw, ⟨fault, -, hn⟩ |
    ⟨c, hc, ⟨action, -, hn⟩ | ⟨-, hn⟩⟩⟩
  · obtain rfl := Option.some.inj (hn.symm.trans h)
    exact ⟨rfl, hself.computer⟩
  · obtain rfl := Option.some.inj (hn.symm.trans h)
    exact ⟨rfl, hself.computer⟩
  · rw [hn] at h
    contradiction
  · obtain rfl := Option.some.inj (hn.symm.trans h)
    have hreset : c ≠ .reset := by
      rintro rfl
      apply hp
      unfold Command.ofLine
      rw [hw, hc]
    obtain ⟨as, has⟩ := Session.exists_acts_carryOut limit m.session hreset
    have hrests := (Computer.rests_performAll hm as).1
    rw [← has] at hrests
    have hpast : (m.behind limit p c).past = m.past ++ m.session.happening limit c := rfl
    refine ⟨?_, _, hrests⟩
    rw [hpast, Session.happening_of_halted hm limit hreset, List.append_nil]

/-- Nothing happens up to the last prompt. -/
theorem idles_last (hm : m.session.computer.machine.flag = .halted)
    (hps : ∀ p ∈ ps, Command.ofLine p.text ≠ .ok .reset) : m.Idles (m.last limit ps) := by
  induction ps generalizing m with
  | nil => exact .refl hm
  | cons p ps ih =>
    rw [last]
    cases hn : m.next? limit p with
    | none => exact .refl hm
    | some q =>
      have hfirst := idles_of_next hm (hps p List.mem_cons_self) hn
      have hrest := ih hfirst.flag fun q hq => hps q (List.mem_cons_of_mem p hq)
      exact hfirst.trans hrest

/-- The session is left as it is at its last prompt. -/
theorem session_follow (limit : Nat) (script : Script) (m : Moment) (ps : List Piece) :
    (m.session.follow limit script ps).session = (m.last limit ps).session := by
  induction ps generalizing m with
  | nil => rfl
  | cons p ps ih =>
    rw [last]
    cases hn : m.next? limit p with
    | none => exact (follow_of_end hn).1
    | some q =>
      change ((m.session.follow limit script (p :: ps)).after m.events).session = _
      rw [follow_of_next hn]
      exact ih q

/-- From any prompt on the session comes to the same last one. -/
theorem last_of_prompts (h : (m.prompts limit ps)[i]? = some m') :
    m.last limit ps = m'.last limit (ps.drop i) := by
  induction ps generalizing m i with
  | nil =>
    cases i with
    | zero =>
      obtain rfl := Option.some.inj h
      rfl
    | succ i => contradiction
  | cons p ps ih =>
    cases i with
    | zero =>
      rw [prompts] at h
      have hfirst : m = m' := by
        cases hn : m.next? limit p with
        | none =>
          rw [hn] at h
          exact Option.some.inj h
        | some q =>
          rw [hn] at h
          exact Option.some.inj h
      rw [hfirst]
      rfl
    | succ i =>
      rw [prompts] at h
      rw [last]
      cases hn : m.next? limit p with
      | none =>
        rw [hn] at h
        contradiction
      | some q =>
        rw [hn] at h
        exact ih h

end Moment

end Debugger

namespace Job

open Debugger

variable {j : Job} {commands : Option String} {m : Moment} {i : Nat}

theorem session_debug (j : Job) (commands : Option String) :
    (j.debug commands).session = j.session.run j.settings.stepLimit (j.script commands) := by
  unfold debug
  dsimp only
  split <;> rfl

/-- The debugger is left with the session of the last prompt. -/
theorem session_last (j : Job) (commands : Option String) :
    (j.debug commands).session.session = ((Moment.first j.session).last j.settings.stepLimit
      (j.script commands).pieces).session := by
  rw [session_debug]
  exact Moment.session_follow _ (j.script commands) (.first j.session) _

theorem rest_debug_of_halted
    (h : (j.debug commands).session.session.computer.machine.flag = .halted) {r : PlainRun}
    (hr : (j.debug commands).rest = some r) :
    r.ending = .halted ∧ r.executed = 0 ∧
      r.computer = (j.debug commands).session.session.computer := by
  rw [session_debug] at h ⊢
  unfold debug at hr
  dsimp only at hr
  split at hr
  · contradiction
  · obtain rfl := Option.some.inj hr
    rw [PlainRun.run_of_halted h]
    exact ⟨rfl, rfl, rfl⟩

theorem cyclesAfter_of_halted {f : Session.Finished}
    (h : f.session.computer.machine.flag = .halted) : j.cyclesAfter f = [] := by
  unfold cyclesAfter
  split
  · rfl
  · exact PlainRun.cycles_of_halted h j.settings _

/-- Halting is final. Whatever is done to a halted computer, it stays halted, with the same
accumulator and instruction register, takes nothing from its inbox and emits nothing, and all runs
are over before their first cycle. So once the machine of a debugged program has halted, nothing
more happens in the debugger without a reset, nor in the run that follows. -/
theorem halting_is_final :
    (∀ c : Computer, c.machine.flag = .halted → ∀ as : List Act,
      c.Rests (c.performAll as).1 (as.filterMap Act.pushed?) ∧
        ∀ r ∈ (c.performAll as).2, r.IsFinal) ∧
    ∀ (j : Job) (commands : Option String) (i : Nat) (m : Moment),
      (j.prompts commands)[i]? = some m → m.session.computer.machine.flag = .halted →
      (∀ p ∈ (j.script commands).pieces.drop i, Command.ofLine p.text ≠ .ok .reset) →
        j.past commands = m.past ∧
        (∃ pushed, m.session.computer.Rests (j.debug commands).session.session.computer pushed) ∧
        ∀ r, (j.debug commands).rest = some r → r.ending = .halted ∧ r.executed = 0 ∧
          r.computer = (j.debug commands).session.session.computer := by
  refine ⟨fun c h as => Computer.rests_performAll h as, ?_⟩
  intro j commands i m hm hh hps
  have hlast := Moment.last_of_prompts hm
  have hidles : m.Idles ((Moment.first j.session).last j.settings.stepLimit
      (j.script commands).pieces) := by
    rw [hlast]
    exact Moment.idles_last hh hps
  have hflag := hidles.flag
  have hrests := hidles.computer
  rw [← session_last] at hflag hrests
  refine ⟨?_, hrests, fun r hr => rest_debug_of_halted hflag hr⟩
  have hafter : j.cyclesAfter (j.session.run j.settings.stepLimit (j.script commands)) = [] := by
    rw [session_debug] at hflag
    exact cyclesAfter_of_halted hflag
  unfold past
  dsimp only
  rw [hafter, hidles.past, List.map_nil, List.append_nil]

/-- Commands that would wake the machine of `doubler`, if that were possible once it has halted. -/
def waking : String := "continue; set 4 901; jump 0; step; continue; input 3; quit"

theorem halting_is_final_doubler :
    (∀ r ∈ (Computer.performAll ⟨{ Machine.blank with flag := .halted }, [3], #[5]⟩
      [.write 0 902, .jump 0, .push 4, .step, .run .empty 0]).2, r.IsFinal) ∧
    (doubler.past (some waking)).length = 5 := by
  obtain ⟨hacts, hdebugger⟩ := halting_is_final
  refine ⟨(hacts _ rfl _).2, ?_⟩
  have hprompt : ((doubler.prompts (some waking))[1]?).map
      (fun m => (m.session.computer.machine.flag, m.past.length)) = some (.halted, 5) := by
    decide +kernel
  obtain ⟨m, hm, hflag⟩ := Option.map_eq_some_iff.mp hprompt
  obtain ⟨hhalted, hcycles⟩ := Prod.mk.inj hflag
  have hreset : ∀ p ∈ (doubler.script (some waking)).pieces.drop 1,
      Command.ofLine p.text ≠ .ok .reset := by
    decide +kernel
  rw [(hdebugger doubler (some waking) 1 m hm hhalted hreset).1, hcycles]

end Job

end LittleMan
