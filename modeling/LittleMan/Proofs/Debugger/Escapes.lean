import LittleMan.Proofs.Escapes

/-! Escapes of a debugged program in minimal output: without reports on lines of source all that the
debugger shows goes through the channels, so only the run that follows it may bring an escape. -/
namespace LittleMan.Debugger

/-- The commands in pieces of a script that are carried out, up to the one that ends the session. -/
def carriedOut (ps : List Piece) : List Command :=
  (ps.filterMap fun p => (Command.ofLine p.text).toOption).takeWhile (·.action?.isNone)

variable {p : Piece} {ps : List Piece} {c : Command}

theorem carriedOut_of_error {fault : CommandError} (h : Command.ofLine p.text = .error fault) :
    carriedOut (p :: ps) = carriedOut ps := by
  unfold carriedOut
  rw [List.filterMap_cons_none (by rw [h]; rfl)]

theorem carriedOut_of_ok (h : Command.ofLine p.text = .ok c) (ha : c.action? = none) :
    carriedOut (p :: ps) = c :: carriedOut ps := by
  unfold carriedOut
  rw [List.filterMap_cons_some (by rw [h]; rfl), List.takeWhile_cons_of_pos (by rw [ha]; rfl)]

namespace Session

variable {s : Session}

theorem channelled_atPlace {place : Location} {act : Nat → Session × List Notice}
    (h : ∀ a, ∀ n ∈ (act a).2, n.Channelled) :
    ∀ n ∈ (s.atPlace place act).2, n.Channelled := by
  cases place with
  | address a => exact h a
  | counter => exact h s.counter
  | label name =>
    intro n hn
    unfold atPlace at hn
    dsimp only at hn
    split at hn
    · obtain rfl := List.mem_singleton.mp hn
      trivial
    · rcases List.mem_cons.mp hn with rfl | hn
      · trivial
      · exact h _ n hn

theorem channelled_answer (hc : ∀ place, c ≠ .source place) :
    ∀ n ∈ (s.answer c).2, n.Channelled := by
  have hone : ∀ {m : Notice}, m.Channelled → ∀ n ∈ [m], n.Channelled := by
    intro m hm n hn
    obtain rfl := List.mem_singleton.mp hn
    exact hm
  cases c with
  | source place => exact absurd rfl (hc place)
  | breakAdd place =>
    refine channelled_atPlace fun a => hone ?_
    split <;> trivial
  | breakRemove place =>
    refine channelled_atPlace fun a => hone ?_
    split <;> trivial
  | read place => exact channelled_atPlace fun a => hone trivial
  | write place v => exact channelled_atPlace fun a => hone trivial
  | jump place => exact channelled_atPlace fun a => hone trivial
  | step | proceed | quit | exit => exact fun n hn => absurd hn List.not_mem_nil
  | _ => exact hone trivial

theorem channelled_stopNotices (r : Run) : ∀ n ∈ stopNotices r, n.Channelled := by
  unfold stopNotices
  cases r.stop with
  | halted | waiting | breakpoint =>
    intro n hn
    obtain rfl := List.mem_singleton.mp hn
    trivial
  | stepLimit => exact fun n hn => absurd hn List.not_mem_nil

theorem channelled_map_notice {ns : List Notice} (h : ∀ n ∈ ns, n.Channelled) :
    Channelled (ns.map .notice) := by
  intro e he
  obtain ⟨n, hn, rfl⟩ := List.mem_map.mp he
  exact h n hn

theorem channelled_runCycles (s : Session) (limit : Nat) :
    Channelled (s.runCycles limit).2.2 := by
  have hexecuted : ∀ n ∈ (if 0 < (s.computer.run s.breakpoints limit).steps then
      [Notice.executed (s.computer.run s.breakpoints limit).steps] else []), n.Channelled := by
    intro n hn
    split at hn
    · obtain rfl := List.mem_singleton.mp hn
      trivial
    · contradiction
  have hnotices := channelled_map_notice (List.forall_mem_append.mpr
    ⟨hexecuted, channelled_stopNotices (s.computer.run s.breakpoints limit)⟩)
  have hline : Channelled [.newLine] := .single trivial
  exact ((Channelled.outputs _).append hline).append hnotices

theorem channelled_carryOut (limit : Nat) (s : Session) (hc : ∀ place, c ≠ .source place) :
    Channelled (s.carryOut limit c).2 := by
  have hanswer := channelled_map_notice (channelled_answer (s := s) hc)
  cases c with
  | step count => exact channelled_runCycles s count
  | proceed =>
    have hcontinuing : Channelled [.notice .continuing] := .single trivial
    refine (hcontinuing.append (channelled_runCycles s limit)).append ?_
    split
    · exact .single trivial
    · exact .nil
  | _ => exact hanswer

theorem channelled_prompt (s : Session) : Channelled s.prompt.2 := by
  have hline : Channelled [.newLine] := .single trivial
  unfold prompt
  dsimp only
  cases s.announce with
  | true => exact hline.append (.single trivial)
  | false => exact hline

theorem channelled_follow {script : Script} (limit : Nat) (s : Session)
    (he : Channelled script.shownAtEnd) (hp : ∀ p ∈ ps, Channelled p.shown)
    (hs : ∀ place, .source place ∉ carriedOut ps) :
    Channelled (s.follow limit script ps).events := by
  induction ps generalizing s with
  | nil => exact he
  | cons p ps ih =>
    have hshown : Channelled p.shown := hp p List.mem_cons_self
    have hps : ∀ q ∈ ps, Channelled q.shown := fun q hq => hp q (List.mem_cons_of_mem p hq)
    rw [follow]
    split
    · next hw =>
      have hline : Command.ofLine p.text = .error (.unknown "") := by
        unfold Command.ofLine
        rw [hw]
        rfl
      rw [carriedOut_of_error hline] at hs
      exact hshown.append (ih s hps hs)
    · split
      · next fault hfault =>
        rw [carriedOut_of_error hfault] at hs
        have hanswer : Channelled [.notice (.notUnderstood fault)] := .single trivial
        exact (hshown.append hanswer).append (ih s hps hs)
      · next c hc =>
        split
        · -- what comes behind a command that ends the session is not read
          exact hshown
        · next ha =>
          rw [carriedOut_of_ok hc ha] at hs
          have hfirst : ∀ place, c ≠ .source place := by
            rintro place rfl
            exact hs place List.mem_cons_self
          have hrest : ∀ place, .source place ∉ carriedOut ps :=
            fun place h => hs place (List.mem_cons_of_mem c h)
          exact ((hshown.append (channelled_carryOut limit s hfirst)).append
            (channelled_prompt _)).append (ih _ hps hrest)

theorem channelled_run {script : Script} (limit : Nat) (s : Session)
    (he : Channelled script.shownAtEnd) (hp : ∀ p ∈ script.pieces, Channelled p.shown)
    (hs : ∀ place, .source place ∉ carriedOut script.pieces) :
    Channelled (s.run limit script).events :=
  (channelled_prompt _).append (channelled_follow limit _ he hp hs)

end Session

end LittleMan.Debugger

namespace LittleMan.Job

open Debugger Terminal

variable {j : Job} {commands : Option String}

/-- Nothing that reading a script shows was typed if standard input is not. -/
theorem channelled_script (ht : j.stdin.typed = false) (commands : Option String) :
    Channelled (j.script commands).shownAtEnd ∧
      ∀ p ∈ (j.script commands).pieces, Channelled p.shown := by
  cases commands with
  | some text =>
    refine ⟨.nil, fun p hp => ?_⟩
    obtain ⟨q, -, rfl⟩ := List.mem_map.mp hp
    exact .single trivial
  | none =>
    have hpipe : j.script none = .ofPipe j.stdin.bytes := by
      unfold script StandardInput.script
      rw [ht]
      rfl
    rw [hpipe]
    refine ⟨.nil, fun p hp => ?_⟩
    obtain ⟨q, -, rfl⟩ := List.mem_map.mp hp
    exact .single trivial

theorem accounted_run (stdin : StandardInput) (ht : stdin.typed = false) (settings : Settings)
    (c : Computer) : Accounted stdin.input.lines (PlainRun.run settings stdin.input c).events := by
  have hpipe : stdin.input = .ofPipe stdin.bytes := by
    unfold StandardInput.input
    rw [ht]
    rfl
  rw [hpipe]
  exact .runOn (Input.piped_decoded _)

/-- The input of the run that follows a session. -/
def inputAfter (j : Job) (f : Session.Finished) : Input :=
  StandardInput.input { j.stdin with bytes := f.stdin }

theorem accounted_debug (ht : j.stdin.typed = false)
    (hs : ∀ place, .source place ∉ carriedOut (j.script commands).pieces) :
    Accounted (j.inputAfter (j.debug commands).session).lines (j.debug commands).events := by
  obtain ⟨hend, hpieces⟩ := channelled_script ht commands
  have hsession : Channelled (j.session.run j.settings.stepLimit (j.script commands)).events :=
    Session.channelled_run _ _ hend hpieces hs
  unfold debug Debugged.events
  generalize j.session.run j.settings.stepLimit (j.script commands) = f at hsession ⊢
  dsimp only
  cases f.action with
  | exitProgram => exact .of_channelled (hsession.append .nil)
  | stopDebugger =>
    have hrest := accounted_run { j.stdin with bytes := f.stdin } ht j.settings f.session.computer
    exact (Accounted.of_channelled hsession).append hrest

/-- Minimal output has no escapes, but for lines of piped input that are refused. Where output is
coloured each of these brings one. -/
theorem escapesInRefusals (j : Job) (commands : Option String) {st : Style}
    (hm : st.minimal = true) (ht : j.stdin.typed = false)
    (hs : ∀ place, .source place ∉ carriedOut (j.script commands).pieces) :
    EscapesInRefusals st j.stdin.input.lines j.run.events ∧
      EscapesInRefusals st (j.inputAfter (j.debug commands).session).lines
        (j.debug commands).events :=
  ⟨escapesInRefusals_of_accounted hm (accounted_run j.stdin ht j.settings j.computer),
    escapesInRefusals_of_accounted hm (accounted_debug ht hs)⟩

/-- Wants a value, and is given a word. -/
def misled : Job where
  program := { words := [901, 0] }
  stdin := ⟨[102, 111, 111, 10], false⟩
  settings := .standard

theorem escapesInRefusals_misled :
    carriedOut (misled.script (some "registers; quit; source")).pieces = [.registers] ∧
      EscapesInRefusals ⟨true, true⟩ misled.stdin.input.lines misled.run.events ∧
      EscapesInRefusals ⟨true, true⟩
        (misled.inputAfter (misled.debug (some "registers; quit; source")).session).lines
        (misled.debug (some "registers; quit; source")).events := by
  have hs : carriedOut (misled.script (some "registers; quit; source")).pieces = [.registers] := by
    decide +kernel
  refine ⟨hs, escapesInRefusals misled _ rfl rfl fun place => ?_⟩
  rw [hs]
  simp

theorem misled_escapes :
    misled.stdin.typed = false ∧
      ((Screen.fresh ⟨true, true⟩).present misled.run.events).2 =
        [⟨.errors, "\x1b[31mInvalid input\x1b[0m `foo`: inputs must be integers from -999 to 999\n"⟩,
          ⟨.output, "     Stopped waiting for input, none left\n"⟩] ∧
      ∃ k ∈ ((Screen.fresh ⟨true, true⟩).present misled.run.events).2, k.Escapes := by
  have hi : misled.stdin.input = ⟨[⟨"foo", []⟩], []⟩ := by decide +kernel
  have hn : Input.next [] [⟨"foo", []⟩] = ([.refused "foo"], none) := by decide +kernel
  have hs : (PlainRun.leg misled.settings 0 misled.computer).stop = .waiting := by decide +kernel
  have he : misled.run.events = [.refused "foo", .ended .noInput] := by
    unfold run PlainRun.run
    rw [hi, PlainRun.runOn_eq, hs]
    dsimp only
    rw [hn]
    decide +kernel
  rw [he]
  refine ⟨rfl, by decide +kernel, refusal ⟨true, true⟩ "foo", ?_, escapes_refusal rfl "foo"⟩
  exact refusal_mem_present List.mem_cons_self

end LittleMan.Job
