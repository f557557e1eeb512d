import LittleMan.Proofs.Computer.Runs

/-! Values that come in while a computer runs: whether they are there from the start, or only once
the machine is blocked, makes no difference. -/
namespace LittleMan

/-- More values at the back of the inbox. -/
def Computer.supply (c : Computer) (vs : List Int) : Computer := { c with inbox := c.inbox ++ vs }

def Run.supply (r : Run) (vs : List Int) : Run := ⟨r.stop, r.steps, r.computer.supply vs⟩

namespace Computer

variable {stops : Breakpoints} {done left : Nat} {b c d : Computer} {vs : List Int}

@[simp] theorem supply_nil (c : Computer) : c.supply [] = c := by
  unfold supply
  rw [List.append_nil]

theorem step_supply (h : c.step.1 ≠ .blocked) :
    (c.supply vs).step = (c.step.1, c.step.2.supply vs) := by
  have hm := Machine.step_append vs h
  unfold step supply
  dsimp only
  rw [hm]

/-- The next step of `b` finds no value, and leaves `d` behind. -/
structure Blocks (b d : Computer) (resume : Address) : Prop where
  inbox : b.inbox = []
  machine : b.machine.StuckAs d.machine resume
  rest : d = { b with machine := d.machine }

namespace Blocks

variable {resume : Address}

theorem of_step (h : b.step.1 = .blocked) : ∃ resume, Blocks b b.step.2 resume := by
  obtain ⟨hi, hi', ho, resume, hs⟩ := step_blocked h
  refine ⟨resume, hi, hs, ?_⟩
  rw [hi, ← hi', ← ho]

theorem inbox_after (h : Blocks b d resume) : d.inbox = [] := by
  rw [h.rest]
  exact h.inbox

/-- Blocking moves nothing but the instruction register and the flag. -/
theorem eq (h : Blocks b d resume) :
    d = ⟨{ b.machine with fetched := d.machine.fetched, flag := .waiting resume }, [], b.outbox⟩ :=
  calc
    d = ⟨d.machine, b.inbox, b.outbox⟩ := h.rest
    _ = ⟨_, b.inbox, b.outbox⟩ := congrArg (Computer.mk · b.inbox b.outbox) h.machine.machine
    _ = _ := by rw [h.inbox]

theorem step_supply (h : Blocks b d resume) (vs : List Int) :
    (d.supply vs).step = (b.supply vs).step := by
  have hm : d.machine.step ([] ++ vs) = b.machine.step ([] ++ vs) := h.machine.step_eq _
  unfold step supply
  rw [h.inbox, h.inbox_after, hm, h.rest]

theorem flag (h : Blocks b d resume) : d.machine.flag = .waiting resume := h.machine.flag

theorem begins (h : Blocks b d resume) (vs : List Int) : (d.supply vs).Begins stops 0 := by
  apply begins_zero
  change d.machine.flag ≠ .halted
  rw [h.flag]
  simp

theorem begins_before (h : Blocks b d resume) (vs : List Int) : (b.supply vs).Begins stops 0 :=
  begins_zero h.machine.flag_before

/-- A single value finishes the instruction, in a single cycle. -/
theorem run_supply_cons (h : Blocks b d resume) (v : Int) (rest : List Int) :
    (d.supply (v :: rest)).run stops 1 =
      ⟨.stepLimit, 1, ⟨d.machine.finish resume v, rest, d.outbox⟩⟩ := by
  have hm := Machine.step_of_waiting_cons h.flag v rest
  have hs : (d.supply (v :: rest)).step =
      (.completed, ⟨d.machine.finish resume v, rest, d.outbox⟩) := by
    unfold step supply
    rw [h.inbox_after, List.nil_append, hm]
  have hg : (d.supply (v :: rest)).Begins stops 0 := h.begins _
  have hc := cycle_of_next hg (by rw [hs]; simp) (by rw [hs]; simp)
  unfold run
  rw [runOn_of_next hc, hs, runOn_zero]
  rfl

end Blocks

theorem runOn_supply (vs : List Int) (h : (c.runOn stops done left).stop ≠ .waiting) :
    (c.supply vs).runOn stops done left = (c.runOn stops done left).supply vs := by
  induction left generalizing done c with
  | zero => rw [runOn_zero, runOn_zero]; rfl
  | succ left ih =>
    rcases cycle_cases stops done c with ⟨hh, hc⟩ | ⟨hh, hd, hb, hc⟩ | ⟨-, -, hc⟩ | ⟨hg, hs, hc⟩ |
      ⟨hg, hb, hs, hc⟩
    · have hc' : (c.supply vs).cycle stops done = _ := cycle_of_halted hh
      rw [runOn_of_end hc, runOn_of_end hc']
      rfl
    · have hc' : (c.supply vs).cycle stops done = _ := cycle_of_breakpoint hh hd hb
      rw [runOn_of_end hc, runOn_of_end hc']
      rfl
    · rw [runOn_of_end hc] at h
      contradiction
    · have hs' : (c.supply vs).step = (c.step.1, c.step.2.supply vs) := step_supply (by simp [hs])
      have hc' : (c.supply vs).cycle stops done = _ := cycle_of_halting hg (by rw [hs', hs])
      rw [runOn_of_end hc, runOn_of_end hc', hs']
      rfl
    · have hs' : (c.supply vs).step = (c.step.1, c.step.2.supply vs) := step_supply hb
      have hc' : (c.supply vs).cycle stops done = _ :=
        cycle_of_next hg (by rw [hs']; exact hb) (by rw [hs']; exact hs)
      rw [runOn_of_next hc] at h ⊢
      rw [runOn_of_next hc', hs']
      exact ih h

/-- A run that ends blocked has made some cycles, fewer than it may, and come to a computer whose
next step blocks. -/
theorem runOn_waiting (h : (c.runOn stops done left).stop = .waiting) :
    ∃ k < left, (c.runOn stops done left).steps = done + k ∧
      ∃ b resume, c.runOn stops done k = ⟨.stepLimit, done + k, b⟩ ∧
        Blocks b (c.runOn stops done left).computer resume := by
  induction left generalizing done c with
  | zero => rw [runOn_zero] at h; dsimp only at h; split at h <;> contradiction
  | succ left ih =>
    rcases cycle_cases stops done c with ⟨-, hc⟩ | ⟨-, -, -, hc⟩ | ⟨hg, hs, hc⟩ | ⟨-, -, hc⟩ |
      ⟨-, -, -, hc⟩
    · rw [runOn_of_end hc] at h; contradiction
    · rw [runOn_of_end hc] at h; contradiction
    · obtain ⟨resume, hb⟩ := Blocks.of_step hs
      have hh : c.machine.isHalted = false := by simpa [← Bool.not_eq_true] using hg.1
      rw [runOn_of_end hc]
      refine ⟨0, by omega, rfl, c, resume, ?_, hb⟩
      rw [runOn_zero, hh]
      rfl
    · rw [runOn_of_end hc] at h; contradiction
    · rw [runOn_of_next hc] at h ⊢
      obtain ⟨k, hk, hn, b, resume, hl, hb⟩ := ih h
      refine ⟨k + 1, by omega, by omega, b, resume, ?_, hb⟩
      rw [runOn_of_next hc, hl, Nat.add_right_comm, Nat.add_assoc]

/-- Two computers with the same next step run on alike. -/
theorem runOn_of_step_eq (hc : c.Begins stops done) (hd : d.Begins stops 0)
    (hs : d.step = c.step) (left : Nat) :
    c.runOn stops done (left + 1) = (d.runOn stops 0 (left + 1)).later done := by
  rw [runOn_succ, runOn_succ, cycle_of_begins hc, cycle_of_begins hd, hs]
  have hn : 0 < 1 := Nat.one_pos
  cases c.step.1 with
  | blocked => rfl
  | halted => rfl
  | completed => exact runOn_add done (.inl hn)
  | emitted v => exact runOn_add done (.inl hn)

theorem runOn_supply_of_waiting (vs : List Int) (h : (c.runOn stops done left).stop = .waiting) :
    (c.supply vs).runOn stops done left =
      (((c.runOn stops done left).computer.supply vs).run stops
        (done + left - (c.runOn stops done left).steps)).later (c.runOn stops done left).steps := by
  induction left generalizing done c with
  | zero => rw [runOn_zero] at h; dsimp only at h; split at h <;> contradiction
  | succ left ih =>
    rcases cycle_cases stops done c with ⟨-, hc⟩ | ⟨-, -, -, hc⟩ | ⟨hg, hs, hc⟩ | ⟨-, -, hc⟩ |
      ⟨hg, hb, hs, hc⟩
    · rw [runOn_of_end hc] at h; contradiction
    · rw [runOn_of_end hc] at h; contradiction
    · obtain ⟨resume, hb⟩ := Blocks.of_step hs
      have hx : (c.supply vs).Begins stops done := hg
      have hr := runOn_of_step_eq hx (hb.begins vs) (hb.step_supply vs) left
      rw [runOn_of_end hc, hr]
      dsimp only
      rw [Nat.add_sub_cancel_left]
      rfl
    · rw [runOn_of_end hc] at h; contradiction
    · have hs' : (c.supply vs).step = (c.step.1, c.step.2.supply vs) := step_supply hb
      have hc' : (c.supply vs).cycle stops done = _ :=
        cycle_of_next hg (by rw [hs']; exact hb) (by rw [hs']; exact hs)
      rw [runOn_of_next hc] at h ⊢
      rw [runOn_of_next hc', hs', ih h, Nat.add_right_comm, Nat.add_assoc]

/-- Input may come early or late. A run that does not end blocked leaves more input untouched; one
that does is finished by running on with it, for the cycles that are left. The blocked instruction
has moved nothing meanwhile, and takes a single value in a single cycle, as it would have at once. -/
theorem run_supply (c : Computer) (stops : Breakpoints) (limit : Nat) (vs : List Int) :
    let r := c.run stops limit
    (r.stop ≠ .waiting →
      (c.supply vs).run stops limit = ⟨r.stop, r.steps, r.computer.supply vs⟩) ∧
    (r.stop = .waiting →
      r.computer.inbox = [] ∧ r.steps < limit ∧
      (c.supply vs).run stops limit =
        ((r.computer.supply vs).run stops (limit - r.steps)).later r.steps ∧
      ∃ b resume,
        c.run stops r.steps = ⟨.stepLimit, r.steps, b⟩ ∧
        r.computer =
          ⟨{ b.machine with fetched := r.computer.machine.fetched, flag := .waiting resume }, [],
            b.outbox⟩ ∧
        ∀ v rest,
          (b.supply (v :: rest)).run stops 1 = (r.computer.supply (v :: rest)).run stops 1 ∧
          (r.computer.supply (v :: rest)).run stops 1 =
            ⟨.stepLimit, 1, ⟨r.computer.machine.finish resume v, rest, r.computer.outbox⟩⟩) := by
  intro r
  constructor
  · intro h
    exact runOn_supply vs h
  · intro h
    obtain ⟨k, hk, hn, b, resume, hl, hb⟩ := runOn_waiting h
    have hk' : r.steps = k := by rw [← Nat.zero_add k]; exact hn
    have hr := runOn_supply_of_waiting vs h
    rw [Nat.zero_add] at hl hr
    refine ⟨hb.inbox_after, by omega, hr, b, resume, ?_, hb.eq, fun v rest => ⟨?_, ?_⟩⟩
    · rw [hk']
      exact hl
    · have hs : (b.supply (v :: rest)).run stops 1 = _ :=
        runOn_of_step_eq (hb.begins_before _) (hb.begins _) (hb.step_supply _) 0
      rw [Run.later_zero] at hs
      exact hs
    · exact hb.run_supply_cons v rest

end Computer

end LittleMan
