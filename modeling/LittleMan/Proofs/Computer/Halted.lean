import LittleMan.Proofs.Computer.Ends

/-! Halted computers: nothing that can be done to one from outside wakes it, but its memory and its
counter may be changed, and values may pile up in its inbox. -/
namespace LittleMan

/-- What can be done to a computer from outside. -/
inductive Act
  | step
  | run (stops : Breakpoints) (limit : Nat)
  | write (address : Nat) (v : Int)
  | jump (address : Nat)
  | push (v : Int)
  deriving DecidableEq, Repr

/-- What steps and runs tell of themselves. -/
inductive Report
  | stepped (o : Outcome)
  | ran (stop : Stop) (steps : Nat)
  deriving DecidableEq, Repr

def Act.pushed? : Act → Option Int
  | push v => some v
  | step | run _ _ | write _ _ | jump _ => none

/-- No cycle was made, as the machine has halted before. -/
inductive Report.IsFinal : Report → Prop
  | stepped : IsFinal (.stepped .halted)
  | ran : IsFinal (.ran .halted 0)

/-- A jump ends a pending input instruction only. -/
theorem Machine.flag_jump_of_halted {m : Machine} (h : m.flag = .halted) (a : Nat) :
    (m.jump a).flag = .halted := by
  unfold jump isWaiting
  simp [h]

namespace Computer

def perform (c : Computer) : Act → Computer × Option Report
  | .step => (c.step.2, some (.stepped c.step.1))
  | .run stops limit =>
    let r := c.run stops limit
    (r.computer, some (.ran r.stop r.steps))
  | .write a v => ({ c with machine := c.machine.write a v }, none)
  | .jump a => ({ c with machine := c.machine.jump a }, none)
  | .push v => (c.push v, none)

/-- One act after the other, with all that they tell. -/
def performAll (c : Computer) : List Act → Computer × List Report
  | [] => (c, [])
  | a :: as =>
    let (c', report) := c.perform a
    let (c'', reports) := c'.performAll as
    (c'', report.toList ++ reports)

/-- `d` is what `c` may have become while it has been halted. -/
structure Rests (c d : Computer) (pushed : List Int) : Prop where
  flag : d.machine.flag = .halted
  accumulator : d.machine.accumulator = c.machine.accumulator
  fetched : d.machine.fetched = c.machine.fetched
  inbox : d.inbox = c.inbox ++ pushed
  outbox : d.outbox = c.outbox

variable {c d e : Computer} {pushed pushed' : List Int}

theorem Rests.refl (h : c.machine.flag = .halted) : c.Rests c [] :=
  ⟨h, rfl, rfl, (List.append_nil _).symm, rfl⟩

theorem Rests.trans (h : c.Rests d pushed) (h' : d.Rests e pushed') :
    c.Rests e (pushed ++ pushed') where
  flag := h'.flag
  accumulator := h'.accumulator.trans h.accumulator
  fetched := h'.fetched.trans h.fetched
  inbox := by rw [h'.inbox, h.inbox, List.append_assoc]
  outbox := h'.outbox.trans h.outbox

theorem rests_perform (h : c.machine.flag = .halted) (a : Act) :
    c.Rests (c.perform a).1 a.pushed?.toList ∧ ∀ r ∈ (c.perform a).2, r.IsFinal := by
  have hself := Rests.refl h
  cases a with
  | step =>
    have ho : c.step.1 = .halted := by
      unfold Computer.step
      rw [Machine.step_of_halted h]
    have hp : c.perform .step = (c, some (.stepped .halted)) := by
      unfold perform
      dsimp only
      rw [step_of_halted h, ho]
    rw [hp]
    refine ⟨hself, ?_⟩
    rintro r ⟨⟩
    exact .stepped
  | run stops limit =>
    have hp : c.perform (.run stops limit) = (c, some (.ran .halted 0)) := by
      unfold perform
      dsimp only
      rw [run_of_halted stops limit h]
    rw [hp]
    refine ⟨hself, ?_⟩
    rintro r ⟨⟩
    exact .ran
  | write a v =>
    refine ⟨⟨h, rfl, rfl, hself.inbox, rfl⟩, ?_⟩
    intro r hr
    contradiction
  | jump a =>
    refine ⟨⟨Machine.flag_jump_of_halted h a, rfl, rfl, hself.inbox, rfl⟩, ?_⟩
    intro r hr
    contradiction
  | push v =>
    refine ⟨⟨h, rfl, rfl, rfl, rfl⟩, ?_⟩
    intro r hr
    contradiction

theorem rests_performAll (h : c.machine.flag = .halted) (as : List Act) :
    c.Rests (c.performAll as).1 (as.filterMap Act.pushed?) ∧
      ∀ r ∈ (c.performAll as).2, r.IsFinal := by
  induction as generalizing c with
  | nil => exact ⟨.refl h, by simp [performAll]⟩
  | cons a as ih =>
    obtain ⟨hfirst, hreport⟩ := rests_perform h a
    obtain ⟨hrest, hreports⟩ := ih hfirst.flag
    have hpushed : (a :: as).filterMap Act.pushed? =
        a.pushed?.toList ++ as.filterMap Act.pushed? := by
      cases ha : a.pushed? <;> simp [ha]
    refine ⟨?_, ?_⟩
    · rw [hpushed]
      exact hfirst.trans hrest
    · intro r hr
      rcases List.mem_append.mp hr with hr | hr
      · exact hreport r (Option.mem_toList.mp hr)
      · exact hreports r hr

end Computer

end LittleMan
