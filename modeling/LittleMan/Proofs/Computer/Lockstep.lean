import Mathlib.Data.List.Forall2
import LittleMan.Proofs.Computer.Cycles

/-! Two runs side by side. If no cycle of the first breaks a relation between the two machines, both
runs end for the same reason, after the same cycles and with the relation between them. -/
namespace LittleMan

/-- Two steps end in the same way, and if they emit values, these are related. -/
inductive Outcome.Alike (V : Int → Int → Prop) : Outcome → Outcome → Prop
  | completed : Alike V .completed .completed
  | emitted {v w : Int} (h : V v w) : Alike V (.emitted v) (.emitted w)
  | blocked : Alike V .blocked .blocked
  | halted : Alike V .halted .halted

namespace Outcome.Alike

variable {V : Int → Int → Prop} {o o' : Outcome}

/-- Steps in which nothing is done. -/
theorem of_idle (h : o = .blocked ∨ o = .halted) : o.Alike V o := by
  rcases h with rfl | rfl
  · exact .blocked
  · exact .halted

theorem values (h : o.Alike V o') : List.Forall₂ V o.values o'.values := by
  cases h with
  | emitted h => exact .cons h .nil
  | completed | blocked | halted => exact .nil

theorem eq_blocked_iff (h : o.Alike V o') : o' = .blocked ↔ o = .blocked := by
  cases h <;> simp

theorem eq_halted_iff (h : o.Alike V o') : o' = .halted ↔ o = .halted := by
  cases h <;> simp

end Outcome.Alike

namespace Computer

/-- Two computers that have come from `c` and `d`. Their machines are related, the same values are
left in their inboxes, and what has come into their outboxes is related value by value. -/
structure Abreast (V : Int → Int → Prop) (M : Machine → Machine → Prop) (c d c' d' : Computer) :
    Prop where
  machine : M c'.machine d'.machine
  inbox : d'.inbox = c'.inbox
  outbox : ∃ vs ws, c'.outbox.toList = c.outbox.toList ++ vs ∧
    d'.outbox.toList = d.outbox.toList ++ ws ∧ List.Forall₂ V vs ws

/-- The relation `M` may depend on the machines at which the cycles of the first run have begun so
far. It lasts through each of its cycles that is allowed. -/
structure Lockstep (allowed : Machine → Prop) (V : Int → Int → Prop)
    (M : List Machine → Machine → Machine → Prop) : Prop where
  flag : ∀ {past m m'}, M past m m' → m'.flag = m.flag
  counter : ∀ {past m m'}, M past m m' → m'.counter = m.counter
  step : ∀ {past m m'}, M past m m' → allowed m → ∀ inbox,
    (m.step inbox).outcome.Alike V (m'.step inbox).outcome ∧
      (m'.step inbox).inbox = (m.step inbox).inbox ∧
      M (past ++ [m]) (m.step inbox).machine (m'.step inbox).machine

end Computer

/-- Two runs, from `c` and from `d`, that end for the same reason, after as many cycles, and
abreast. -/
structure Run.Alike (V : Int → Int → Prop) (M : Machine → Machine → Prop) (c d : Computer)
    (r r' : Run) : Prop extends Computer.Abreast V M c d r.computer r'.computer where
  stop : r'.stop = r.stop
  steps : r'.steps = r.steps

namespace Computer

variable {V : Int → Int → Prop} {M : List Machine → Machine → Machine → Prop}
variable {allowed : Machine → Prop} {past : List Machine}
variable {stops : Breakpoints} {done left n : Nat} {c d c' d' : Computer}

theorem Abreast.refl {M : Machine → Machine → Prop} (hm : M c.machine d.machine)
    (hi : d.inbox = c.inbox) : Abreast V M c d c d where
  machine := hm
  inbox := hi
  outbox := ⟨[], [], (List.append_nil _).symm, (List.append_nil _).symm, .nil⟩

/-- A cycle of both. -/
theorem Abreast.step (hl : Lockstep allowed V M) (h : Abreast V (M past) c d c' d')
    (ha : allowed c'.machine) :
    c'.step.1.Alike V d'.step.1 ∧
      Abreast V (M (past ++ [c'.machine])) c d c'.step.2 d'.step.2 := by
  have hs := hl.step h.machine ha c'.inbox
  have hd : d'.machine.step d'.inbox = d'.machine.step c'.inbox := by rw [h.inbox]
  have ho : c'.step.1.Alike V d'.step.1 := by
    change (c'.machine.step c'.inbox).outcome.Alike V (d'.machine.step d'.inbox).outcome
    rw [hd]
    exact hs.1
  obtain ⟨vs, ws, hv, hw, hvw⟩ := h.outbox
  refine ⟨ho, ?_, ?_, vs ++ c'.step.1.values, ws ++ d'.step.1.values, ?_, ?_, ?_⟩
  · change M _ (c'.machine.step c'.inbox).machine (d'.machine.step d'.inbox).machine
    rw [hd]
    exact hs.2.2
  · change (d'.machine.step d'.inbox).inbox = (c'.machine.step c'.inbox).inbox
    rw [hd]
    exact hs.2.1
  · rw [step_outbox, hv, List.append_assoc]
  · rw [step_outbox, hw, List.append_assoc]
  · exact List.rel_append hvw ho.values

theorem Abreast.begins (hl : Lockstep allowed V M) (h : Abreast V (M past) c d c' d')
    (hb : c'.Begins stops done) : d'.Begins stops done := by
  unfold Begins
  rw [hl.flag h.machine, hl.counter h.machine]
  exact hb

theorem runOn_lockstep (hl : Lockstep allowed V M) (h : Abreast V (M past) c d c' d')
    (hn : (c'.runOn stops done left).begun = done + n) (ha : ∀ m ∈ c'.machines n, allowed m) :
    Run.Alike V (M (past ++ c'.machines n)) c d (c'.runOn stops done left)
      (d'.runOn stops done left) := by
  have hnone : ∀ past (e : Computer), M (past ++ e.machines 0) = M past :=
    fun past _ => congrArg M (List.append_nil past)
  -- how the first run goes on decides how the second does, since both are at the same place
  induction left generalizing done n past c' d' with
  | zero =>
    have hf : d'.machine.isHalted = c'.machine.isHalted := by
      unfold Machine.isHalted
      rw [hl.flag h.machine]
    obtain rfl : n = 0 := by
      rw [begun_runOn_zero] at hn
      omega
    rw [hnone, runOn_zero, runOn_zero, hf]
    exact ⟨h, rfl, rfl⟩
  | succ left ih =>
    have hflag := hl.flag h.machine
    have hcounter := hl.counter h.machine
    rcases cycle_cases stops done c' with ⟨hh, hc⟩ | ⟨hh, hd, hb, hc⟩ | ⟨hg, hs, hc⟩ |
      ⟨hg, hs, hc⟩ | ⟨hg, hb, hs, hc⟩
    · rw [runOn_of_end hc] at hn ⊢
      rw [runOn_of_end (cycle_of_halted (hflag.trans hh))]
      obtain rfl : n = 0 := by simpa [Run.begun] using hn
      rw [hnone]
      exact ⟨h, rfl, rfl⟩
    · rw [← hflag] at hh
      rw [← hcounter] at hb
      rw [runOn_of_end hc] at hn ⊢
      rw [runOn_of_end (cycle_of_breakpoint hh hd hb), hcounter]
      obtain rfl : n = 0 := by simpa [Run.begun] using hn
      rw [hnone]
      exact ⟨h, rfl, rfl⟩
    · rw [runOn_of_end hc] at hn ⊢
      obtain rfl : n = 1 := by simpa [Run.begun] using hn.symm
      obtain ⟨ho, hnext⟩ := h.step hl (ha _ (List.mem_singleton_self _))
      rw [runOn_of_end (cycle_of_blocked (h.begins hl hg) (ho.eq_blocked_iff.mpr hs))]
      exact ⟨hnext, rfl, rfl⟩
    · rw [runOn_of_end hc] at hn ⊢
      obtain rfl : n = 1 := by simpa [Run.begun] using hn.symm
      obtain ⟨ho, hnext⟩ := h.step hl (ha _ (List.mem_singleton_self _))
      rw [runOn_of_end (cycle_of_halting (h.begins hl hg) (ho.eq_halted_iff.mpr hs))]
      exact ⟨hnext, rfl, rfl⟩
    · rw [runOn_of_next hc] at hn ⊢
      obtain ⟨k, hk, -⟩ := computer_runOn stops (done + 1) left c'.step.2
      obtain rfl : n = k + 1 := by omega
      rw [machines_cons] at ha ⊢
      obtain ⟨ho, hnext⟩ := h.step hl (ha _ List.mem_cons_self)
      have hb' : d'.step.1 ≠ .blocked := fun hd => hb (ho.eq_blocked_iff.mp hd)
      have hs' : d'.step.1 ≠ .halted := fun hd => hs (ho.eq_halted_iff.mp hd)
      rw [runOn_of_next (cycle_of_next (h.begins hl hg) hb' hs'), List.append_cons]
      exact ih hnext hk (fun m hm => ha m (List.mem_cons_of_mem _ hm))

/-- A relation that lasts through the cycles of a run holds at the end of both, and until then they
have made the same cycles. -/
theorem run_lockstep (hl : Lockstep allowed V M) (hm : M [] c.machine d.machine)
    (hi : d.inbox = c.inbox) (stops : Breakpoints) (limit : Nat)
    (ha : ∀ m ∈ c.cycles (c.run stops limit), allowed m) :
    Run.Alike V (M (c.cycles (c.run stops limit))) c d (c.run stops limit) (d.run stops limit) :=
  runOn_lockstep hl (.refl hm hi) (Nat.zero_add _).symm ha

end Computer

end LittleMan
