import Mathlib.Data.Option.Basic
import LittleMan.Proofs.Computer.Lockstep
import LittleMan.Proofs.Machine.Range

/-! A cell that a run does not read. What it holds at first makes no difference to the run, and the
first instruction that stores into it makes it the same. -/
namespace LittleMan

namespace Machine

/-- The next cycle fetches the word at the address, or an instruction that reads it. -/
def Reads (m : Machine) (a : Address) : Prop :=
  ∃ i ∈ m.next?, m.counter = a ∨ i = .add a ∨ i = .subtract a ∨ i = .load a

/-- The next cycle carries out an instruction that stores the accumulator at the address. -/
def Stores (m : Machine) (a : Address) : Prop := m.next? = some (.store a)

instance (m : Machine) (a : Address) : Decidable (m.Reads a) :=
  inferInstanceAs (Decidable (∃ i ∈ m.next?, _))

instance (m : Machine) (a : Address) : Decidable (m.Stores a) :=
  inferInstanceAs (Decidable (m.next? = _))

/-- Two machines that differ in what they hold at one address, if at all. -/
structure SameBut (a : Address) (m m' : Machine) : Prop where
  rest : m' = { m with memory := m'.memory }
  get : ∀ b : Address, b ≠ a → m'.memory.get b = m.memory.get b

namespace SameBut

variable {a : Address} {m m' : Machine}

theorem flag (h : SameBut a m m') : m'.flag = m.flag := by rw [h.rest]

theorem counter (h : SameBut a m m') : m'.counter = m.counter := by rw [h.rest]

theorem accumulator (h : SameBut a m m') : m'.accumulator = m.accumulator := by rw [h.rest]

theorem accept (h : SameBut a m m') (v : Int) : SameBut a (m.accept v) (m'.accept v) where
  rest := by
    rw [h.rest]
    rfl
  get := h.get

/-- Both go on at the same address, and in the same state. -/
theorem moved {c c' : Address} {f f' : Flag} (h : SameBut a m m') (hc : c' = c) (hf : f' = f) :
    SameBut a { m with counter := c, flag := f } { m' with counter := c', flag := f' } where
  rest := by rw [h.rest, hc, hf]
  get := h.get

theorem fetch (h : SameBut a m m') (ha : m.counter ≠ a) : SameBut a m.fetch m'.fetch where
  rest := by
    have hw : m'.memory.get m'.counter = m.memory.get m.counter := by
      rw [h.counter, h.get m.counter ha]
    change { m' with fetched := m'.memory.get m'.counter, counter := m'.counter.next } = _
    rw [hw, h.rest]
    rfl
  get := h.get

/-- The same word in the same cell. -/
theorem set {w w' : Nat} (h : SameBut a m m') (b : Address) (hw : w' = w) :
    SameBut a { m with memory := m.memory.set b w b.isLt }
      { m' with memory := m'.memory.set b w' b.isLt } where
  rest := by rw [h.rest]
  get c hc := by
    subst hw
    have hg := h.get c hc
    simp only [get_eq_getElem, Vector.getElem_set] at hg ⊢
    split
    · rfl
    · exact hg

/-- A word in the cell itself leaves no difference. -/
theorem set_self {w w' : Nat} (h : SameBut a m m') (hw : w' = w) :
    ({ m' with memory := m'.memory.set a w' a.isLt } : Machine) =
      { m with memory := m.memory.set a w a.isLt } := by
  subst hw
  have hmem : m'.memory.set a w' a.isLt = m.memory.set a w' a.isLt := by
    ext i hi
    by_cases hia : i = a.val
    · subst hia
      simp
    · have hg : m'.memory[i] = m.memory[i] := h.get ⟨i, hi⟩ fun he => hia (congrArg Fin.val he)
      rw [Vector.getElem_set_ne _ _ (Ne.symm hia), Vector.getElem_set_ne _ _ (Ne.symm hia), hg]
  rw [h.rest, hmem]

/-- An instruction that does not read the cell does the same to both machines. -/
theorem execute (h : SameBut a m m') (origin : Address) (inbox : List Int) {i : Instruction}
    (hi : ¬(i = .add a ∨ i = .subtract a ∨ i = .load a)) :
    (m.execute origin inbox i).outcome.Alike Eq (m'.execute origin inbox i).outcome ∧
      (m'.execute origin inbox i).inbox = (m.execute origin inbox i).inbox ∧
      SameBut a (m.execute origin inbox i).machine (m'.execute origin inbox i).machine ∧
      (i = .store a →
        (m'.execute origin inbox i).machine = (m.execute origin inbox i).machine) := by
  rw [not_or, not_or] at hi
  obtain ⟨hadd, hsubtract, hload⟩ := hi
  cases i with
  | add b =>
    have hb : b ≠ a := fun hb => hadd (congrArg Instruction.add hb)
    refine ⟨.completed, rfl, ?_, nofun⟩
    change SameBut a _ (m'.accept (m'.accumulator + m'.memory.get b))
    rw [h.accumulator, h.get b hb]
    exact h.accept _
  | subtract b =>
    have hb : b ≠ a := fun hb => hsubtract (congrArg Instruction.subtract hb)
    refine ⟨.completed, rfl, ?_, nofun⟩
    change SameBut a _ (m'.accept (m'.accumulator - m'.memory.get b))
    rw [h.accumulator, h.get b hb]
    exact h.accept _
  | store b =>
    have hw : Word.ofInt m'.accumulator = Word.ofInt m.accumulator :=
      congrArg Word.ofInt h.accumulator
    refine ⟨.completed, rfl, h.set b hw, ?_⟩
    intro hb
    obtain rfl : b = a := Instruction.store.inj hb
    exact h.set_self hw
  | load b =>
    have hb : b ≠ a := fun hb => hload (congrArg Instruction.load hb)
    refine ⟨.completed, rfl, ⟨?_, h.get⟩, nofun⟩
    change { m' with accumulator := (m'.memory.get b : Int) } = _
    rw [h.get b hb, h.rest]
    rfl
  | branch b => exact ⟨.completed, rfl, h.moved rfl h.flag, nofun⟩
  | branchZero b =>
    have hz : m'.accumulator = 0 ↔ m.accumulator = 0 := by rw [h.accumulator]
    exact ⟨.completed, rfl, h.moved (if_congr hz rfl h.counter) h.flag, nofun⟩
  | branchPositive b =>
    have hp : 0 ≤ m'.accumulator ↔ 0 ≤ m.accumulator := by rw [h.accumulator]
    exact ⟨.completed, rfl, h.moved (if_congr hp rfl h.counter) h.flag, nofun⟩
  | input =>
    cases inbox with
    | nil =>
      have hf : Flag.waiting m'.counter = .waiting m.counter := congrArg Flag.waiting h.counter
      exact ⟨.blocked, rfl, h.moved rfl hf, nofun⟩
    | cons v rest => exact ⟨.completed, rfl, h.accept v, nofun⟩
  | output => exact ⟨.emitted h.accumulator.symm, rfl, h, nofun⟩
  | halt => exact ⟨.halted, rfl, h.moved h.counter rfl, nofun⟩
  | reserved w => exact ⟨.completed, rfl, h, nofun⟩
  | invalid w => exact ⟨.halted, rfl, h.moved h.counter rfl, nofun⟩

/-- A cycle that does not read the cell does the same to both machines, and leaves no difference if
it stores into the cell. -/
theorem step (h : SameBut a m m') (hr : ¬m.Reads a) (inbox : List Int) :
    (m.step inbox).outcome.Alike Eq (m'.step inbox).outcome ∧
      (m'.step inbox).inbox = (m.step inbox).inbox ∧
      SameBut a (m.step inbox).machine (m'.step inbox).machine ∧
      (m.Stores a → (m'.step inbox).machine = (m.step inbox).machine) := by
  have ha : ∀ {i}, m.next? = some i → m.counter ≠ a := fun hi hc => hr ⟨_, hi, .inl hc⟩
  have hw : m.flag = .running → m'.fetch.fetched = m.fetch.fetched := by
    intro hf
    have hfetch := h.fetch (ha (next?_of_running hf))
    rw [hfetch.rest]
  have hnone : m.next? = none → ¬m.Stores a := by
    intro hn hst
    rw [Stores, hn] at hst
    contradiction
  rcases step_cases_pair h.flag h.counter hw inbox with
    ⟨i, hi, hs, hs'⟩ | ⟨hn, resume, v, rest, rfl, hs, hs'⟩ | ⟨hn, o, ho, hs, hs'⟩
  · have hia : ¬(i = .add a ∨ i = .subtract a ∨ i = .load a) := fun hia => hr ⟨i, hi, .inr hia⟩
    obtain ⟨hout, hinbox, hsame, hstore⟩ := (h.fetch (ha hi)).execute m.counter inbox hia
    rw [hs, hs']
    refine ⟨hout, hinbox, hsame, ?_⟩
    intro hst
    exact hstore (Option.some.inj (hi.symm.trans hst))
  · rw [hs, hs']
    exact ⟨.completed, rfl, (h.accept v).moved rfl rfl, fun hst => absurd hst (hnone hn)⟩
  · rw [hs, hs']
    exact ⟨.of_idle ho, rfl, h, fun hst => absurd hst (hnone hn)⟩

end SameBut

end Machine

namespace Computer

/-- The difference lasts until a cycle stores into the cell. -/
theorem lockstep_unread (a : Address) :
    Lockstep (fun m => ¬m.Reads a) Eq
      (fun past m m' => m.SameBut a m' ∧ ((∃ p ∈ past, p.Stores a) → m' = m)) where
  flag h := h.1.flag
  counter h := h.1.counter
  step := by
    rintro past m m' ⟨h, hpast⟩ hr inbox
    obtain ⟨ho, hinbox, hs, hstore⟩ := h.step hr inbox
    refine ⟨ho, hinbox, hs, ?_⟩
    rintro ⟨p, hp, hpa⟩
    rcases List.mem_append.mp hp with hp | hp
    · rw [hpast ⟨p, hp, hpa⟩]
    · obtain rfl : p = m := List.mem_singleton.mp hp
      exact hstore hpa

/-- Two runs from machines that differ in one cell, which no cycle of the first reads, end alike and
have emitted the same values. At the end the machines differ in that cell at most, and not even
there if a cycle has stored into it. An input instruction that stays blocked has been fetched, so it
must not come from the cell either. -/
theorem run_unread {c d : Computer} {a : Address} (stops : Breakpoints) (limit : Nat)
    (hm : c.machine.SameBut a d.machine) (hi : d.inbox = c.inbox)
    (hr : ∀ m ∈ c.cycles (c.run stops limit), ¬m.Reads a) :
    Run.Alike Eq (Machine.SameBut a) c d (c.run stops limit) (d.run stops limit) ∧
      ((∃ m ∈ c.cycles (c.run stops limit), m.Stores a) →
        (d.run stops limit).computer.machine = (c.run stops limit).computer.machine) := by
  have hr := run_lockstep (lockstep_unread a) ⟨hm, nofun⟩ hi stops limit hr
  exact ⟨⟨⟨hr.machine.1, hr.inbox, hr.outbox⟩, hr.stop, hr.steps⟩, hr.machine.2⟩

/-- The program takes a value, stores it in cell 30, which nothing reads, emits it and halts. -/
theorem run_unread_stored :
    let m := Machine.load [901, 330, 902, 0]
    let m' := m.write 30 5
    let r := Computer.run ⟨m, [7], #[]⟩ .empty 9
    let r' := Computer.run ⟨m', [7], #[]⟩ .empty 9
    m' ≠ m ∧ Run.Alike Eq (Machine.SameBut (.ofNat 30)) ⟨m, [7], #[]⟩ ⟨m', [7], #[]⟩ r r' ∧
      r'.computer.machine = r.computer.machine ∧ r.computer.outbox = #[7] := by
  intro m m' r r'
  have hm : m.SameBut (.ofNat 30) m' := ⟨rfl, by decide +kernel⟩
  have hr : ∀ k ∈ Computer.cycles ⟨m, [7], #[]⟩ r, ¬k.Reads (.ofNat 30) := by decide +kernel
  have hst : ∃ k ∈ Computer.cycles ⟨m, [7], #[]⟩ r, k.Stores (.ofNat 30) := by decide +kernel
  obtain ⟨halike, hstored⟩ :=
    run_unread (c := ⟨m, [7], #[]⟩) (d := ⟨m', [7], #[]⟩) .empty 9 hm rfl hr
  exact ⟨by decide +kernel, halike, hstored hst, by decide +kernel⟩

end Computer

end LittleMan
