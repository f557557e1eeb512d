import LittleMan.Breakpoints
import Mathlib.Data.Finset.Erase
import Mathlib.Data.Finset.Lattice.Lemmas
import Mathlib.Data.List.Induction
import Mathlib.Data.List.Perm.Basic
import Mathlib.Data.List.Sort

/-! Breakpoints are a finite set: whatever is put in, taken out and looked up, the list of addresses
stays increasing and has just the members that the set has, however it is searched. -/
namespace LittleMan.Breakpoints

/-- What can be done with breakpoints. -/
inductive Operation
  | insert (a : Nat)
  | remove (a : Nat)
  | contains (a : Nat)
  deriving DecidableEq, Repr

/-- Each operation answers something. -/
def perform (s : Breakpoints) : Operation → Bool × Breakpoints
  | .insert a => s.insert a
  | .remove a => s.remove a
  | .contains a => (s.contains a, s)

/-- The same done with a set. -/
def performOn (A : Finset Nat) : Operation → Bool × Finset Nat
  | .insert a => (a ∉ A, Insert.insert a A)
  | .remove a => (a ∈ A, A.erase a)
  | .contains a => (a ∈ A, A)

/-- The answers to operations one after the other, and what there is after each of them. -/
def trace {σ : Type} (step : σ → Operation → Bool × σ) (s : σ) : List Operation → List (Bool × σ)
  | [] => []
  | op :: ops => step s op :: trace step (step s op).2 ops

/-- Addresses put in one by one. -/
def collect (step : Breakpoints → Operation → Bool × Breakpoints) (as : List Nat) : Breakpoints :=
  as.foldl (fun s a => (step s (.insert a)).2) empty

/-- What a search for an address comes to: the place where it stands, or a place where it could be
put with all of the list still in order. -/
def Finds (as : List Nat) (a : Nat) : Except Nat Nat → Prop
  | .ok i => as[i]? = some a
  | .error i => a ∉ as ∧ i ≤ as.length ∧ (as.insertIdx i a).Pairwise (· ≤ ·)

/-- The search need not come to anything in a list that is out of order. -/
def Searches (find : List Nat → Nat → Except Nat Nat) : Prop :=
  ∀ as a, as.Pairwise (· < ·) → Finds as a (find as a)

/-- The operations at the places that a search finds. -/
def performBy (find : List Nat → Nat → Except Nat Nat) (s : Breakpoints) :
    Operation → Bool × Breakpoints
  | .insert a =>
    match find s.addresses a with
    | .ok _ => (false, s)
    | .error i => (true, ⟨s.addresses.insertIdx i a⟩)
  | .remove a =>
    match find s.addresses a with
    | .ok i => (true, ⟨s.addresses.eraseIdx i⟩)
    | .error _ => (false, s)
  | .contains a =>
    match find s.addresses a with
    | .ok _ => (true, s)
    | .error _ => (false, s)

variable {s s' : Breakpoints} {A : Finset Nat} {as : List Nat} {a b : Nat}
variable {find : List Nat → Nat → Except Nat Nat}
variable {step step' : Breakpoints → Operation → Bool × Breakpoints}

theorem search_eq_true_iff (h : as.Pairwise (· < ·)) : search a as = true ↔ a ∈ as := by
  induction as with
  | nil => simp [search]
  | cons b bs ih =>
    obtain ⟨hb, hbs⟩ := List.pairwise_cons.mp h
    rw [search, List.mem_cons]
    by_cases hlt : b < a
    · have hne : a ≠ b := by omega
      simp [hlt, ih hbs, hne]
    · -- all that comes behind `b` is larger than `a`
      have hnot : a ∉ bs := by
        intro ha
        have := hb a ha
        omega
      simp [hlt, hnot, eq_comm (a := a)]

theorem mem_place : b ∈ place a as ↔ b = a ∨ b ∈ as := by
  induction as with
  | nil => simp [place]
  | cons c cs ih =>
    rw [place]
    split
    · simp only [List.mem_cons, ih]
      exact or_left_comm
    · simp

theorem pairwise_place (h : as.Pairwise (· < ·)) (ha : a ∉ as) :
    (place a as).Pairwise (· < ·) := by
  induction as with
  | nil => simp [place]
  | cons c cs ih =>
    obtain ⟨hc, hcs⟩ := List.pairwise_cons.mp h
    rw [List.mem_cons, not_or] at ha
    rw [place]
    by_cases hlt : c < a
    · rw [if_pos hlt, List.pairwise_cons]
      refine ⟨fun b hb => ?_, ih hcs ha.2⟩
      rcases mem_place.mp hb with rfl | hb
      · exact hlt
      · exact hc b hb
    · have hac : a < c := by omega
      rw [if_neg hlt, List.pairwise_cons]
      refine ⟨fun b hb => ?_, h⟩
      rcases List.mem_cons.mp hb with rfl | hb
      · exact hac
      · exact Nat.lt_trans hac (hc b hb)

/-- Only the address itself may be dropped, since nothing else is looked for. -/
theorem mem_drop (h : as.Pairwise (· < ·)) (ha : a ∈ as) :
    b ∈ drop a as ↔ b ≠ a ∧ b ∈ as := by
  induction as with
  | nil => contradiction
  | cons c cs ih =>
    obtain ⟨hc, hcs⟩ := List.pairwise_cons.mp h
    rw [drop]
    by_cases hlt : c < a
    · have hmem : a ∈ cs := by
        rcases List.mem_cons.mp ha with rfl | ha
        · omega
        · exact ha
      rw [if_pos hlt, List.mem_cons, List.mem_cons, ih hcs hmem]
      constructor
      · rintro (rfl | ⟨hne, hb⟩)
        · exact ⟨by omega, .inl rfl⟩
        · exact ⟨hne, .inr hb⟩
      · rintro ⟨hne, rfl | hb⟩
        · exact .inl rfl
        · exact .inr ⟨hne, hb⟩
    · obtain rfl : a = c := by
        rcases List.mem_cons.mp ha with rfl | ha
        · rfl
        · have := hc a ha
          omega
      rw [if_neg hlt, List.mem_cons]
      constructor
      · intro hb
        have := hc b hb
        exact ⟨by omega, .inr hb⟩
      · rintro ⟨hne, rfl | hb⟩
        · contradiction
        · exact hb

theorem drop_sublist (a : Nat) (as : List Nat) : (drop a as).Sublist as := by
  induction as with
  | nil => exact List.Sublist.slnil
  | cons c cs ih =>
    rw [drop]
    split
    · exact ih.cons_cons c
    · exact List.sublist_cons_self c cs

/-- The list of breakpoints is what it should be for a set: increasing, and with its members. -/
structure Represents (s : Breakpoints) (A : Finset Nat) : Prop where
  increasing : s.addresses.Pairwise (· < ·)
  mem_iff : ∀ a, a ∈ s.addresses ↔ a ∈ A

/-- A set has one list only. -/
theorem Represents.unique (h : s.Represents A) (h' : s'.Represents A) : s = s' := by
  obtain ⟨as⟩ := s
  obtain ⟨bs⟩ := s'
  have hmem : ∀ a, a ∈ as ↔ a ∈ bs := fun a => (h.mem_iff a).trans (h'.mem_iff a).symm
  exact congrArg Breakpoints.mk (h.increasing.eq_of_mem_iff h'.increasing hmem)

theorem Represents.contains_eq_true_iff (h : s.Represents A) : s.contains a = true ↔ a ∈ A :=
  (search_eq_true_iff h.increasing).trans (h.mem_iff a)

/-- The same answer, and a list that is right for the set behind it. -/
structure Agrees (x : Bool × Breakpoints) (y : Bool × Finset Nat) : Prop where
  answer : x.1 = y.1
  represents : x.2.Represents y.2

/-- The operations do to lists what they do to sets. -/
def Follows (step : Breakpoints → Operation → Bool × Breakpoints) : Prop :=
  ∀ s A op, s.Represents A → Agrees (step s op) (performOn A op)

theorem agrees_insert (h : s.Represents A) (a : Nat) :
    Agrees (s.insert a) (performOn A (.insert a)) := by
  unfold Breakpoints.insert performOn
  dsimp only
  by_cases ha : a ∈ A
  · rw [if_pos (h.contains_eq_true_iff.mpr ha), Finset.insert_eq_of_mem ha]
    exact ⟨by simp [ha], h⟩
  · have hnot : a ∉ s.addresses := fun hs => ha ((h.mem_iff a).mp hs)
    rw [if_neg fun hs => ha (h.contains_eq_true_iff.mp hs)]
    refine ⟨by simp [ha], pairwise_place h.increasing hnot, fun b => ?_⟩
    rw [mem_place, h.mem_iff, Finset.mem_insert]

theorem agrees_remove (h : s.Represents A) (a : Nat) :
    Agrees (s.remove a) (performOn A (.remove a)) := by
  unfold Breakpoints.remove performOn
  dsimp only
  by_cases ha : a ∈ A
  · rw [if_pos (h.contains_eq_true_iff.mpr ha)]
    refine ⟨by simp [ha], h.increasing.sublist (drop_sublist a _), fun b => ?_⟩
    rw [mem_drop h.increasing ((h.mem_iff a).mpr ha), h.mem_iff, Finset.mem_erase]
  · rw [if_neg fun hs => ha (h.contains_eq_true_iff.mp hs), Finset.erase_eq_of_notMem ha]
    exact ⟨by simp [ha], h⟩

theorem follows_perform : Follows perform := by
  intro s A op h
  cases op with
  | insert a => exact agrees_insert h a
  | remove a => exact agrees_remove h a
  | contains a =>
    refine ⟨?_, h⟩
    rw [Bool.eq_iff_iff, perform, h.contains_eq_true_iff, performOn, decide_eq_true_iff]

/-- A list into which an address is put in order is increasing, if the address is new. -/
theorem pairwise_insertIdx {i : Nat} (h : as.Pairwise (· < ·)) (ha : a ∉ as) (hi : i ≤ as.length)
    (hp : (as.insertIdx i a).Pairwise (· ≤ ·)) : (as.insertIdx i a).Pairwise (· < ·) := by
  have hperm : (as.insertIdx i a).Perm (a :: as) := List.perm_insertIdx a as hi
  have hnodup : (as.insertIdx i a).Nodup := by
    rw [hperm.nodup_iff, List.nodup_cons]
    exact ⟨ha, h.imp Nat.ne_of_lt⟩
  exact (hp.and hnodup).imp fun hb => Nat.lt_of_le_of_ne hb.1 hb.2

/-- In an increasing list an address stands at one place only. -/
theorem mem_eraseIdx_iff {i : Nat} (h : as.Pairwise (· < ·)) (hi : as[i]? = some a) :
    b ∈ as.eraseIdx i ↔ b ≠ a ∧ b ∈ as := by
  have hnodup : as.Nodup := h.imp Nat.ne_of_lt
  obtain ⟨hlt, rfl⟩ := List.getElem?_eq_some_iff.mp hi
  rw [List.mem_eraseIdx_iff_getElem]
  constructor
  · rintro ⟨j, hj, hne, rfl⟩
    exact ⟨fun he => hne (hnodup.getElem_inj_iff.mp he), List.getElem_mem hj⟩
  · rintro ⟨hne, hb⟩
    obtain ⟨j, hj, rfl⟩ := List.getElem_of_mem hb
    exact ⟨j, hj, fun he => hne (by subst he; rfl), rfl⟩

theorem follows_performBy (hf : Searches find) : Follows (performBy find) := by
  intro s A op h
  have hfound : ∀ a, Finds s.addresses a (find s.addresses a) := fun a => hf _ a h.increasing
  have hmem : ∀ {i a}, s.addresses[i]? = some a → a ∈ A := fun hi =>
    (h.mem_iff _).mp (List.mem_of_getElem? hi)
  have hnot : ∀ {a}, a ∉ s.addresses → a ∉ A := fun hn ha => hn ((h.mem_iff _).mpr ha)
  cases op with
  | insert a =>
    have ha := hfound a
    unfold performBy performOn
    dsimp only
    cases hr : find s.addresses a with
    | ok i =>
      rw [hr] at ha
      rw [Finset.insert_eq_of_mem (hmem ha)]
      exact ⟨by simp [hmem ha], h⟩
    | error i =>
      rw [hr] at ha
      obtain ⟨hn, hi, hp⟩ := ha
      refine ⟨by simp [hnot hn], pairwise_insertIdx h.increasing hn hi hp, fun b => ?_⟩
      rw [List.mem_insertIdx hi, h.mem_iff, Finset.mem_insert]
  | remove a =>
    have ha := hfound a
    unfold performBy performOn
    dsimp only
    cases hr : find s.addresses a with
    | ok i =>
      rw [hr] at ha
      refine ⟨by simp [hmem ha], h.increasing.sublist (List.eraseIdx_sublist _ i), fun b => ?_⟩
      rw [mem_eraseIdx_iff h.increasing ha, h.mem_iff, Finset.mem_erase]
    | error i =>
      rw [hr] at ha
      rw [Finset.erase_eq_of_notMem (hnot ha.1)]
      exact ⟨by simp [hnot ha.1], h⟩
  | contains a =>
    have ha := hfound a
    unfold performBy performOn
    dsimp only
    cases hr : find s.addresses a with
    | ok i =>
      rw [hr] at ha
      exact ⟨by simp [hmem ha], h⟩
    | error i =>
      rw [hr] at ha
      exact ⟨by simp [hnot ha.1], h⟩

namespace Follows

theorem trace (hs : Follows step) (h : s.Represents A) (ops : List Operation) :
    List.Forall₂ Agrees (trace step s ops) (trace performOn A ops) := by
  induction ops generalizing s A with
  | nil => exact .nil
  | cons op ops ih =>
    have hop := hs s A op h
    exact .cons hop (ih hop.represents)

theorem collect (hs : Follows step) (as : List Nat) :
    (collect step as).Represents as.toFinset := by
  have hempty : empty.Represents ∅ := ⟨List.Pairwise.nil, by simp [empty]⟩
  induction as using List.reverseRecOn with
  | nil => exact hempty
  | append_singleton as a ih =>
    have hset : (as ++ [a]).toFinset = (performOn as.toFinset (.insert a)).2 := by
      rw [List.toFinset_append, Finset.union_comm]
      rfl
    have hlist : Breakpoints.collect step (as ++ [a]) =
        (step (Breakpoints.collect step as) (.insert a)).2 := List.foldl_append
    rw [hset, hlist]
    exact (hs _ _ (.insert a) ih).represents

/-- Two ways to do the same to a set are one way. -/
theorem step_eq (hs : Follows step) (hs' : Follows step') (h : s.Represents A) (op : Operation) :
    step s op = step' s op := by
  have hop := hs s A op h
  have hop' := hs' s A op h
  exact Prod.ext (hop.answer.trans hop'.answer.symm) (hop.represents.unique hop'.represents)

theorem trace_eq (hs : Follows step) (hs' : Follows step') (h : s.Represents A)
    (ops : List Operation) : Breakpoints.trace step s ops = Breakpoints.trace step' s ops := by
  induction ops generalizing s A with
  | nil => rfl
  | cons op ops ih =>
    have hnext := ih (hs s A op h).represents
    rw [Breakpoints.trace, Breakpoints.trace, hnext, hs.step_eq hs' h op]

end Follows

/-- Addresses that are put in one by one, and whatever is done with them then: the list is increasing
all the time, and it has the members of the set with which the same is done. What is answered is
right for the set. Nothing of this depends on how the lists are searched. -/
theorem trace_represents (hf : Searches find) (as : List Nat) (ops : List Operation) :
    (ofList as).Represents as.toFinset ∧
      List.Forall₂ Agrees (trace perform (ofList as) ops) (trace performOn as.toFinset ops) ∧
      collect (performBy find) as = ofList as ∧
      trace (performBy find) (ofList as) ops = trace perform (ofList as) ops := by
  have hset : (ofList as).Represents as.toFinset := follows_perform.collect as
  have hfind : Follows (performBy find) := follows_performBy hf
  refine ⟨hset, follows_perform.trace hset ops, ?_, ?_⟩
  · exact (hfind.collect as).unique hset
  · exact hfind.trace_eq follows_perform hset ops

/-- A search that looks at one address after the other. -/
def scan : List Nat → Nat → Except Nat Nat
  | [], _ => .error 0
  | b :: bs, a =>
    if b < a then
      match scan bs a with
      | .ok i => .ok (i + 1)
      | .error i => .error (i + 1)
    else if b = a then .ok 0
    else .error 0

theorem searches_scan : Searches scan := by
  intro as a h
  induction as with
  | nil => simp [scan, Finds]
  | cons b bs ih =>
    obtain ⟨hb, hbs⟩ := List.pairwise_cons.mp h
    have hrest := ih hbs
    rw [scan]
    by_cases hlt : b < a
    · rw [if_pos hlt]
      cases hr : scan bs a with
      | ok i =>
        rw [hr] at hrest
        exact hrest
      | error i =>
        rw [hr] at hrest
        obtain ⟨hn, hi, hp⟩ := hrest
        refine ⟨?_, Nat.succ_le_succ hi, ?_⟩
        · rw [List.mem_cons, not_or]
          exact ⟨by omega, hn⟩
        · rw [List.insertIdx_succ_cons, List.pairwise_cons]
          refine ⟨fun c hc => ?_, hp⟩
          rcases (List.mem_insertIdx hi).mp hc with rfl | hc
          · exact Nat.le_of_lt hlt
          · exact Nat.le_of_lt (hb c hc)
    · rw [if_neg hlt]
      by_cases he : b = a
      · rw [if_pos he, he]
        rfl
      · have hle : ∀ c ∈ b :: bs, a < c := by
          intro c hc
          rcases List.mem_cons.mp hc with rfl | hc
          · omega
          · have := hb c hc
            omega
        rw [if_neg he]
        refine ⟨fun ha => Nat.lt_irrefl a (hle a ha), Nat.zero_le _, ?_⟩
        rw [List.insertIdx_zero, List.pairwise_cons]
        exact ⟨fun c hc => Nat.le_of_lt (hle c hc), h.imp Nat.le_of_lt⟩

theorem trace_represents_shuffled :
    Searches scan ∧ collect (performBy scan) [9, 1, 9, 5] = ⟨[1, 5, 9]⟩ ∧
      trace (performBy scan) ⟨[1, 5, 9]⟩ [.insert 40, .insert 9, .remove 1, .contains 5, .remove 1] =
        [(true, ⟨[1, 5, 9, 40]⟩), (false, ⟨[1, 5, 9, 40]⟩), (true, ⟨[5, 9, 40]⟩),
          (true, ⟨[5, 9, 40]⟩), (false, ⟨[5, 9, 40]⟩)] := by
  have hlist : ofList [9, 1, 9, 5] = ⟨[1, 5, 9]⟩ := by decide
  obtain ⟨-, -, hcollect, htrace⟩ := trace_represents searches_scan [9, 1, 9, 5]
    [.insert 40, .insert 9, .remove 1, .contains 5, .remove 1]
  rw [hlist] at hcollect htrace
  refine ⟨searches_scan, hcollect, ?_⟩
  rw [htrace]
  decide

end LittleMan.Breakpoints
