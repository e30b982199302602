import Mathlib.Logic.Function.Basic
import CppNet.Lib.Machine

/-!
# Flags that let one call through

Any number of threads call a task through a flag, as with `std::call_once`. One call at a
time runs the task; if that ends in an exception the flag is free again, and once it has
returned all other calls return without running it.

So the flag guards the resource the task works on. A `Contract` says what is known of it
before the task has run, while it runs and after it has returned. If the task by itself
keeps to it, it holds whatever the threads do (`orderly_step`); a thread that has got past
the flag finds the resource as the task has left it, and it stays so (`set_step`); and a
call that waits at the flag waits for one that can go on (`goes_on`).
-/

namespace Once

variable {ι σ ε : Type*}

/-- A task with the resource it works on: what it does before its first step, its steps,
and whether it can end, by returning (`true`) or in an exception. -/
structure Task (σ ε : Type*) where
  start : σ → σ
  work : σ → ε → Option σ
  ends : σ → Bool → Bool

inductive Flag (ι : Type*)
  | unset
  | taken (i : ι)
  | set
deriving Repr, DecidableEq

/-- Where a thread is: outside, at the flag, in the task, or past the flag. -/
inductive Phase
  | out | waits | active | past
deriving Repr, DecidableEq

structure State (ι σ : Type*) where
  flag : Flag ι
  phase : ι → Phase
  resource : σ

def State.init (r : σ) : State ι σ := ⟨.unset, fun _ => .out, r⟩

inductive Event (ι ε : Type*)
  | call (i : ι)
  | start (i : ι)
  | work (i : ι) (e : ε)
  | finish (i : ι) (returns : Bool)
  | pass (i : ι)
  | leave (i : ι)
deriving Repr, DecidableEq

def Event.thread : Event ι ε → ι
  | .call i | .start i | .work i _ | .finish i _ | .pass i | .leave i => i

section Step

variable [DecidableEq ι]

def State.move (s : State ι σ) (i : ι) (phase : Phase) : State ι σ :=
  { s with phase := Function.update s.phase i phase }

def step (task : Task σ ε) (s : State ι σ) : Event ι ε → Option (State ι σ)
  | .call i => if s.phase i = .out then some (s.move i .waits) else none
  | .start i =>
      if s.phase i = .waits ∧ s.flag = .unset then
        some { s.move i .active with flag := .taken i, resource := task.start s.resource }
      else none
  | .work i e =>
      if s.phase i = .active then
        (task.work s.resource e).map fun resource => { s with resource }
      else none
  | .finish i true =>
      if s.phase i = .active ∧ task.ends s.resource true = true then
        some { s.move i .past with flag := .set }
      else none
  | .finish i false =>
      if s.phase i = .active ∧ task.ends s.resource false = true then
        some { s.move i .out with flag := .unset }
      else none
  | .pass i => if s.phase i = .waits ∧ s.flag = .set then some (s.move i .past) else none
  | .leave i => if s.phase i = .past then some (s.move i .out) else none

end Step

/-! ## Contracts -/

/-- What the task requires of its resource and what it makes of it. -/
structure Contract (task : Task σ ε) where
  before : σ → Prop
  during : σ → Prop
  after : σ → Prop
  starts : ∀ {r}, before r → during (task.start r)
  works : ∀ {r e r'}, during r → task.work r e = some r' → during r'
  throws : ∀ {r}, during r → task.ends r false = true → before r
  returns : ∀ {r}, during r → task.ends r true = true → after r

variable {task : Task σ ε} {s t : State ι σ}

def Contract.Holds (c : Contract task) : Flag ι → σ → Prop
  | .unset => c.before
  | .taken _ => c.during
  | .set => c.after

/-- The contract holds, the one active call is the one that has taken the flag, and no
call is past a flag that is not set. -/
structure Orderly (c : Contract task) (s : State ι σ) : Prop where
  resource : c.Holds s.flag s.resource
  active : ∀ i, s.phase i = .active ↔ s.flag = .taken i
  past : ∀ i, s.phase i = .past → s.flag = .set

theorem orderly_init {c : Contract task} {r : σ} (h : c.before r) :
    Orderly c (State.init r : State ι σ) where
  resource := h
  active _ := by simp [State.init]
  past _ hpast := by cases hpast

theorem Orderly.exclusive {c : Contract task} (h : Orderly c s) {i j : ι}
    (hi : s.phase i = .active) (hj : s.phase j = .active) : i = j := by
  have htaken := (h.active i).mp hi
  rw [(h.active j).mp hj] at htaken
  exact (Flag.taken.inj htaken).symm

/-- While a call is active none is past the flag. -/
theorem Orderly.not_past {c : Contract task} (h : Orderly c s) {i j : ι}
    (hi : s.phase i = .active) : s.phase j ≠ .past := by
  intro hj
  have htaken := (h.active i).mp hi
  rw [h.past j hj] at htaken
  cases htaken

/-- No other call is active. -/
theorem Orderly.alone {c : Contract task} (h : Orderly c s) {i : ι} (hi : s.phase i = .active)
    {flag : Flag ι} (hflag : ∀ j, flag ≠ .taken j) :
    (∀ j, j ≠ i → s.phase j ≠ .active ∧ flag ≠ .taken j) ∧ s.flag ≠ .set := by
  refine ⟨fun j hj => ⟨fun hactive => hj (h.exclusive hactive hi), hflag j⟩, fun hset => ?_⟩
  rw [(h.active i).mp hi] at hset
  cases hset

/-! ## Steps -/

variable [DecidableEq ι]

/-- One thread moves on. Of the others it has to be said that none is active, nor past the
flag, if the flag changes. -/
theorem Orderly.move {c : Contract task} (h : Orderly c s) {i : ι} {phase : Phase}
    {flag : Flag ι} {r : σ} (hresource : c.Holds flag r)
    (hactive : phase = .active ↔ flag = .taken i) (hpast : phase = .past → flag = .set)
    (hflag : flag = s.flag ∨ (∀ j, j ≠ i → s.phase j ≠ .active ∧ flag ≠ .taken j)
      ∧ s.flag ≠ .set) :
    Orderly c { s.move i phase with flag, resource := r } where
  resource := hresource
  active j := by
    by_cases hj : j = i
    · subst hj
      simpa only [State.move, Function.update_self] using hactive
    · simp only [State.move, Function.update_of_ne hj]
      rcases hflag with rfl | ⟨hothers, -⟩
      · exact h.active j
      · exact iff_of_false (hothers j hj).1 (hothers j hj).2
  past j := by
    by_cases hj : j = i
    · subst hj
      simpa only [State.move, Function.update_self] using hpast
    · simp only [State.move, Function.update_of_ne hj]
      rcases hflag with rfl | ⟨-, hset⟩
      · exact h.past j
      · exact fun hj => absurd (h.past j hj) hset

theorem orderly_step {c : Contract task} (h : Orderly c s) {e : Event ι ε}
    (hstep : step task s e = some t) : Orderly c t := by
  have hresource := h.resource
  cases e with
  | call i =>
      obtain ⟨hi, ht⟩ := Option.ite_none_right_eq_some.mp hstep
      cases ht
      refine h.move hresource ?_ (by simp) (.inl rfl)
      exact iff_of_false (by simp) fun htaken => by rw [(h.active i).mpr htaken] at hi; cases hi
  | start i =>
      obtain ⟨⟨-, hunset⟩, ht⟩ := Option.ite_none_right_eq_some.mp hstep
      cases ht
      rw [hunset] at hresource
      refine h.move (c.starts hresource) (by simp) (by simp) (.inr ⟨fun j hj => ⟨?_, ?_⟩, ?_⟩)
      · rw [Ne, h.active, hunset]
        simp
      · simpa using hj.symm
      · simp [hunset]
  | work i e =>
      obtain ⟨hi, ht⟩ := Option.ite_none_right_eq_some.mp hstep
      obtain ⟨r, hr, rfl⟩ := Option.map_eq_some_iff.mp ht
      rw [(h.active i).mp hi] at hresource
      refine ⟨?_, h.active, h.past⟩
      simp only [(h.active i).mp hi]
      exact c.works hresource hr
  | finish i ok =>
      cases ok with
      | true =>
          obtain ⟨⟨hi, hends⟩, ht⟩ := Option.ite_none_right_eq_some.mp hstep
          cases ht
          rw [(h.active i).mp hi] at hresource
          have hafter : c.Holds (.set : Flag ι) s.resource := c.returns hresource hends
          exact h.move hafter (by simp) (fun _ => rfl) (.inr (h.alone hi (by simp)))
      | false =>
          obtain ⟨⟨hi, hends⟩, ht⟩ := Option.ite_none_right_eq_some.mp hstep
          cases ht
          rw [(h.active i).mp hi] at hresource
          have hbefore : c.Holds (.unset : Flag ι) s.resource := c.throws hresource hends
          exact h.move hbefore (by simp) (by simp) (.inr (h.alone hi (by simp)))
  | pass i =>
      obtain ⟨⟨-, hset⟩, ht⟩ := Option.ite_none_right_eq_some.mp hstep
      cases ht
      exact h.move hresource (by simp [hset]) (fun _ => hset) (.inl rfl)
  | leave i =>
      obtain ⟨hi, ht⟩ := Option.ite_none_right_eq_some.mp hstep
      cases ht
      exact h.move hresource (by simp [h.past i hi]) (by simp) (.inl rfl)

/-- Nothing happens any more to the resource behind a flag that is set. -/
theorem set_step {c : Contract task} (h : Orderly c s) (hset : s.flag = .set) {e : Event ι ε}
    (hstep : step task s e = some t) : t.flag = .set ∧ t.resource = s.resource := by
  have hidle : ∀ i, s.phase i ≠ .active := fun i hi => by
    have htaken := (h.active i).mp hi
    rw [hset] at htaken
    cases htaken
  cases e with
  | call i | pass i | leave i =>
      obtain ⟨-, ht⟩ := Option.ite_none_right_eq_some.mp hstep
      cases ht
      exact ⟨hset, rfl⟩
  | start i =>
      obtain ⟨⟨-, hunset⟩, -⟩ := Option.ite_none_right_eq_some.mp hstep
      rw [hset] at hunset
      cases hunset
  | work i e => exact absurd (Option.ite_none_right_eq_some.mp hstep).1 (hidle i)
  | finish i ok =>
      cases ok with
      | true => exact absurd (Option.ite_none_right_eq_some.mp hstep).1.1 (hidle i)
      | false => exact absurd (Option.ite_none_right_eq_some.mp hstep).1.1 (hidle i)

/-! ## Progress -/

/-- If a task that runs has a step to take or can end, then every call under way can go on,
or waits for the one call that can. `Q` are the steps of the task that count. -/
theorem goes_on {c : Contract task} (h : Orderly c s) {Q : ε → Prop}
    (hlive : ∀ r, c.during r →
      (∃ e, Q e ∧ (task.work r e).isSome) ∨ ∃ ok, task.ends r ok = true)
    {i : ι} (hi : s.phase i ≠ .out) :
    ∃ e : Event ι ε, (step task s e).isSome
      ∧ (e.thread = i ∨ s.phase i = .waits ∧ s.phase e.thread = .active)
      ∧ ∀ j w, e = .work j w → Q w := by
  have hactive : ∀ j, s.phase j = .active → ∃ e : Event ι ε, (step task s e).isSome
      ∧ e.thread = j ∧ ∀ j w, e = .work j w → Q w := by
    intro j hj
    have hresource := h.resource
    rw [(h.active j).mp hj] at hresource
    rcases hlive _ hresource with ⟨e, hQ, he⟩ | ⟨ok, hends⟩
    · refine ⟨.work j e, ?_, rfl, fun j' w heq => ?_⟩
      · simp only [step, if_pos hj, Option.isSome_map]
        exact he
      · cases heq
        exact hQ
    · refine ⟨.finish j ok, ?_, rfl, by simp⟩
      cases ok <;> simp only [step, if_pos (And.intro hj hends), Option.isSome_some]
  cases hphase : s.phase i with
  | out => exact absurd hphase hi
  | active =>
      obtain ⟨e, he, hthread, hQ⟩ := hactive i hphase
      exact ⟨e, he, .inl hthread, hQ⟩
  | past =>
      refine ⟨.leave i, ?_, .inl rfl, by simp⟩
      simp only [step, if_pos hphase, Option.isSome_some]
  | waits =>
      cases hflag : s.flag with
      | unset =>
          refine ⟨.start i, ?_, .inl rfl, by simp⟩
          simp only [step, if_pos (And.intro hphase hflag), Option.isSome_some]
      | set =>
          refine ⟨.pass i, ?_, .inl rfl, by simp⟩
          simp only [step, if_pos (And.intro hphase hflag), Option.isSome_some]
      | taken j =>
          have hj := (h.active j).mpr hflag
          obtain ⟨e, he, hthread, hQ⟩ := hactive j hj
          exact ⟨e, he, .inr ⟨rfl, hthread ▸ hj⟩, hQ⟩

end Once
