import Mathlib.Logic.Function.Basic
import CppNet.Lib.Machine

/-!
# Code that holds a mutex

Any number of threads run code, one instruction at a time and in any interleaving. Some
instructions take the mutex or give it back; the others act on the variables of the
thread and on what the threads share. The environment acts in between, and gives idle
threads code to run.

A proof outline (`Outline`) says what is known of the shared state while the mutex is free,
what while a thread holds it and has some code left, and what a thread may rely on that
does not hold it. If each instruction by itself keeps to the outline, it holds in every
interleaving (`orderly_step`). Then one thread at a time is in a critical section
(`Orderly.exclusive`), and a thread that has code left can go on, or waits for one that can
(`goes_on`).

Code that is left alone does what its instructions do one after the other (`exec_alone`).
-/

namespace Mutex

variable {ι α ν σ ε δ : Type*}

inductive Instr (α : Type*)
  | lock
  | unlock
  | act (a : α)
deriving Repr, DecidableEq

/-- A thread with this code left is in a critical section. -/
def inside : List (Instr α) → Bool
  | [] => false
  | .lock :: _ => false
  | .unlock :: _ => true
  | .act _ :: code => inside code

/-- Code that takes the mutex and gives it back in turns; `held` says whether it begins in a
critical section. -/
def paired (held : Bool) : List (Instr α) → Bool
  | [] => !held
  | .lock :: code => !held && paired true code
  | .unlock :: code => held && paired false code
  | .act _ :: code => paired held code

/-- The code a thread has left, and its variables. -/
structure Thread (α ν : Type*) where
  code : List (Instr α)
  vars : ν
deriving Repr, DecidableEq

/-- What the instructions do, what gives an idle thread code to run, and what the
environment does. -/
structure Program (ι α ν σ ε δ : Type*) where
  act : α → ν → σ → ν × σ
  begins : ι → ε → σ → Option (List (Instr α) × σ)
  env : δ → σ → Option σ

structure State (ι α ν σ : Type*) where
  holder : Option ι
  thread : ι → Thread α ν
  shared : σ

def State.init (vars : ν) (shared : σ) : State ι α ν σ := ⟨none, fun _ => ⟨[], vars⟩, shared⟩

inductive Event (ι ε δ : Type*)
  | begins (i : ι) (e : ε)
  | runs (i : ι)
  | env (d : δ)
deriving Repr, DecidableEq

section Step

variable [DecidableEq ι]

def State.put (s : State ι α ν σ) (i : ι) (code : List (Instr α)) (vars : ν) : State ι α ν σ :=
  { s with thread := Function.update s.thread i ⟨code, vars⟩ }

theorem put_self (s : State ι α ν σ) (i : ι) (code : List (Instr α)) (vars : ν) :
    (s.put i code vars).thread i = ⟨code, vars⟩ := Function.update_self ..

theorem put_of_ne (s : State ι α ν σ) {i j : ι} (hj : j ≠ i) (code : List (Instr α)) (vars : ν) :
    (s.put i code vars).thread j = s.thread j := Function.update_of_ne hj ..

/-- Thread `i` runs its next instruction. -/
def State.run (P : Program ι α ν σ ε δ) (s : State ι α ν σ) (i : ι) :
    List (Instr α) → Option (State ι α ν σ)
  | [] => none
  | .lock :: code =>
      if s.holder = none then some { s.put i code (s.thread i).vars with holder := some i }
      else none
  | .unlock :: code =>
      if s.holder = some i then some { s.put i code (s.thread i).vars with holder := none }
      else none
  | .act a :: code =>
      let (vars, shared) := P.act a (s.thread i).vars s.shared
      some { s.put i code vars with shared }

def step (P : Program ι α ν σ ε δ) (s : State ι α ν σ) : Event ι ε δ → Option (State ι α ν σ)
  | .begins i e =>
      if (s.thread i).code = [] then
        (P.begins i e s.shared).map fun (code, shared) =>
          { s.put i code (s.thread i).vars with shared }
      else none
  | .runs i => s.run P i (s.thread i).code
  | .env d => (P.env d s.shared).map fun shared => { s with shared }

end Step

/-! ## Outlines -/

/-- What is known of the shared state, and that every instruction keeps to it. -/
structure Outline (P : Program ι α ν σ ε δ) where
  free : σ → Prop
  held : ι → Thread α ν → σ → Prop
  waits : ι → List (Instr α) → σ → Prop
  held_inside : ∀ {i x s}, held i x s → inside x.code = true
  waits_inside : ∀ {i code s}, waits i code s → inside code = false
  lock : ∀ {i code vars s}, free s → waits i (.lock :: code) s → held i ⟨code, vars⟩ s
  unlock : ∀ {i code vars s}, held i ⟨.unlock :: code, vars⟩ s → free s ∧ waits i code s
  /-- An instruction of the critical section. -/
  works : ∀ {i a code vars s}, held i ⟨.act a :: code, vars⟩ s →
    held i ⟨code, (P.act a vars s).1⟩ (P.act a vars s).2
      ∧ ∀ j code', j ≠ i → waits j code' s → waits j code' (P.act a vars s).2
  /-- An instruction outside of it. -/
  roams : ∀ {i a code s} (vars), waits i (.act a :: code) s →
    waits i code (P.act a vars s).2
      ∧ (free s → free (P.act a vars s).2)
      ∧ (∀ j x, held j x s → held j x (P.act a vars s).2)
      ∧ ∀ j code', j ≠ i → waits j code' s → waits j code' (P.act a vars s).2
  begins : ∀ {i e code s t}, P.begins i e s = some (code, t) →
    (free s ∨ ∃ j x, held j x s) → waits i [] s →
    waits i code t
      ∧ (free s → free t)
      ∧ (∀ j x, j ≠ i → held j x s → held j x t)
      ∧ ∀ j code', j ≠ i → waits j code' s → waits j code' t
  env : ∀ {d s t}, P.env d s = some t →
    (free s → free t)
      ∧ (∀ j x, held j x s → held j x t)
      ∧ ∀ j code', waits j code' s → waits j code' t

variable {P : Program ι α ν σ ε δ} {s t : State ι α ν σ}

/-- The outline holds of each thread where it is. -/
structure Orderly (o : Outline P) (s : State ι α ν σ) : Prop where
  free : s.holder = none → o.free s.shared
  held : ∀ i, s.holder = some i → o.held i (s.thread i) s.shared
  waits : ∀ i, s.holder ≠ some i → o.waits i (s.thread i).code s.shared

theorem orderly_init {o : Outline P} {vars : ν} {shared : σ} (hfree : o.free shared)
    (hwaits : ∀ i, o.waits i [] shared) : Orderly o (State.init vars shared) where
  free _ := hfree
  held i hi := by cases hi
  waits i _ := hwaits i

namespace Orderly

variable {o : Outline P}

theorem known (h : Orderly o s) : o.free s.shared ∨ ∃ j x, o.held j x s.shared := by
  cases hholder : s.holder with
  | none => exact .inl (h.free hholder)
  | some i => exact .inr ⟨i, _, h.held i hholder⟩

/-- The thread in a critical section is the one that holds the mutex. -/
theorem inside_iff (h : Orderly o s) {i : ι} :
    inside (s.thread i).code = true ↔ s.holder = some i := by
  constructor
  · intro hi
    by_contra hne
    rw [o.waits_inside (h.waits i hne)] at hi
    cases hi
  · exact fun hi => o.held_inside (h.held i hi)

theorem exclusive (h : Orderly o s) {i j : ι} (hi : inside (s.thread i).code = true)
    (hj : inside (s.thread j).code = true) : i = j := by
  rw [h.inside_iff] at hi hj
  exact Option.some.inj (hi.symm.trans hj)

/-- The next instruction of a thread that does not hold the mutex. -/
theorem waits_cons (h : Orderly o s) {i : ι} {c : Instr α} {code : List (Instr α)}
    (hcode : (s.thread i).code = c :: code) (hin : inside (c :: code) = false) :
    o.waits i (c :: code) s.shared := by
  rw [← hcode]
  refine h.waits i ?_
  intro hi
  rw [← h.inside_iff, hcode, hin] at hi
  cases hi

/-- The next instruction of the thread that holds it. -/
theorem held_cons (h : Orderly o s) {i : ι} {code : List (Instr α)}
    (hcode : (s.thread i).code = code) (hin : inside code = true) :
    s.holder = some i ∧ o.held i ⟨code, (s.thread i).vars⟩ s.shared := by
  have hi : s.holder = some i := by
    rw [← h.inside_iff, hcode]
    exact hin
  refine ⟨hi, ?_⟩
  have hheld := h.held i hi
  rw [← hcode]
  exact hheld

end Orderly

/-! ## Steps -/

variable [DecidableEq ι]

theorem run_lock {i : ι} {code : List (Instr α)} (h : s.run P i (.lock :: code) = some t) :
    s.holder = none ∧ t = { s.put i code (s.thread i).vars with holder := some i } := by
  obtain ⟨hnone, ht⟩ := Option.ite_none_right_eq_some.mp h
  exact ⟨hnone, (Option.some.inj ht).symm⟩

theorem run_unlock {i : ι} {code : List (Instr α)} (h : s.run P i (.unlock :: code) = some t) :
    s.holder = some i ∧ t = { s.put i code (s.thread i).vars with holder := none } := by
  obtain ⟨hi, ht⟩ := Option.ite_none_right_eq_some.mp h
  exact ⟨hi, (Option.some.inj ht).symm⟩

namespace Orderly

variable {o : Outline P}

/-- One thread moves on, and perhaps the mutex and the shared state with it. -/
theorem put (i : ι) {code : List (Instr α)} {vars : ν} {holder : Option ι} {shared : σ}
    (hfree : holder = none → o.free shared)
    (hheld : holder = some i → o.held i ⟨code, vars⟩ shared)
    (hwaits : holder ≠ some i → o.waits i code shared)
    (hothers : ∀ j, j ≠ i → (holder = some j → o.held j (s.thread j) shared)
      ∧ (holder ≠ some j → o.waits j (s.thread j).code shared)) :
    Orderly o { s.put i code vars with holder, shared } where
  free := hfree
  held j hj := by
    by_cases heq : j = i
    · subst heq
      simpa only [State.put, Function.update_self] using hheld hj
    · simpa only [State.put, Function.update_of_ne heq] using (hothers j heq).1 hj
  waits j hj := by
    by_cases heq : j = i
    · subst heq
      simpa only [State.put, Function.update_self] using hwaits hj
    · simpa only [State.put, Function.update_of_ne heq] using (hothers j heq).2 hj

/-- A thread runs its next instruction. -/
theorem run (h : Orderly o s) {i : ι} (hrun : s.run P i (s.thread i).code = some t) :
    Orderly o t := by
  cases hcode : (s.thread i).code with
  | nil =>
      rw [hcode] at hrun
      cases hrun
  | cons c code =>
      rw [hcode] at hrun
      cases c with
      | lock =>
          obtain ⟨hnone, rfl⟩ := run_lock hrun
          refine put i (by simp) ?_ (by simp) ?_
          · intro _
            exact o.lock (h.free hnone) (h.waits_cons hcode rfl)
          · intro j hj
            exact ⟨fun heq => absurd (Option.some.inj heq).symm hj,
              fun _ => h.waits j (by simp [hnone])⟩
      | unlock =>
          obtain ⟨hi, rfl⟩ := run_unlock hrun
          obtain ⟨hfree, hwaits⟩ := o.unlock (h.held_cons hcode rfl).2
          refine put i (fun _ => hfree) (by simp) (fun _ => hwaits) ?_
          intro j hj
          refine ⟨by simp, fun _ => h.waits j ?_⟩
          intro heq
          rw [hi] at heq
          exact hj (Option.some.inj heq).symm
      | act a =>
          cases hrun
          cases hin : inside code with
          | true =>
              obtain ⟨hi, hheld⟩ := h.held_cons hcode hin
              obtain ⟨hnext, hothers⟩ := o.works hheld
              refine put i (by simp [State.put, hi]) (fun _ => hnext) (by simp [State.put, hi]) ?_
              intro j hj
              exact ⟨fun heq => absurd (Option.some.inj (heq.symm.trans hi)) hj,
                fun hne => hothers j _ hj (h.waits j hne)⟩
          | false =>
              have hwaits := h.waits_cons hcode hin
              obtain ⟨hnext, hfree, hheld, hothers⟩ := o.roams (s.thread i).vars hwaits
              refine put i (fun hnone => hfree (h.free hnone)) ?_ (fun _ => hnext) ?_
              · intro hi
                have hinside := h.inside_iff.mpr hi
                rw [hcode] at hinside
                cases hin.symm.trans hinside
              · intro j hj
                exact ⟨fun heq => hheld j _ (h.held j heq),
                  fun hne => hothers j _ hj (h.waits j hne)⟩

end Orderly

/-- Whatever the threads and the environment do, the outline holds. -/
theorem orderly_step {o : Outline P} (h : Orderly o s) {e : Event ι ε δ}
    (hstep : step P s e = some t) : Orderly o t := by
  cases e with
  | begins i e =>
      obtain ⟨hcode, ht⟩ := Option.ite_none_right_eq_some.mp hstep
      obtain ⟨⟨code, shared⟩, hbegins, rfl⟩ := Option.map_eq_some_iff.mp ht
      have hi : s.holder ≠ some i := by
        intro hi
        have hin := h.inside_iff.mpr hi
        rw [hcode] at hin
        cases hin
      have hwaits := h.waits i hi
      rw [hcode] at hwaits
      obtain ⟨hnext, hfree, hheld, hothers⟩ := o.begins hbegins h.known hwaits
      refine .put i (fun hnone => hfree (h.free hnone)) (fun heq => absurd heq hi)
        (fun _ => hnext) ?_
      intro j hj
      exact ⟨fun heq => hheld j _ hj (h.held j heq),
        fun hne => hothers j _ hj (h.waits j hne)⟩
  | runs i => exact h.run hstep
  | env d =>
      obtain ⟨shared, henv, rfl⟩ := Option.map_eq_some_iff.mp hstep
      obtain ⟨hfree, hheld, hwaits⟩ := o.env henv
      exact ⟨fun hnone => hfree (h.free hnone), fun i hi => hheld i _ (h.held i hi),
        fun i hi => hwaits i _ (h.waits i hi)⟩

/-- A thread that has code left can go on, or it is about to take the mutex and waits for a
thread that can. -/
theorem goes_on {o : Outline P} (h : Orderly o s) {i : ι} (hi : (s.thread i).code ≠ []) :
    ∃ j, (step P s (.runs j)).isSome
      ∧ (j = i ∨ (s.thread i).code.head? = some .lock ∧ inside (s.thread j).code = true) := by
  have hinside : ∀ j, inside (s.thread j).code = true → (step P s (.runs j)).isSome := by
    intro j hin
    have hj := h.inside_iff.mp hin
    show (s.run P j (s.thread j).code).isSome = true
    cases hcode : (s.thread j).code with
    | nil =>
        rw [hcode] at hin
        cases hin
    | cons c code =>
        rw [hcode] at hin
        cases c with
        | lock => cases hin
        | unlock => simp only [State.run, if_pos hj, Option.isSome_some]
        | act a => rfl
  cases hcode : (s.thread i).code with
  | nil => exact absurd hcode hi
  | cons c code =>
      cases c with
      | lock =>
          cases hholder : s.holder with
          | none =>
              refine ⟨i, ?_, .inl rfl⟩
              show (s.run P i (s.thread i).code).isSome = true
              simp only [hcode, State.run, if_pos hholder, Option.isSome_some]
          | some j =>
              have hj := h.inside_iff.mpr hholder
              exact ⟨j, hinside j hj, .inr ⟨rfl, hj⟩⟩
      | unlock => exact ⟨i, hinside i (by rw [hcode]; rfl), .inl rfl⟩
      | act a =>
          refine ⟨i, ?_, .inl rfl⟩
          show (s.run P i (s.thread i).code).isSome = true
          rw [hcode]
          rfl

/-! ## What a step changes -/

/-- What an instruction does to the variables of its thread and to the shared state. -/
def Program.does (P : Program ι α ν σ ε δ) : Instr α → ν → σ → ν × σ
  | .act a, vars, shared => P.act a vars shared
  | _, vars, shared => (vars, shared)

theorem runs_cases {i : ι} (h : step P s (.runs i) = some t) :
    ∃ c code, (s.thread i).code = c :: code ∧ (t.thread i).code = code
      ∧ (∀ j, j ≠ i → t.thread j = s.thread j)
      ∧ t.shared = (P.does c (s.thread i).vars s.shared).2 := by
  have hself : ∀ code vars, ((s.put i code vars).thread i).code = code := by
    intro code vars
    rw [put_self]
  have hrun : s.run P i (s.thread i).code = some t := h
  cases hcode : (s.thread i).code with
  | nil =>
      rw [hcode] at hrun
      cases hrun
  | cons c code =>
      rw [hcode] at hrun
      refine ⟨c, code, rfl, ?_⟩
      cases c with
      | lock =>
          obtain ⟨-, rfl⟩ := run_lock hrun
          exact ⟨hself _ _, fun j hj => put_of_ne s hj _ _, rfl⟩
      | unlock =>
          obtain ⟨-, rfl⟩ := run_unlock hrun
          exact ⟨hself _ _, fun j hj => put_of_ne s hj _ _, rfl⟩
      | act a =>
          cases hrun
          exact ⟨hself _ _, fun j hj => put_of_ne s hj _ _, rfl⟩

theorem begins_cases {i : ι} {e : ε} (h : step P s (.begins i e) = some t) :
    ∃ code, (s.thread i).code = [] ∧ P.begins i e s.shared = some (code, t.shared)
      ∧ (t.thread i).code = code ∧ ∀ j, j ≠ i → t.thread j = s.thread j := by
  obtain ⟨hcode, ht⟩ := Option.ite_none_right_eq_some.mp h
  obtain ⟨⟨code, shared⟩, hbegins, rfl⟩ := Option.map_eq_some_iff.mp ht
  refine ⟨code, hcode, hbegins, ?_, fun j hj => put_of_ne s hj _ _⟩
  exact congrArg Thread.code (put_self s i code _)

/-! ## Code that is left alone -/

/-- What the instructions do one after the other. -/
def Program.effect (P : Program ι α ν σ ε δ) : List (Instr α) → ν × σ → ν × σ
  | [], x => x
  | .lock :: code, x => P.effect code x
  | .unlock :: code, x => P.effect code x
  | .act a :: code, x => P.effect code (P.act a x.1 x.2)

/-- One step of a thread that nothing else comes between. -/
theorem step_alone {i : ι} {c : Instr α} {code rest : List (Instr α)} {held : Bool}
    (hcode : (s.thread i).code = c :: (code ++ rest))
    (hpaired : paired held (c :: code) = true)
    (hholder : s.holder = if held then some i else none) :
    ∃ t held', step P s (.runs i) = some t ∧ (t.thread i).code = code ++ rest
      ∧ paired held' code = true ∧ (t.holder = if held' then some i else none)
      ∧ (∀ j, j ≠ i → t.thread j = s.thread j)
      ∧ P.effect (c :: code) ((s.thread i).vars, s.shared)
          = P.effect code ((t.thread i).vars, t.shared) := by
  have hothers : ∀ vars, ∀ j, j ≠ i → (s.put i (code ++ rest) vars).thread j = s.thread j :=
    fun vars j hj => put_of_ne s hj _ _
  have hself : ∀ vars, (s.put i (code ++ rest) vars).thread i = ⟨code ++ rest, vars⟩ :=
    fun vars => put_self s i _ vars
  simp only [step, hcode]
  cases c with
  | lock =>
      rw [paired, Bool.and_eq_true, Bool.not_eq_true'] at hpaired
      obtain ⟨rfl, hpaired⟩ := hpaired
      refine ⟨{ s.put i (code ++ rest) (s.thread i).vars with holder := some i }, true,
        if_pos hholder, ?_, hpaired, rfl, hothers _, ?_⟩
      · rw [hself]
      · rw [hself]
        rfl
  | unlock =>
      rw [paired, Bool.and_eq_true] at hpaired
      obtain ⟨rfl, hpaired⟩ := hpaired
      refine ⟨{ s.put i (code ++ rest) (s.thread i).vars with holder := none }, false,
        if_pos hholder, ?_, hpaired, rfl, hothers _, ?_⟩
      · rw [hself]
      · rw [hself]
        rfl
  | act a =>
      refine ⟨{ s.put i (code ++ rest) (P.act a (s.thread i).vars s.shared).1 with
          shared := (P.act a (s.thread i).vars s.shared).2 }, held,
        rfl, ?_, hpaired, hholder, hothers _, ?_⟩
      · rw [hself]
      · rw [hself]
        rfl

/-- A thread runs the first part of its code. -/
theorem exec_alone {i : ι} {code rest : List (Instr α)} {held : Bool}
    (hcode : (s.thread i).code = code ++ rest) (hpaired : paired held code = true)
    (hholder : s.holder = if held then some i else none) :
    ∃ t, Machine.exec (step P) s (List.replicate code.length (.runs i)) = some t
      ∧ t.holder = none ∧ (t.thread i).code = rest ∧ (∀ j, j ≠ i → t.thread j = s.thread j)
      ∧ t.shared = (P.effect code ((s.thread i).vars, s.shared)).2 := by
  induction code generalizing s held with
  | nil =>
      rw [paired, Bool.not_eq_true'] at hpaired
      subst hpaired
      exact ⟨s, rfl, hholder, hcode, fun _ _ => rfl, rfl⟩
  | cons c code ih =>
      obtain ⟨u, held', hstep, hcode', hpaired', hholder', hothers, heffect⟩ :=
        step_alone (P := P) hcode hpaired hholder
      obtain ⟨t, hrest, hnone, hdone, hothers', hshared⟩ := ih hcode' hpaired' hholder'
      refine ⟨t, Machine.exec_cons_eq_some.mpr ⟨u, hstep, hrest⟩, hnone, hdone,
        fun j hj => (hothers' j hj).trans (hothers j hj), ?_⟩
      rw [hshared, heffect]

end Mutex
