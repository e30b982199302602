import Mathlib.Logic.Relation

/-!
# Machines driven by events

A machine is a partial step function `σ → ε → Option σ`. Whatever the
environment chooses (which operation completes, with how many bytes, what
uninitialised memory holds) is part of the event, so a run is a list of
events; `none` means that the event cannot happen in that state.

Two predicates speak about whole runs: `Throughout P s es` says that `P`
holds in `s` and in every state the run visits, `Along C s es` that every
step the run takes meets the condition `C`. The rules below pass from one
step to a run:

- `throughout_of_preserves`: an invariant that is kept by the steps meeting
  `C` holds throughout a run all of whose steps meet `C`, and
  `throughout_of_step`: one that is kept by every step, throughout every run;
- `throughout_iff_along`: where the steps that miss `C` lead out of `P` and
  the others keep an invariant below it, the two predicates coincide;
- `along_or_last`: where the steps that miss `C` lead to a state there is no way
  back from, a run meets `C` in every step or ends in such a state;
- `exec_length_le`: where every step lowers a measure, it bounds the length of a run, and
  `exec_countP_le`: where some do, their number;
- `refines_throughout`: the simulation rule, for an abstract transition
  relation;
- `exec_rel`: the bisimulation rule, for machines that go in step, and `exec_map`: its case
  of a change of the state that no step notices;
- `exec_member`: a run of a system is, for one of its members, a run of the
  member's own machine;
- `exec_erase`: events that leave a view of the state alone can be deleted
  from a run without changing the view it ends in.
-/

namespace Machine

variable {σ ε : Type*} (step : σ → ε → Option σ)

/-- Run the machine on a list of events. -/
def exec : σ → List ε → Option σ
  | s, [] => some s
  | s, e :: es => (step s e).bind fun t => exec t es

/-- `P` holds in `s` and in every state the run visits. -/
def Throughout (P : σ → Prop) : σ → List ε → Prop
  | s, [] => P s
  | s, e :: es => P s ∧ ∀ t ∈ step s e, Throughout P t es

/-- Every step the run takes meets `C`. -/
def Along (C : σ → ε → Prop) : σ → List ε → Prop
  | _, [] => True
  | s, e :: es => ∀ t ∈ step s e, C s e ∧ Along C t es

instance decidableThroughout {P : σ → Prop} [DecidablePred P] :
    ∀ s es, Decidable (Throughout step P s es)
  | s, [] => inferInstanceAs (Decidable (P s))
  | s, e :: es =>
      have : DecidablePred fun t => Throughout step P t es :=
        fun t => decidableThroughout t es
      inferInstanceAs (Decidable (P s ∧ ∀ t ∈ step s e, Throughout step P t es))

instance decidableAlong {C : σ → ε → Prop} [∀ s e, Decidable (C s e)] :
    ∀ s es, Decidable (Along step C s es)
  | _, [] => .isTrue trivial
  | s, e :: es =>
      have : DecidablePred fun t => C s e ∧ Along step C t es :=
        fun t =>
          have : Decidable (Along step C t es) := decidableAlong t es
          inferInstanceAs (Decidable (C s e ∧ Along step C t es))
      inferInstanceAs (Decidable (∀ t ∈ step s e, C s e ∧ Along step C t es))

variable {step}

/-! ## Runs -/

@[simp] theorem exec_nil (s : σ) : exec step s [] = some s := rfl

theorem exec_cons_eq_some {s u : σ} {e : ε} {es : List ε} :
    exec step s (e :: es) = some u ↔
      ∃ t, step s e = some t ∧ exec step t es = some u := by
  simp [exec, Option.bind_eq_some_iff]

theorem exec_append {s u : σ} {es fs : List ε} :
    exec step s (es ++ fs) = some u ↔
      ∃ t, exec step s es = some t ∧ exec step t fs = some u := by
  induction es generalizing s with
  | nil => simp
  | cons e es ih =>
      simp only [List.cons_append, exec_cons_eq_some, ih]
      constructor
      · rintro ⟨t, ht, t', ht', hu⟩
        exact ⟨t', ⟨t, ht, ht'⟩, hu⟩
      · rintro ⟨t', ⟨t, ht, ht'⟩, hu⟩
        exact ⟨t, ht, t', ht', hu⟩

/-- An event that changes nothing can happen any number of times. -/
theorem exec_replicate {s : σ} {e : ε} (h : step s e = some s) (n : Nat) :
    exec step s (List.replicate n e) = some s := by
  induction n with
  | zero => rfl
  | succ n ih => exact exec_cons_eq_some.mpr ⟨s, h, ih⟩

theorem Throughout.head {P : σ → Prop} {s : σ} {es : List ε}
    (h : Throughout step P s es) : P s := by
  cases es with
  | nil => exact h
  | cons e es => exact h.1

theorem Throughout.last {P : σ → Prop} {s t : σ} {es : List ε}
    (h : Throughout step P s es) (hrun : exec step s es = some t) : P t := by
  induction es generalizing s with
  | nil =>
      obtain rfl := Option.some.inj hrun
      exact h
  | cons e es ih =>
      obtain ⟨u, hu, hrun'⟩ := exec_cons_eq_some.mp hrun
      exact ih (h.2 u hu) hrun'

theorem Throughout.mono {P Q : σ → Prop} (hPQ : ∀ s, P s → Q s) {s : σ}
    {es : List ε} (h : Throughout step P s es) : Throughout step Q s es := by
  induction es generalizing s with
  | nil => exact hPQ s h
  | cons e es ih => exact ⟨hPQ s h.1, fun t ht => ih (h.2 t ht)⟩

/-- What holds of the steps out of a state with `P` holds along a run through such
states. -/
theorem Throughout.along {P : σ → Prop} {C : σ → ε → Prop}
    (hPC : ∀ {s e t}, P s → step s e = some t → C s e) {s : σ} {es : List ε}
    (h : Throughout step P s es) : Along step C s es := by
  induction es generalizing s with
  | nil => trivial
  | cons e es ih => exact fun t ht => ⟨hPC h.1 ht, ih (h.2 t ht)⟩

theorem along_of_forall {C : σ → ε → Prop} {es : List ε}
    (h : ∀ e ∈ es, ∀ s, C s e) (s : σ) : Along step C s es := by
  induction es generalizing s with
  | nil => trivial
  | cons e es ih =>
      exact fun t _ => ⟨h e (List.mem_cons_self ..) s,
        ih (fun e' he' => h e' (List.mem_cons_of_mem _ he')) t⟩

theorem Along.and {C D : σ → ε → Prop} {s : σ} {es : List ε}
    (hC : Along step C s es) (hD : Along step D s es) :
    Along step (fun s e => C s e ∧ D s e) s es := by
  induction es generalizing s with
  | nil => trivial
  | cons e es ih =>
      exact fun t ht => ⟨⟨(hC t ht).1, (hD t ht).1⟩, ih (hC t ht).2 (hD t ht).2⟩

/-- Conditions that agree on the steps from states with an invariant agree along the runs
from such a state. -/
theorem along_congr_of {I : σ → Prop} {C D : σ → ε → Prop}
    (hkeep : ∀ {s e t}, I s → step s e = some t → I t)
    (hCD : ∀ {s e t}, I s → step s e = some t → (C s e ↔ D s e)) {s : σ} {es : List ε}
    (hs : I s) : Along step C s es ↔ Along step D s es := by
  induction es generalizing s with
  | nil => exact Iff.rfl
  | cons e es ih =>
      constructor
      · exact fun h t ht => ⟨(hCD hs ht).mp (h t ht).1, (ih (hkeep hs ht)).mp (h t ht).2⟩
      · exact fun h t ht => ⟨(hCD hs ht).mpr (h t ht).1, (ih (hkeep hs ht)).mpr (h t ht).2⟩

/-- Conditions that agree on the steps a run can take agree along runs. -/
theorem along_congr {C D : σ → ε → Prop}
    (hCD : ∀ {s e t}, step s e = some t → (C s e ↔ D s e)) {s : σ} {es : List ε} :
    Along step C s es ↔ Along step D s es :=
  along_congr_of (I := fun _ => True) (fun _ _ => trivial) (fun _ => hCD) trivial

/-! ## Invariants -/

/-- A step that meets `C` keeps `I`. -/
def Preserves (step : σ → ε → Option σ) (C : σ → ε → Prop) (I : σ → Prop) : Prop :=
  ∀ {s e t}, C s e → I s → step s e = some t → I t

theorem throughout_of_preserves {C : σ → ε → Prop} {I : σ → Prop}
    (hstep : Preserves step C I) {s : σ} {es : List ε}
    (halong : Along step C s es) (hI : I s) : Throughout step I s es := by
  induction es generalizing s with
  | nil => exact hI
  | cons e es ih =>
      exact ⟨hI, fun t ht =>
        ih (halong t ht).2 (hstep (halong t ht).1 hI ht)⟩

/-- An invariant that every step keeps holds throughout every run. -/
theorem throughout_of_step {I : σ → Prop}
    (hstep : ∀ {s e t}, I s → step s e = some t → I t) {s : σ} (hI : I s) (es : List ε) :
    Throughout step I s es :=
  throughout_of_preserves (C := fun _ _ => True) (fun _ hI ht => hstep hI ht)
    (along_of_forall (fun _ _ _ => trivial) s) hI

/-- In the runs over the events in `D`: if the steps that meet `C` keep the invariant
`I`, which implies `P`, and the others lead out of `P`, then `P` holds throughout
exactly the runs whose steps meet `C`. -/
theorem throughout_iff_along_on {D : ε → Prop} {C : σ → ε → Prop} {I P : σ → Prop}
    (hP : ∀ {s}, I s → P s)
    (hkeep : ∀ {s e t}, D e → I s → C s e → step s e = some t → I t)
    (hleave : ∀ {s e t}, D e → I s → ¬ C s e → step s e = some t → ¬ P t)
    {s : σ} {es : List ε} (hes : ∀ e ∈ es, D e) (hs : I s) :
    Throughout step P s es ↔ Along step C s es := by
  induction es generalizing s with
  | nil => exact ⟨fun _ => trivial, fun _ => hP hs⟩
  | cons e es ih =>
      rw [List.forall_mem_cons] at hes
      constructor
      · intro h t ht
        have hC : C s e := Classical.byContradiction fun hC =>
          hleave hes.1 hs hC ht (h.2 t ht).head
        exact ⟨hC, (ih hes.2 (hkeep hes.1 hs hC ht)).mp (h.2 t ht)⟩
      · intro h
        exact ⟨hP hs, fun t ht =>
          (ih hes.2 (hkeep hes.1 hs (h t ht).1 ht)).mpr (h t ht).2⟩

theorem throughout_iff_along {C : σ → ε → Prop} {I P : σ → Prop}
    (hP : ∀ {s}, I s → P s)
    (hkeep : ∀ {s e t}, I s → C s e → step s e = some t → I t)
    (hleave : ∀ {s e t}, I s → ¬ C s e → step s e = some t → ¬ P t)
    {s : σ} {es : List ε} (hs : I s) :
    Throughout step P s es ↔ Along step C s es :=
  throughout_iff_along_on (D := fun _ => True) hP (fun _ => hkeep) (fun _ => hleave)
    (fun _ _ => trivial) hs

/-- In the runs over the events in `D`: if the steps that meet `C` keep `I`, the others
lead from `I` to `K`, and every step keeps `K`, then a run from `I` meets `C` in every
step or ends in `K`. -/
theorem along_or_last {D : ε → Prop} {C : σ → ε → Prop} {I K : σ → Prop}
    (hkeep : ∀ {s e t}, D e → I s → C s e → step s e = some t → I t)
    (hleave : ∀ {s e t}, D e → I s → ¬ C s e → step s e = some t → K t)
    (hstay : ∀ {s e t}, D e → K s → step s e = some t → K t)
    {s t : σ} {es : List ε} (hes : ∀ e ∈ es, D e) (hs : I s) (hrun : exec step s es = some t) :
    Along step C s es ∨ K t := by
  induction es generalizing s with
  | nil => exact .inl trivial
  | cons e es ih =>
      rw [List.forall_mem_cons] at hes
      obtain ⟨u, hu, hrest⟩ := exec_cons_eq_some.mp hrun
      by_cases hC : C s e
      · refine (ih hes.2 (hkeep hes.1 hs hC hu) hrest).imp_left fun halong v hv => ⟨hC, ?_⟩
        obtain rfl : u = v := Option.some.inj (hu.symm.trans hv)
        exact halong
      · have hK : Throughout step K u es :=
          throughout_of_preserves (C := fun _ e => D e) hstay
            (along_of_forall (fun e he _ => hes.2 e he) u) (hleave hes.1 hs hC hu)
        exact .inr (hK.last hrest)

/-- If every step lowers a measure, runs are no longer than the measure at their
beginning. -/
theorem exec_length_le {I : σ → Prop} (measure : σ → Nat)
    (hstep : ∀ {s e t}, I s → step s e = some t → I t ∧ measure t < measure s)
    {s t : σ} {es : List ε} (hs : I s) (hrun : exec step s es = some t) :
    es.length + measure t ≤ measure s := by
  induction es generalizing s with
  | nil =>
      obtain rfl := Option.some.inj hrun
      exact Nat.le_of_eq (Nat.zero_add _)
  | cons e es ih =>
      obtain ⟨u, hu, hrest⟩ := exec_cons_eq_some.mp hrun
      obtain ⟨hI, hlt⟩ := hstep hs hu
      have hle := ih hI hrest
      rw [List.length_cons]
      omega

/-- If the events in `D` lower a measure and the others do not raise it, it bounds the number
of the former in a run. -/
theorem exec_countP_le {I : σ → Prop} (measure : σ → Nat) {D : ε → Bool}
    (hcounted : ∀ {s e t}, I s → D e = true → step s e = some t → measure t < measure s)
    (hother : ∀ {s e t}, I s → D e = false → step s e = some t → measure t ≤ measure s)
    (hkeep : ∀ {s e t}, I s → step s e = some t → I t)
    {s t : σ} {es : List ε} (hs : I s) (hrun : exec step s es = some t) :
    es.countP D + measure t ≤ measure s := by
  induction es generalizing s with
  | nil =>
      obtain rfl := Option.some.inj hrun
      exact Nat.le_of_eq (Nat.zero_add _)
  | cons e es ih =>
      obtain ⟨u, hu, hrest⟩ := exec_cons_eq_some.mp hrun
      have hle := ih (hkeep hs hu) hrest
      cases hD : D e with
      | true =>
          have hlt := hcounted hs hD hu
          rw [List.countP_cons_of_pos hD]
          omega
      | false =>
          have hle' := hother hs hD hu
          rw [List.countP_cons_of_neg (by simp [hD])]
          omega

/-! ## Refinement -/

/-- The machine's steps that meet `C` are matched, through `R`, by runs of the
abstract transition relation `astep`. -/
def Simulates {α : Type*} (step : σ → ε → Option σ) (C : σ → ε → Prop)
    (R : σ → α → Prop) (astep : α → α → Prop) : Prop :=
  ∀ {s e t a}, C s e → R s a → step s e = some t →
    ∃ b, Relation.ReflTransGen astep a b ∧ R t b

theorem refines_throughout {α : Type*} {C : σ → ε → Prop} {R : σ → α → Prop}
    {astep : α → α → Prop} (hsim : Simulates step C R astep) {s : σ}
    {es : List ε} {a : α} (halong : Along step C s es) (hR : R s a) :
    Throughout step (fun t => ∃ b, Relation.ReflTransGen astep a b ∧ R t b) s es := by
  refine throughout_of_preserves (C := C) ?_ halong ⟨a, .refl, hR⟩
  rintro s e t hC ⟨b, hab, hRb⟩ hstep
  obtain ⟨c, hbc, hRc⟩ := hsim hC hRb hstep
  exact ⟨c, hab.trans hbc, hRc⟩

/-- A run, as the moves of a transition relation. -/
theorem reflTransGen_of_exec {s t : σ} {es : List ε} (hrun : exec step s es = some t) :
    Relation.ReflTransGen (fun s t => ∃ e, step s e = some t) s t := by
  induction es generalizing s with
  | nil =>
      obtain rfl := Option.some.inj hrun
      exact .refl
  | cons e es ih =>
      obtain ⟨u, hu, hrest⟩ := exec_cons_eq_some.mp hrun
      exact .head ⟨e, hu⟩ (ih hrest)

/-! ## Bisimulation -/

section Bisimulation

variable {α β γ δ : Type*}

theorem rel_bind {R : α → β → Prop} {S : γ → δ → Prop} {x : Option α} {y : Option β}
    {f : α → Option γ} {g : β → Option δ} (hxy : Option.Rel R x y)
    (hfg : ∀ {a b}, R a b → Option.Rel S (f a) (g b)) : Option.Rel S (x.bind f) (y.bind g) := by
  cases hxy with
  | some hab => exact hfg hab
  | none => exact .none

theorem rel_map {R : α → β → Prop} {S : γ → δ → Prop} {x : Option α} {y : Option β}
    {f : α → γ} {g : β → δ} (hxy : Option.Rel R x y) (hfg : ∀ {a b}, R a b → S (f a) (g b)) :
    Option.Rel S (x.map f) (y.map g) := by
  cases hxy with
  | some hab => exact .some (hfg hab)
  | none => exact .none

theorem rel_bind_self {S : γ → δ → Prop} (x : Option α) {f : α → Option γ} {g : α → Option δ}
    (hfg : ∀ a, Option.Rel S (f a) (g a)) : Option.Rel S (x.bind f) (x.bind g) := by
  cases x with
  | some a => exact hfg a
  | none => exact .none

theorem rel_map_self {S : γ → δ → Prop} (x : Option α) {f : α → γ} {g : α → δ}
    (hfg : ∀ a, S (f a) (g a)) : Option.Rel S (x.map f) (x.map g) := by
  cases x with
  | some a => exact .some (hfg a)
  | none => exact .none

/-- Two guards that say the same. -/
theorem rel_guard {R : α → β → Prop} {p q : Prop} [Decidable p] [Decidable q] (hpq : p ↔ q)
    {a : α} {b : β} (hab : p → R a b) :
    Option.Rel R (if p then some a else none) (if q then some b else none) := by
  by_cases hp : p
  · rw [if_pos hp, if_pos (hpq.mp hp)]
    exact .some (hab hp)
  · rw [if_neg hp, if_neg fun hq => hp (hpq.mpr hq)]
    exact .none

theorem rel_isSome {R : α → β → Prop} {x : Option α} {y : Option β} (hxy : Option.Rel R x y) :
    x.isSome = y.isSome := by
  cases hxy <;> rfl

/-- Machines that take related steps from related states, or both none, take related
runs. `erase` says which event of the second an event of the first is. -/
theorem exec_rel {τ : Type*} {step' : τ → δ → Option τ} {R : σ → τ → Prop} {erase : ε → δ}
    (hrel : ∀ {s t} e, R s t → Option.Rel R (step s e) (step' t (erase e))) {s : σ} {t : τ}
    (hR : R s t) (es : List ε) : Option.Rel R (exec step s es) (exec step' t (es.map erase)) := by
  induction es generalizing s t with
  | nil => exact .some hR
  | cons e es ih => exact rel_bind (hrel e hR) fun hR' => ih hR'

/-- If a change of the state goes through every step, it goes through every run. -/
theorem exec_map {f : σ → σ} (hstep : ∀ s e, step (f s) e = (step s e).map f) (s : σ)
    (es : List ε) : exec step (f s) es = (exec step s es).map f := by
  induction es generalizing s with
  | nil => rfl
  | cons e es ih =>
      rw [exec, exec, hstep]
      cases step s e with
      | none => rfl
      | some t => exact ih t

end Bisimulation

/-! ## Histories -/

section Record

variable {η : Type*} {note : σ → ε → σ → η → η}

/-- The machine with a record of its run, which no step depends on. -/
def record (step : σ → ε → Option σ) (note : σ → ε → σ → η → η) (x : σ × η) (e : ε) :
    Option (σ × η) :=
  (step x.1 e).map fun t => (t, note x.1 e t x.2)

theorem record_eq_some {x y : σ × η} {e : ε} :
    record step note x e = some y ↔ ∃ t, step x.1 e = some t ∧ y = (t, note x.1 e t x.2) := by
  unfold record
  rw [Option.map_eq_some_iff]
  constructor
  · rintro ⟨t, ht, rfl⟩
    exact ⟨t, ht, rfl⟩
  · rintro ⟨t, ht, rfl⟩
    exact ⟨t, ht, rfl⟩

end Record

/-! ## Members -/

theorem exec_filterMap_cons {δ : Type*} {step : σ → δ → Option σ} {ev : ε → Option δ} {e : ε}
    {es : List ε} {s t u : σ} (hfirst : exec step s (ev e).toList = some t)
    (hrest : exec step t (es.filterMap ev) = some u) :
    exec step s ((e :: es).filterMap ev) = some u := by
  have hsplit : (e :: es).filterMap ev = (ev e).toList ++ es.filterMap ev := by
    rw [List.filterMap_cons]
    cases ev e <;> rfl
  rw [hsplit]
  exact exec_append.mpr ⟨t, hfirst, hrest⟩

/-- If every step of a system is, as far as one of its members can see, a step or none
of the member's own machine, then a run of the system is for the member the run over
the events `ev` picks for it. -/
theorem exec_member {τ δ : Type*} {mstep : τ → δ → Option τ} (view : σ → τ)
    (ev : ε → Option δ) {I : σ → Prop}
    (hmember : ∀ {s e t}, I s → step s e = some t →
      I t ∧ exec mstep (view s) (ev e).toList = some (view t))
    {s t : σ} {es : List ε} (hI : I s) (hrun : exec step s es = some t) :
    exec mstep (view s) (es.filterMap ev) = some (view t) := by
  induction es generalizing s with
  | nil =>
      obtain rfl := Option.some.inj hrun
      rfl
  | cons e es ih =>
      obtain ⟨u, hu, hrest⟩ := exec_cons_eq_some.mp hrun
      obtain ⟨hI', hfirst⟩ := hmember hI hu
      exact exec_filterMap_cons hfirst (ih hI' hrest)

/-! ## Outstanding operations

Operations that are outstanding are kept in the order they were started, and the event
that completes one gives its index. -/

section Outstanding

variable {α : Type*} {ops : List α} {op op' : α} {index : Nat}

/-- The operation that completes, where only one is outstanding. -/
theorem eq_only (hops : ops = [op]) (hop : ops[index]? = some op') : index = 0 ∧ op = op' := by
  rw [hops, List.getElem?_singleton, Option.ite_none_right_eq_some, Option.some.injEq] at hop
  exact hop

theorem eraseIdx_only (hops : ops = [op]) (hop : ops[index]? = some op') :
    ops.eraseIdx index = [] := by
  rw [hops, (eq_only hops hop).1]
  rfl

end Outstanding

/-! ## Deleting events -/

/-- If the dropped events leave `view` alone and what a kept event does to
`view` depends on `view` only, then deleting the dropped events from a run
gives a run that ends in the same view. -/
theorem exec_erase {ω : Type*} {keep : ε → Bool} {view : σ → ω}
    {C : σ → ε → Prop}
    (hdrop : ∀ {s e t}, C s e → keep e = false → step s e = some t → view t = view s)
    (hkeep : ∀ {s s' e t}, keep e = true → view s = view s' → step s e = some t →
      ∃ t', step s' e = some t' ∧ view t = view t')
    {s s' t : σ} {es : List ε} (halong : Along step C s es)
    (hview : view s = view s') (hrun : exec step s es = some t) :
    ∃ t', exec step s' (es.filter keep) = some t' ∧ view t = view t' := by
  induction es generalizing s s' with
  | nil =>
      obtain rfl := Option.some.inj hrun
      exact ⟨s', rfl, hview⟩
  | cons e es ih =>
      obtain ⟨u, hu, hrun'⟩ := exec_cons_eq_some.mp hrun
      obtain ⟨hC, halong'⟩ := halong u hu
      cases hk : keep e with
      | false =>
          rw [List.filter_cons_of_neg (by simp [hk])]
          exact ih halong' ((hdrop hC hk hu).trans hview) hrun'
      | true =>
          obtain ⟨u', hu', huv⟩ := hkeep hk hview hu
          obtain ⟨t', ht', htv⟩ := ih halong' huv hrun'
          rw [List.filter_cons_of_pos hk]
          exact ⟨t', exec_cons_eq_some.mpr ⟨u', hu', ht'⟩, htv⟩

end Machine
