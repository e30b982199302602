import CppNet.Lib.Once

/-!
# The one instance

`Singleton<T>::GetInstance`, called by any number of threads: `std::call_once` runs a
lambda that makes the object and keeps it in `instance_`, and behind the flag every call
returns a copy of `instance_`. The constructor of `T` may throw, and so may the one of
`std::shared_ptr`, which then deletes the object it was given; the exception goes through
`GetInstance`, and the next call tries again.

What all calls that return have returned is the same object, of which there is no second
one, and no thread reads `instance_` while another one may write it (`one_instance`). So
the `LogicSystem` that `HandleReq` asks for is one state that all connections share.
-/

namespace CppNet.Http

/-! ## `GetInstance` -/

/-- How far the lambda has come: before `new T`, with an object made, after the assignment
to `instance_`, or out of it by an exception. -/
inductive Progress (O : Type)
  | begins
  | made (o : O)
  | assigned
  | threw
deriving Repr, DecidableEq

/-- `instance_`, the objects of class `T` that exist, and the lambda that runs. -/
structure Singleton (O : Type) where
  instance_ : Option O := none
  objects : List O := []
  progress : Progress O := .begins
deriving Repr, DecidableEq

variable {O : Type}

/-- There is no object. -/
structure Singleton.Unmade (s : Singleton O) : Prop where
  instance_ : s.instance_ = none
  objects : s.objects = []

/-- There is one object, and `instance_` points to it. -/
def Singleton.Made (s : Singleton O) : Prop := ∃ o, s.instance_ = some o ∧ s.objects = [o]

/-- The lambda has made what its progress says. -/
def Singleton.Sound (s : Singleton O) : Prop :=
  match s.progress with
  | .begins | .threw => s.Unmade
  | .made o => s.instance_ = none ∧ s.objects = [o]
  | .assigned => s.Made

theorem Singleton.Sound.length_le {s : Singleton O} (h : s.Sound) : s.objects.length ≤ 1 := by
  unfold Singleton.Sound at h
  split at h
  · simp [h.objects]
  · simp [h.objects]
  · simp [h.2]
  · obtain ⟨o, -, ho⟩ := h
    simp [ho]

/-- What happens in `instance_ = std::shared_ptr<T>(new T)`. -/
inductive Work (O : Type)
  | new (o : O)
  | newThrows
  | assign
  | pointerThrows
deriving Repr, DecidableEq

def Work.Succeeds : Work O → Prop
  | .new _ | .assign => True
  | .newThrows | .pointerThrows => False

variable [DecidableEq O]

def Singleton.work (s : Singleton O) (w : Work O) : Option (Singleton O) :=
  match s.progress, w with
  | .begins, .new o =>
      if o ∈ s.objects then none
      else some { s with objects := o :: s.objects, progress := .made o }
  | .begins, .newThrows => some { s with progress := .threw }
  | .made o, .assign => some { s with instance_ := some o, progress := .assigned }
  | .made o, .pointerThrows =>
      some { s with objects := s.objects.erase o, progress := .threw }
  | _, _ => none

/-- The lambda given to `std::call_once`. -/
def getInstance : Once.Task (Singleton O) (Work O) where
  start s := { s with progress := .begins }
  work := Singleton.work
  ends s returns :=
    match s.progress with
    | .assigned => returns
    | .threw => !returns
    | .begins | .made _ => false

/-- What the calls of each thread have returned, in this order. -/
abbrev Returned (ι O : Type) := List (ι × Option O)

/-- `return instance_`. -/
def Returned.note {ι : Type} (s : Once.State ι (Singleton O)) (e : Once.Event ι (Work O))
    (_ : Once.State ι (Singleton O)) (log : Returned ι O) : Returned ι O :=
  match e with
  | .leave i => log ++ [(i, s.resource.instance_)]
  | _ => log

/-! ## The contract -/

theorem Singleton.Sound.work {s t : Singleton O} (h : s.Sound) {w : Work O}
    (hwork : s.work w = some t) : t.Sound := by
  unfold Singleton.Sound at h
  unfold Singleton.work at hwork
  split at hwork
  · rename_i o hprogress
    obtain ⟨-, rfl⟩ := Option.ite_none_left_eq_some.mp hwork |>.imp id Option.some.inj
    rw [hprogress] at h
    exact ⟨h.instance_, congrArg (o :: ·) h.objects⟩
  · rename_i hprogress
    cases hwork
    rw [hprogress] at h
    exact ⟨h.instance_, h.objects⟩
  · rename_i o hprogress
    cases hwork
    rw [hprogress] at h
    exact ⟨o, rfl, h.2⟩
  · rename_i o hprogress
    cases hwork
    rw [hprogress] at h
    exact ⟨h.1, by simp [h.2]⟩
  · cases hwork

/-- No object before the lambda has run, and one, in `instance_`, after it. -/
def contract : Once.Contract (getInstance (O := O)) where
  before := Singleton.Unmade
  during := Singleton.Sound
  after := Singleton.Made
  starts h := ⟨h.instance_, h.objects⟩
  works h hwork := h.work hwork
  throws {s} h hends := by
    unfold Singleton.Sound at h
    simp only [getInstance] at hends
    cases hprogress : s.progress <;> simp_all
  returns {s} h hends := by
    unfold Singleton.Sound at h
    simp only [getInstance] at hends
    cases hprogress : s.progress <;> simp_all

/-- A lambda that runs has a step to take, or it is at an end. -/
theorem getInstance_live (o : O) (s : Singleton O) (h : s.Sound) :
    (∃ w : Work O, w.Succeeds ∧ (getInstance.work s w).isSome)
      ∨ ∃ ok, getInstance.ends s ok = true := by
  unfold Singleton.Sound at h
  cases hprogress : s.progress with
  | begins =>
      rw [hprogress] at h
      refine .inl ⟨.new o, trivial, ?_⟩
      simp [getInstance, Singleton.work, hprogress, h.objects]
  | made o => exact .inl ⟨.assign, trivial, by simp [getInstance, Singleton.work, hprogress]⟩
  | assigned => exact .inr ⟨true, by simp [getInstance, hprogress]⟩
  | threw => exact .inr ⟨false, by simp [getInstance, hprogress]⟩

/-! ## Runs -/

variable {ι : Type} [DecidableEq ι]

/-- The calls keep to the contract, and those that have returned found the flag set. -/
structure Calls (s : Once.State ι (Singleton O)) (log : Returned ι O) : Prop where
  orderly : Once.Orderly contract s
  returned : ∀ i p, (i, p) ∈ log → s.flag = .set ∧ p = s.resource.instance_

theorem calls_step {x y : Once.State ι (Singleton O) × Returned ι O} {e : Once.Event ι (Work O)}
    (h : Calls x.1 x.2)
    (hstep : Machine.record (Once.step getInstance) Returned.note x e = some y) :
    Calls y.1 y.2 := by
  obtain ⟨t, ht, rfl⟩ := Machine.record_eq_some.mp hstep
  have hkept : ∀ p, x.1.flag = .set ∧ p = x.1.resource.instance_ →
      t.flag = .set ∧ p = t.resource.instance_ := by
    rintro p ⟨hset, rfl⟩
    obtain ⟨hset', hresource⟩ := Once.set_step h.orderly hset ht
    exact ⟨hset', by rw [hresource]⟩
  refine ⟨Once.orderly_step h.orderly ht, fun i p hmem => ?_⟩
  cases e with
  | leave j =>
      rcases List.mem_append.mp hmem with hold | hnew
      · exact hkept p (h.returned i p hold)
      · obtain ⟨rfl, rfl⟩ := Prod.mk.inj (List.mem_singleton.mp hnew)
        have hpast := (Option.ite_none_right_eq_some.mp ht).1
        exact hkept _ ⟨h.orderly.past i hpast, rfl⟩
  | call j | start j | work j w | finish j ok | pass j => exact hkept p (h.returned i p hmem)

/-- There is one object at most, and it is what every call has returned. Only one thread
may write `instance_`, and while there is one none reads it. A call can go on without an
exception, if it need not wait for one that can. -/
structure OneInstance (s : Once.State ι (Singleton O)) (log : Returned ι O) : Prop where
  at_most_one : s.resource.objects.length ≤ 1
  returned : ∀ i p, (i, p) ∈ log → ∃ o, p = some o ∧ s.resource.objects = [o]
  exclusive : ∀ i j, s.phase i = .active → s.phase j = .active → i = j
  undisturbed : ∀ i j, s.phase i = .active → s.phase j ≠ .past
  goes_on : ∀ (_ : O) i, s.phase i ≠ .out → ∃ e : Once.Event ι (Work O),
    (Once.step getInstance s e).isSome
      ∧ (e.thread = i ∨ s.phase i = .waits ∧ s.phase e.thread = .active)
      ∧ ∀ j w, e = .work j w → w.Succeeds

theorem Calls.oneInstance {s : Once.State ι (Singleton O)} {log : Returned ι O}
    (h : Calls s log) : OneInstance s log where
  at_most_one := by
    have hresource := h.orderly.resource
    cases hflag : s.flag with
    | unset =>
        rw [hflag] at hresource
        simp [show s.resource.objects = [] from hresource.objects]
    | taken i =>
        rw [hflag] at hresource
        exact Singleton.Sound.length_le hresource
    | set =>
        rw [hflag] at hresource
        obtain ⟨o, -, ho⟩ := hresource
        simp [ho]
  returned i p hmem := by
    obtain ⟨hset, rfl⟩ := h.returned i p hmem
    have hresource := h.orderly.resource
    rw [hset] at hresource
    exact hresource
  exclusive _ _ := h.orderly.exclusive
  undisturbed _ _ := h.orderly.not_past
  goes_on o _ := Once.goes_on h.orderly (getInstance_live o)

/-- So it is in every run, whichever threads call, in whatever order they take turns, and
whatever throws. -/
theorem one_instance (es : List (Once.Event ι (Work O))) :
    Machine.Throughout (Machine.record (Once.step getInstance) Returned.note)
      (fun x => OneInstance x.1 x.2) (Once.State.init ({} : Singleton O), []) es := by
  refine (Machine.throughout_of_step (I := fun x => Calls x.1 x.2) calls_step ?_ es).mono
    fun _ h => h.oneInstance
  exact ⟨Once.orderly_init ⟨rfl, rfl⟩, by simp⟩

end CppNet.Http
