import CppNet.Lib.Machine

/-!
# Fleets of machines

Any number of machines of one kind side by side, as a server has a program running for
each of its clients. A member joins with a state made for it, and from then on the
fleet takes a step of one member at a time. The members share nothing, so whatever the
interleaving, the run of the fleet is for each member a run of the member's own machine
(`exec_of_member`), and what a member can do alone it can do in the fleet
(`member_goes_on`).
-/

namespace Fleet

variable {ι σ ε : Type*}

inductive Event (ι ε : Type*)
  | join (i : ι)
  | member (index : Nat) (e : ε)
deriving Repr, DecidableEq

/-- Each member with what it was made for. `make` may refuse to make one. -/
def step (make : ι → Option σ) (mstep : σ → ε → Option σ) (fleet : List (ι × σ)) :
    Event ι ε → Option (List (ι × σ))
  | .join i => (make i).map fun s => fleet ++ [(i, s)]
  | .member index e =>
      fleet[index]?.bind fun (i, s) => (mstep s e).map fun t => fleet.set index (i, t)

/-- What an event of the fleet is to the member at `k`. -/
def eventOf (k : Nat) : Event ι ε → Option ε
  | .join _ => none
  | .member index e => if index = k then some e else none

variable {make : ι → Option σ} {mstep : σ → ε → Option σ} {fleet fleet' : List (ι × σ)}
  {k : Nat} {i : ι} {s t : σ}

/-- The member at `k` is there before the step, which is a step of it or none at all; or
it joins. -/
theorem member_of_step {e : Event ι ε} (hstep : step make mstep fleet e = some fleet')
    (hk : fleet'[k]? = some (i, t)) :
    (∃ s, fleet[k]? = some (i, s) ∧ Machine.exec mstep s (eventOf k e).toList = some t)
      ∨ (fleet.length ≤ k ∧ make i = some t ∧ eventOf k e = none) := by
  cases e with
  | join j =>
      obtain ⟨s, hmake, rfl⟩ := Option.map_eq_some_iff.mp hstep
      by_cases hlt : k < fleet.length
      · rw [List.getElem?_append_left hlt] at hk
        exact .inl ⟨t, hk, rfl⟩
      · rw [List.getElem?_append_right (by omega), List.getElem?_singleton] at hk
        split at hk
        · cases hk
          exact .inr ⟨by omega, hmake, rfl⟩
        · cases hk
  | member index e =>
      obtain ⟨⟨j, s⟩, hindex, hrest⟩ := Option.bind_eq_some_iff.mp hstep
      obtain ⟨u, hu, rfl⟩ := Option.map_eq_some_iff.mp hrest
      by_cases heq : index = k
      · subst heq
        rw [List.getElem?_set_self (List.getElem?_eq_some_iff.mp hindex).1] at hk
        cases hk
        refine .inl ⟨s, hindex, ?_⟩
        simp only [eventOf, if_true, Option.toList_some]
        exact Machine.exec_cons_eq_some.mpr ⟨t, hu, rfl⟩
      · rw [List.getElem?_set_ne heq] at hk
        refine .inl ⟨t, hk, ?_⟩
        simp only [eventOf, if_neg heq, Option.toList_none, Machine.exec_nil]

/-- No step takes a member away, and a place without a member has no step of its own. -/
theorem of_step {e : Event ι ε} (hstep : step make mstep fleet e = some fleet') :
    fleet.length ≤ fleet'.length ∧ (fleet.length ≤ k → eventOf k e = none) := by
  cases e with
  | join j =>
      obtain ⟨s, -, rfl⟩ := Option.map_eq_some_iff.mp hstep
      exact ⟨by simp, fun _ => rfl⟩
  | member index e =>
      obtain ⟨⟨j, s⟩, hindex, hrest⟩ := Option.bind_eq_some_iff.mp hstep
      obtain ⟨u, -, rfl⟩ := Option.map_eq_some_iff.mp hrest
      have hlt := (List.getElem?_eq_some_iff.mp hindex).1
      exact ⟨by simp, fun hk => if_neg (by omega)⟩

/-- Over the run of a fleet, a member that is there in the end was there in the beginning
or joined, and has run on its own machine since. -/
theorem exec_member_or {es : List (Event ι ε)}
    (hrun : Machine.exec (step make mstep) fleet es = some fleet')
    (hk : fleet'[k]? = some (i, t)) :
    ∃ s, (fleet[k]? = some (i, s) ∨ fleet.length ≤ k ∧ make i = some s)
      ∧ Machine.exec mstep s (es.filterMap (eventOf k)) = some t := by
  induction es generalizing fleet with
  | nil =>
      obtain rfl := Option.some.inj hrun
      exact ⟨t, .inl hk, rfl⟩
  | cons e es ih =>
      obtain ⟨between, hstep, hrest⟩ := Machine.exec_cons_eq_some.mp hrun
      obtain ⟨s, hs | ⟨hle, hmake⟩, hmember⟩ := ih hrest
      · rcases member_of_step hstep hs with ⟨s₀, hs₀, hfirst⟩ | ⟨hnew, hmake, hnone⟩
        · exact ⟨s₀, .inl hs₀, Machine.exec_filterMap_cons hfirst hmember⟩
        · exact ⟨s, .inr ⟨hnew, hmake⟩, by rwa [List.filterMap_cons_none hnone]⟩
      · obtain ⟨hgrows, hnone⟩ := of_step hstep
        have hnew : fleet.length ≤ k := Nat.le_trans hgrows hle
        exact ⟨s, .inr ⟨hnew, hmake⟩, by rwa [List.filterMap_cons_none (hnone hnew)]⟩

/-- The run of a fleet is, for each member there is in the end, a run of its own machine
from the state made for it. -/
theorem exec_of_member {es : List (Event ι ε)}
    (hrun : Machine.exec (step make mstep) [] es = some fleet) (hk : fleet[k]? = some (i, t)) :
    ∃ s, make i = some s ∧ Machine.exec mstep s (es.filterMap (eventOf k)) = some t := by
  obtain ⟨s, hs | ⟨-, hmake⟩, hmember⟩ := exec_member_or hrun hk
  · cases hs
  · exact ⟨s, hmake, hmember⟩

/-- What a member can do alone it can do in the fleet. -/
theorem member_goes_on (hk : fleet[k]? = some (i, s)) {e : ε} (hgo : (mstep s e).isSome) :
    (step make mstep fleet (.member k e)).isSome := by
  obtain ⟨t, ht⟩ := Option.isSome_iff_exists.mp hgo
  show ((fleet[k]?).bind _).isSome = true
  rw [hk, Option.bind_some, Option.isSome_map]
  exact hgo

end Fleet
