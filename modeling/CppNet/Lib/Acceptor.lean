import Mathlib.Logic.Function.Basic

/-!
# Rounds of an accept loop

The members of a server that accepts in a loop. One member at a time waits to be
accepted. A round starts it, unless the round failed, and puts a new member in its
place. `round` is what a round does to the states of the members.
-/

namespace Acceptor

variable {U S : Type*} [DecidableEq U] {start : S → S} {new : S} {member : U → S}
  {failed : Bool} {waiting next u : U}

def round (start : S → S) (new : S) (member : U → S) (failed : Bool) (waiting next : U) :
    U → S :=
  Function.update
    (if failed then member else Function.update member waiting (start (member waiting))) next new

@[simp] theorem round_next : round start new member failed waiting next next = new :=
  Function.update_self ..

theorem round_waiting (h : waiting ≠ next) :
    round start new member false waiting next waiting = start (member waiting) := by
  rw [round, Function.update_of_ne h]
  exact Function.update_self ..

/-- A round leaves every member alone but the one that waited and the new one. -/
theorem round_other (hnext : u ≠ next) (hwaiting : failed = false → u ≠ waiting) :
    round start new member failed waiting next u = member u := by
  rw [round, Function.update_of_ne hnext]
  cases failed with
  | true => rfl
  | false => exact Function.update_of_ne (hwaiting rfl) _ _

/-- What is true of a new member and of `u` is still true of `u`, if the round does not
start it. -/
theorem round_of_new {P : S → Prop} (hnew : P new) (hwaiting : failed = false → u ≠ waiting)
    (h : P (member u)) : P (round start new member failed waiting next u) := by
  by_cases hnext : u = next
  · rw [hnext, round_next]
    exact hnew
  · rw [round_other hnext hwaiting]
    exact h

end Acceptor
