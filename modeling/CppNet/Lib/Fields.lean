import Mathlib.Data.Finmap

/-!
# Cutting lists at separators, and maps filled from left to right

`splitFirst sep s` cuts `s` at the first `sep`, as the pair `find`/`substr`
does (`splitFirst_eq_findIdx?`); `List.splitOn`, which cuts at every
separator, unfolds along it. `ofPairs` is the map that assigning a list of
pairs in order leaves behind: a key is bound to its last value
(`lookup_ofPairs`).
-/

namespace Fields

variable {α : Type*} [DecidableEq α] {sep : α}

/-! ## The first separator -/

/-- What stands before and after the first `sep`, if there is one. -/
def splitFirst (sep : α) : List α → Option (List α × List α)
  | [] => none
  | x :: xs =>
      if x = sep then some ([], xs)
      else (splitFirst sep xs).map fun p => (x :: p.1, p.2)

theorem splitFirst_eq_none {s : List α} : splitFirst sep s = none ↔ sep ∉ s := by
  induction s with
  | nil => simp [splitFirst]
  | cons x xs ih =>
      by_cases hx : x = sep
      · simp [splitFirst, hx]
      · simp [splitFirst, hx, ih, Ne.symm hx]

theorem splitFirst_append {a : List α} (ha : sep ∉ a) (b : List α) :
    splitFirst sep (a ++ sep :: b) = some (a, b) := by
  induction a with
  | nil => simp [splitFirst]
  | cons x xs ih =>
      simp only [List.mem_cons, not_or] at ha
      simp [splitFirst, Ne.symm ha.1, ih ha.2]

theorem splitFirst_eq_some {s a b : List α} :
    splitFirst sep s = some (a, b) ↔ s = a ++ sep :: b ∧ sep ∉ a := by
  constructor
  · intro h
    induction s generalizing a with
    | nil => simp [splitFirst] at h
    | cons x xs ih =>
        rw [splitFirst] at h
        split at h
        · rename_i hx
          obtain ⟨rfl, rfl⟩ := Prod.mk.inj (Option.some.inj h)
          exact ⟨by simp [hx], by simp⟩
        · rename_i hx
          obtain ⟨⟨c, d⟩, hcd, heq⟩ := Option.map_eq_some_iff.mp h
          obtain ⟨rfl, rfl⟩ := Prod.mk.inj heq
          obtain ⟨rfl, hc⟩ := ih hcd
          exact ⟨rfl, by simp [hc, Ne.symm hx]⟩
  · rintro ⟨rfl, ha⟩
    exact splitFirst_append ha b

/-- `find` and `substr`: the parts before and after the first match. -/
theorem splitFirst_eq_findIdx? (sep : α) (s : List α) :
    splitFirst sep s =
      (s.findIdx? (· == sep)).map fun i => (s.take i, s.drop (i + 1)) := by
  induction s with
  | nil => rfl
  | cons x xs ih =>
      rw [splitFirst, List.findIdx?_cons]
      by_cases hx : x = sep
      · simp [hx]
      · simp only [hx, if_false, beq_eq_false_iff_ne.mpr hx, Bool.false_eq_true, ih,
          Option.map_map]
        rfl

/-! ## Every separator -/

theorem splitOn_of_splitFirst_none {s : List α} (h : splitFirst sep s = none) :
    s.splitOn sep = [s] :=
  List.splitOn_eq_singleton (splitFirst_eq_none.mp h)

theorem splitOn_of_splitFirst_some {s a b : List α}
    (h : splitFirst sep s = some (a, b)) :
    s.splitOn sep = a :: b.splitOn sep := by
  obtain ⟨rfl, ha⟩ := splitFirst_eq_some.mp h
  exact List.splitOn_append_cons_self_of_not_mem ha b

/-- Only what follows the first separator is cut further, so the rest is
shorter: the measure of a loop that erases one field after the other. -/
theorem length_lt_of_splitFirst {s a b : List α}
    (h : splitFirst sep s = some (a, b)) : b.length < s.length := by
  obtain ⟨rfl, -⟩ := splitFirst_eq_some.mp h
  simp only [List.length_append, List.length_cons]
  omega

/-! ## Assigning pairs in order -/

variable {β : Type*}

/-- Assign the pairs from left to right, starting from `m`. -/
def assignAll (m : Finmap fun _ : α => β) (ps : List (α × β)) :
    Finmap fun _ : α => β :=
  ps.foldl (fun m p => m.insert p.1 p.2) m

/-- The map left behind by assigning the pairs from left to right. -/
def ofPairs (ps : List (α × β)) : Finmap fun _ : α => β := assignAll ∅ ps

/-- The value of the last pair with key `k`. -/
def lastValue (ps : List (α × β)) (k : α) : Option β :=
  (ps.reverse.find? fun p => p.1 = k).map Prod.snd

@[simp] theorem assignAll_nil (m : Finmap fun _ : α => β) : assignAll m [] = m := rfl

@[simp] theorem assignAll_cons (m : Finmap fun _ : α => β) (p : α × β)
    (ps : List (α × β)) :
    assignAll m (p :: ps) = assignAll (m.insert p.1 p.2) ps := rfl

theorem lookup_assignAll (m : Finmap fun _ : α => β) (ps : List (α × β)) (k : α) :
    (assignAll m ps).lookup k = (lastValue ps k).or (m.lookup k) := by
  induction ps generalizing m with
  | nil => simp [lastValue]
  | cons p ps ih =>
      have hlast : lastValue (p :: ps) k =
          (lastValue ps k).or (if p.1 = k then some p.2 else none) := by
        simp only [lastValue, List.reverse_cons, List.find?_append, List.find?_singleton,
          Option.map_or]
        split <;> simp_all
      rw [assignAll_cons, ih, hlast, Option.or_assoc]
      congr 1
      by_cases hk : p.1 = k
      · subst hk
        simp
      · rw [Finmap.lookup_insert_of_ne _ (Ne.symm hk)]
        simp [hk]

theorem lookup_ofPairs (ps : List (α × β)) (k : α) :
    (ofPairs ps).lookup k = lastValue ps k := by
  rw [ofPairs, lookup_assignAll, Finmap.lookup_empty, Option.or_none]

end Fields
