import Mathlib.Logic.Relation
import Mathlib.Data.List.Basic

/-!
# Pipelines

A pipeline is a row of buffers that elements pass through, from the last buffer to
the first. A move takes a piece from the front of a buffer to the end of the buffer
before it. However the pieces are cut, what the buffers hold, read one after the
other, stays the same word (`Move.flatten_eq`), so the first buffer holds a prefix
of that word (`head_prefix`), and all of it once the others are empty
(`head_eq_of_flatten`).

Each move brings something closer to the first buffer, so there are no more than
`weight` of them (`Move.weight_lt`).
-/

namespace Pipeline

variable {α : Type*}

inductive Move : List (List α) → List (List α) → Prop
  | here (buffer piece rest : List α) (row : List (List α)) (hpiece : piece ≠ []) :
      Move (buffer :: (piece ++ rest) :: row) ((buffer ++ piece) :: rest :: row)
  | there (buffer : List α) {row row' : List (List α)} (h : Move row row') :
      Move (buffer :: row) (buffer :: row')

theorem Move.flatten_eq {row row' : List (List α)} (h : Move row row') :
    row'.flatten = row.flatten := by
  induction h with
  | here buffer piece rest row hpiece =>
      simp only [List.flatten_cons, List.append_assoc]
  | there buffer h ih => rw [List.flatten_cons, List.flatten_cons, ih]

theorem flatten_eq_of_moves {row row' : List (List α)} (h : Relation.ReflTransGen Move row row') :
    row'.flatten = row.flatten := by
  induction h with
  | refl => rfl
  | tail _ hmove ih => rw [hmove.flatten_eq, ih]

/-! ## The first buffer -/

section Head

variable {buffer word : List α} {row : List (List α)}

theorem head_prefix (h : (buffer :: row).flatten = word) : buffer <+: word :=
  ⟨row.flatten, h⟩

theorem head_eq_of_flatten (h : (buffer :: row).flatten = word) (hrow : row.flatten = []) :
    buffer = word := by
  rw [List.flatten_cons, hrow, List.append_nil] at h
  exact h

/-- If the first buffer is as long as the word there is nothing in the others. -/
theorem rest_eq_nil (h : (buffer :: row).flatten = word) (hlength : buffer.length = word.length) :
    row.flatten = [] := by
  have hword : buffer ++ row.flatten = word := h
  rw [← hword, List.length_append] at hlength
  exact List.eq_nil_of_length_eq_zero (by omega)

end Head

/-! ## Moves come to an end -/

/-- The moves it takes to bring everything to the first buffer, one element at a time. -/
def weight : List (List α) → Nat
  | [] => 0
  | _ :: row => weight row + row.flatten.length

theorem Move.weight_lt {row row' : List (List α)} (h : Move row row') :
    weight row' < weight row := by
  induction h with
  | here buffer piece rest row hpiece =>
      have hpos : 0 < piece.length := List.length_pos_iff.mpr hpiece
      simp only [weight, List.flatten_cons, List.length_append]
      omega
  | there buffer h ih =>
      rw [weight, weight, h.flatten_eq]
      omega

/-! ## Pieces of a buffer -/

/-- What is left of a buffer from `done` to `size`, cut behind its next `count` elements. -/
theorem take_drop_split {l : List α} {done count size : Nat} (h : done + count ≤ size) :
    (l.drop done).take (size - done)
      = (l.drop done).take count ++ (l.drop (done + count)).take (size - (done + count)) := by
  obtain ⟨rest, rfl⟩ := Nat.exists_eq_add_of_le h
  rw [show done + count + rest - done = count + rest by omega,
    show done + count + rest - (done + count) = rest by omega, List.take_add, List.drop_drop]

theorem take_drop_ne_nil {l : List α} {done count : Nat} (hpos : 0 < count)
    (hlength : done + count ≤ l.length) : (l.drop done).take count ≠ [] := by
  rw [← List.length_pos_iff, List.length_take, List.length_drop]
  omega

/-- A piece of the first `size` elements does not depend on the others. -/
theorem take_drop_of_take {l l' : List α} {done count size : Nat} (hle : done + count ≤ size)
    (h : l.take size = l'.take size) : (l.drop done).take count = (l'.drop done).take count := by
  have hcut : ∀ m : List α, (m.drop done).take count = ((m.take size).drop done).take count := by
    intro m
    rw [List.drop_take, List.take_take, Nat.min_eq_left (by omega)]
  rw [hcut l, hcut l', h]

/-! ## Channels -/

/-- One direction of a connection: what was sent and has not arrived, and what has
arrived and was not read. -/
structure Channel (α : Type*) where
  flight : List α := []
  arrived : List α := []
deriving Repr, DecidableEq

namespace Channel

def send (c : Channel α) (piece : List α) : Channel α := { c with flight := c.flight ++ piece }

@[simp] theorem send_nil (c : Channel α) : c.send [] = c := by
  rw [send, List.append_nil]

/-- The next `count` elements arrive. -/
def deliver (c : Channel α) (count : Nat) : Option (Channel α) :=
  if 0 < count ∧ count ≤ c.flight.length then
    some { flight := c.flight.drop count, arrived := c.arrived ++ c.flight.take count }
  else none

/-- `piece` is read, if it is what has arrived first. -/
def receive [BEq α] (c : Channel α) (piece : List α) : Option (Channel α) :=
  if piece.isPrefixOf c.arrived then some { c with arrived := c.arrived.drop piece.length }
  else none

/-- Nothing is on its way. -/
def IsEmpty (c : Channel α) : Prop := c.flight = [] ∧ c.arrived = []

instance [DecidableEq α] (c : Channel α) : Decidable c.IsEmpty :=
  inferInstanceAs (Decidable (_ ∧ _))

theorem deliver_cases {c d : Channel α} {count : Nat} (h : c.deliver count = some d) :
    ∃ piece, piece ≠ [] ∧ c.flight = piece ++ d.flight ∧ d.arrived = c.arrived ++ piece := by
  unfold deliver at h
  split at h
  · rename_i hcount
    obtain rfl := Option.some.inj h
    refine ⟨c.flight.take count, ?_, (List.take_append_drop count c.flight).symm, rfl⟩
    rw [← List.length_pos_iff, List.length_take]
    omega
  · cases h

theorem deliver_of_flight {c : Channel α} (h : c.flight ≠ []) : ∃ d, c.deliver 1 = some d :=
  ⟨_, if_pos ⟨Nat.one_pos, List.length_pos_iff.mpr h⟩⟩

theorem receive_cases [BEq α] [LawfulBEq α] {c d : Channel α} {piece : List α}
    (h : c.receive piece = some d) : c.arrived = piece ++ d.arrived ∧ d.flight = c.flight := by
  unfold receive at h
  split at h
  · rename_i hpre
    obtain rfl := Option.some.inj h
    obtain ⟨rest, hrest⟩ := List.isPrefixOf_iff_prefix.mp hpre
    dsimp only
    rw [← hrest, List.drop_left]
    exact ⟨rfl, rfl⟩
  · cases h

theorem receive_append [BEq α] [LawfulBEq α] (piece rest flight : List α) :
    receive ⟨flight, piece ++ rest⟩ piece = some ⟨flight, rest⟩ := by
  unfold receive
  rw [if_pos (List.isPrefixOf_iff_prefix.mpr (List.prefix_append _ _))]
  simp only [List.drop_left]

end Channel

end Pipeline
