import Mathlib.Logic.Relation
import Mathlib.Data.List.Basic

/-!
# Outboxes

What a queue in front of a byte stream is for: messages are accepted in some
order and their contents go out in that order, complete, piece by piece. An
outbox holds the messages that have gone out, those that wait, and how much of
the first waiting one has gone out already; that this is at most its length is
a field, so `delivered` is a prefix of the accepted contents in every outbox
there is (`delivered_prefix`).
-/

structure Outbox (α : Type*) where
  finished : List (List α)
  queue : List (List α)
  cursor : Nat
  cursor_le : cursor ≤ (queue.headD []).length

namespace Outbox

variable {α : Type*}

def empty : Outbox α where
  finished := []
  queue := []
  cursor := 0
  cursor_le := Nat.zero_le _

/-- The messages accepted so far, in order. -/
def accepted (o : Outbox α) : List (List α) := o.finished ++ o.queue

/-- What has gone out. -/
def delivered (o : Outbox α) : List α :=
  o.finished.flatten ++ (o.queue.headD []).take o.cursor

theorem cursor_of_queue_nil {o : Outbox α} (h : o.queue = []) : o.cursor = 0 := by
  have hle := o.cursor_le
  rw [h] at hle
  exact Nat.le_zero.mp hle

/-! ## Moves -/

def enqueue (o : Outbox α) (m : List α) : Outbox α where
  finished := o.finished
  queue := o.queue ++ [m]
  cursor := o.cursor
  cursor_le := by
    have h := o.cursor_le
    cases hq : o.queue with
    | nil =>
        rw [hq] at h
        exact Nat.le_trans h (Nat.zero_le _)
    | cons a q =>
        rw [hq] at h
        exact h

/-- The next `k` elements of the first waiting message go out. -/
def advance (o : Outbox α) (k : Nat) (h : o.cursor + k ≤ (o.queue.headD []).length) :
    Outbox α where
  finished := o.finished
  queue := o.queue
  cursor := o.cursor + k
  cursor_le := h

/-- The first waiting message is done with. -/
def pop (o : Outbox α) : Outbox α where
  finished := o.finished ++ [o.queue.headD []]
  queue := o.queue.tail
  cursor := 0
  cursor_le := Nat.zero_le _

/-- The moves of an outbox: a message leaves the queue only once it is out. -/
inductive Step : Outbox α → Outbox α → Prop
  | enqueue (o : Outbox α) (m : List α) : Step o (o.enqueue m)
  | advance (o : Outbox α) (k : Nat) (h : o.cursor + k ≤ (o.queue.headD []).length) :
      Step o (o.advance k h)
  | pop (o : Outbox α) (hne : o.queue ≠ [])
      (h : o.cursor = (o.queue.headD []).length) : Step o o.pop

abbrev Steps : Outbox α → Outbox α → Prop := Relation.ReflTransGen Step

@[simp] theorem advance_queue (o : Outbox α) (k : Nat)
    (h : o.cursor + k ≤ (o.queue.headD []).length) : (o.advance k h).queue = o.queue := rfl

@[simp] theorem advance_cursor (o : Outbox α) (k : Nat)
    (h : o.cursor + k ≤ (o.queue.headD []).length) :
    (o.advance k h).cursor = o.cursor + k := rfl

@[simp] theorem pop_queue (o : Outbox α) : o.pop.queue = o.queue.tail := rfl

/-! ## What the moves do to the two streams -/

@[simp] theorem enqueue_accepted (o : Outbox α) (m : List α) :
    (o.enqueue m).accepted = o.accepted ++ [m] := by
  simp [accepted, enqueue]

@[simp] theorem enqueue_delivered (o : Outbox α) (m : List α) :
    (o.enqueue m).delivered = o.delivered := by
  cases hq : o.queue with
  | nil => simp [delivered, enqueue, hq, cursor_of_queue_nil hq]
  | cons a q => simp [delivered, enqueue, hq]

@[simp] theorem advance_accepted (o : Outbox α) (k : Nat)
    (h : o.cursor + k ≤ (o.queue.headD []).length) :
    (o.advance k h).accepted = o.accepted := rfl

theorem advance_delivered (o : Outbox α) (k : Nat)
    (h : o.cursor + k ≤ (o.queue.headD []).length) :
    (o.advance k h).delivered =
      o.delivered ++ ((o.queue.headD []).drop o.cursor).take k := by
  simp [delivered, advance, List.take_add]

theorem pop_accepted {o : Outbox α} (hne : o.queue ≠ []) :
    o.pop.accepted = o.accepted := by
  cases hq : o.queue with
  | nil => exact absurd hq hne
  | cons a q => simp [accepted, pop, hq]

theorem pop_delivered {o : Outbox α} (h : o.cursor = (o.queue.headD []).length) :
    o.pop.delivered = o.delivered := by
  simp [delivered, pop, h]

/-! ## Order and completeness -/

/-- What goes out is a prefix of what was accepted. -/
theorem delivered_prefix (o : Outbox α) : o.delivered <+: o.accepted.flatten := by
  rw [delivered, accepted, List.flatten_append, List.prefix_append_right_inj]
  cases o.queue with
  | nil => simp
  | cons m q => exact (List.take_prefix _ _).trans (List.prefix_append _ _)

/-- Once nothing waits, everything accepted is out. -/
theorem delivered_of_queue_nil {o : Outbox α} (h : o.queue = []) :
    o.delivered = o.accepted.flatten := by
  simp [delivered, accepted, h]

end Outbox
