import Mathlib.Data.List.Basic

/-!
# Turnstiles

What a queue is for that doubles as the mark that work is going on: jobs are
submitted in some order and taken one at a time, the job at the front is the one
being worked on, and it leaves the queue when it is finished. A job submitted to
an empty queue is started at once, every other one when its predecessor is
finished. If work on a job fails the turnstile halts for good, with that job
still at the front.

How many jobs are finished determines the rest, so the jobs that were started
are a prefix of those submitted in every turnstile there is (`started_prefix`):
none is skipped and none is started twice.
-/

structure Turnstile (α : Type*) where
  submitted : List α
  finished : Nat
  halted : Bool
  finished_le : finished ≤ submitted.length
  halted_lt : halted = true → finished < submitted.length

namespace Turnstile

variable {α : Type*}

def empty : Turnstile α where
  submitted := []
  finished := 0
  halted := false
  finished_le := Nat.le_refl 0
  halted_lt := by simp

/-- The jobs that are not finished. -/
def queue (q : Turnstile α) : List α := q.submitted.drop q.finished

/-- The finished jobs and the one at the front of the queue. -/
def started (q : Turnstile α) : List α := q.submitted.take (q.finished + 1)

theorem queue_eq_nil {q : Turnstile α} : q.queue = [] ↔ q.finished = q.submitted.length := by
  have hle := q.finished_le
  rw [queue, List.drop_eq_nil_iff]
  omega

theorem queue_ne_nil {q : Turnstile α} : q.queue ≠ [] ↔ q.finished < q.submitted.length := by
  have hle := q.finished_le
  rw [Ne, queue_eq_nil]
  omega

theorem not_halted_of_queue_nil {q : Turnstile α} (h : q.queue = []) : q.halted = false := by
  rw [← Bool.not_eq_true]
  intro hhalted
  have hlt := q.halted_lt hhalted
  rw [queue_eq_nil] at h
  omega

theorem started_prefix (q : Turnstile α) : q.started <+: q.submitted := List.take_prefix _ _

theorem take_started_length (q : Turnstile α) :
    q.submitted.take q.started.length = q.started :=
  (List.prefix_iff_eq_take.mp q.started_prefix).symm

/-- With an empty queue all jobs have been started. -/
theorem started_of_queue_nil {q : Turnstile α} (h : q.queue = []) : q.started = q.submitted := by
  rw [queue_eq_nil] at h
  exact List.take_of_length_le (by omega)

theorem started_length {q : Turnstile α} (h : q.queue ≠ []) :
    q.started.length = q.finished + 1 := by
  rw [queue_ne_nil] at h
  rw [started, List.length_take]
  omega

/-- The job being worked on is the one started last. -/
theorem queue_head? {q : Turnstile α} (h : q.queue ≠ []) :
    q.queue.head? = q.submitted[q.started.length - 1]? := by
  rw [started_length h, Nat.add_sub_cancel, queue, List.head?_drop]

/-! ## Moves -/

def submit (q : Turnstile α) (a : α) : Turnstile α where
  submitted := q.submitted ++ [a]
  finished := q.finished
  halted := q.halted
  finished_le := by
    have hle := q.finished_le
    rw [List.length_append]
    omega
  halted_lt := by
    intro hhalted
    have hlt := q.halted_lt hhalted
    rw [List.length_append]
    omega

def finish (q : Turnstile α) (hqueue : q.queue ≠ []) (hhalted : q.halted = false) :
    Turnstile α where
  submitted := q.submitted
  finished := q.finished + 1
  halted := q.halted
  finished_le := queue_ne_nil.mp hqueue
  halted_lt := by simp [hhalted]

def halt (q : Turnstile α) (hqueue : q.queue ≠ []) : Turnstile α where
  submitted := q.submitted
  finished := q.finished
  halted := true
  finished_le := q.finished_le
  halted_lt := fun _ => queue_ne_nil.mp hqueue

inductive Step : Turnstile α → Turnstile α → Prop
  | submit (q : Turnstile α) (a : α) : Step q (q.submit a)
  | finish (q : Turnstile α) (hqueue : q.queue ≠ []) (hhalted : q.halted = false) :
      Step q (q.finish hqueue hhalted)
  | halt (q : Turnstile α) (hqueue : q.queue ≠ []) : Step q (q.halt hqueue)

theorem submit_queue (q : Turnstile α) (a : α) : (q.submit a).queue = q.queue ++ [a] :=
  List.drop_append_of_le_length q.finished_le

theorem submit_started_of_idle {q : Turnstile α} (h : q.queue = []) (a : α) :
    (q.submit a).started = q.started ++ [a] := by
  rw [queue_eq_nil] at h
  simp only [started, submit, h]
  rw [List.take_of_length_le (by simp), List.take_of_length_le (by omega)]

theorem submit_started_of_busy {q : Turnstile α} (h : q.queue ≠ []) (a : α) :
    (q.submit a).started = q.started := by
  rw [queue_ne_nil] at h
  exact List.take_append_of_le_length h

section Finish

variable {q : Turnstile α} {hqueue : q.queue ≠ []} {hhalted : q.halted = false}

theorem finish_queue : (q.finish hqueue hhalted).queue = q.queue.tail := by
  rw [queue, queue, List.tail_drop]
  rfl

theorem finish_started :
    (q.finish hqueue hhalted).started = q.started ++ q.queue.tail.head?.toList := by
  rw [queue, List.tail_drop, List.head?_drop]
  exact List.take_add_one

end Finish

end Turnstile
