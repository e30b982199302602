import CppNet.Duplex.Threads

/-!
# The send queue under its mutex

A thread may find the queue between a push and the write that belongs to it, or a
completed write whose node is still in the queue. The outline says for each place in the
code how far the session is from one that tracks a turnstile. With it writes are started
one at a time and in the order in which the calls of `Send` got the mutex, no message is
left behind, and no thread is stuck, whatever the interleaving (`sends_serialised`).
-/

namespace CppNet.Duplex

open Mutex (Instr inside)

section SendQueue

variable {ι Node : Type}

/-! ## Writes -/

section Write

variable [MessageNode Node] {s : CSession Node} {msg : Ptr Node} {n : Int} {pending : Bool}

theorem exec_write_ptrs : ((Action.write msg n).exec pending s).2.ptrs
    = s.ptrs ++ if pending then [] else [msg] := by
  cases pending with
  | false => exact asyncWrite_ptrs s msg (toSize n)
  | true => exact (List.append_nil _).symm

theorem startedBy_exec_write : startedBy s ((Action.write msg n).exec pending s).2
    = if pending then [] else [msg] := by
  cases pending with
  | false => exact startedBy_of_next (asyncWrite_ptrs s msg _) (asyncWrite_handed_length s msg _)
  | true => exact startedBy_of_same rfl

theorem exec_write_sendQueue :
    ((Action.write msg n).exec pending s).2.sendQueue = s.sendQueue := by
  cases pending <;> rfl

theorem exec_write_broken : ((Action.write msg n).exec pending s).2.broken = s.broken := by
  cases pending <;> rfl

/-- The only write is out. -/
theorem CSession.complete_only {s : CSession Node} {op : WriteOp Node} (hdone : op.done = op.size)
    (hwrites : s.writes = [op]) :
    s.complete (.writeDone 0 false) = some (handleWrite { s with writes := [] } false) := by
  simp [complete, hwrites, hdone]

end Write

/-! ## The turnstile -/

section Tracks

variable {s : CSession Node} {h : History Node} {q : Turnstile (Call Node)}

theorem Tracks.ptrs_length_le (hm : Tracks s h q) : s.ptrs.length ≤ 1 := by
  rw [CSession.ptrs, List.length_map]
  exact hm.scheduled.exclusive

theorem Tracks.started_length_le (hm : Tracks s h q) : h.started.length ≤ h.calls.length := by
  rw [← hm.started.length_eq, hm.calls]
  exact q.started_prefix.length_le

/-- The outstanding write fails. -/
theorem Tracks.fails (hm : Tracks s h q) (hptrs : s.ptrs ≠ []) :
    ∃ q', Tracks { s with writes := [] } { h with failed := true } q' := by
  cases hm.turn with
  | idle hqueue hnone => exact (hptrs hnone).elim
  | stopped hqueue hhalted hnone => exact (hptrs hnone).elim
  | busy ptr hqueue hhalted hone hlast =>
      exact ⟨q.halt hqueue, hm.sound, hm.calls, hm.started, hm.queue, rfl,
        .stopped hqueue rfl rfl⟩

end Tracks

/-! ## The outline -/

/-- The session as if the write that was taken up were still outstanding. -/
def Shared.restored (x : Shared ι Node) : CSession Node :=
  { x.session with writes := x.taken.toList.map Prod.snd ++ x.session.writes }

theorem Shared.restored_ptrs (x : Shared ι Node) :
    x.restored.ptrs = (x.taken.toList.map Prod.snd).map WriteOp.ptr ++ x.session.ptrs :=
  List.map_append

/-- A completed write is out. -/
def Shared.TakenDone (x : Shared ι Node) : Prop :=
  ∀ i op, x.taken = some (i, op) → op.done = op.size

structure Based (x : Shared ι Node) (q : Turnstile (Call Node)) : Prop where
  tracks : Tracks x.restored x.history q
  done : x.TakenDone

/-- What every place in the code has in common. -/
structure Sound (x : Shared ι Node) : Prop where
  unbroken : x.session.broken = false
  single : x.restored.ptrs.length ≤ 1
  inOrder : List.Forall₂ Call.Writes (x.history.calls.take x.history.started.length)
    x.history.started

def Free (x : Shared ι Node) : Prop := ∃ q, Based x q

theorem Free.sound {x : Shared ι Node} (h : Free x) : Sound x := by
  obtain ⟨q, htracks, -⟩ := h
  exact ⟨htracks.sound, htracks.ptrs_length_le, htracks.scheduled.inOrder⟩

theorem Sound.length_le {x : Shared ι Node} (h : Sound x) :
    x.taken.toList.length + x.session.writes.length ≤ 1 := by
  have hsingle := h.single
  rw [Shared.restored_ptrs, CSession.ptrs, List.length_append, List.length_map, List.length_map,
    List.length_map] at hsingle
  exact hsingle

/-- An outstanding write is the only one, and none is taken up. -/
theorem Sound.writing {x : Shared ι Node} (h : Sound x) {index : Nat} {op : WriteOp Node}
    (hop : x.session.writes[index]? = some op) :
    x.taken = none ∧ x.session.writes = [op] ∧ x.session.writes.eraseIdx index = [] := by
  have hsingle := h.length_le
  have hlt := (List.getElem?_eq_some_iff.mp hop).1
  obtain ⟨op', hwrites⟩ := List.length_eq_one_iff.mp
    (show x.session.writes.length = 1 by omega)
  refine ⟨?_, ?_, Machine.eraseIdx_only hwrites hop⟩
  · rw [← Option.toList_eq_nil_iff, ← List.length_eq_zero_iff]
    omega
  · rw [hwrites, (Machine.eq_only hwrites hop).2]

def Shared.TakenBy (x : Shared ι Node) (i : ι) : Prop := ∃ op, x.taken = some (i, op)

theorem not_takenBy_of_none {x : Shared ι Node} (hnone : x.taken = none) (i : ι) :
    ¬ x.TakenBy i := by
  simp [Shared.TakenBy, hnone]

theorem not_takenBy_of_ne {x : Shared ι Node} {i j : ι} {op : WriteOp Node}
    (htaken : x.taken = some (i, op)) (hj : j ≠ i) : ¬ x.TakenBy j := by
  rintro ⟨op', heq⟩
  rw [htaken] at heq
  exact hj (Prod.mk.inj (Option.some.inj heq)).1.symm

/-- A thread pops the node of the write it has taken up, and no other one. -/
def Taker (i : ι) (code : Code Node) (x : Shared ι Node) : Prop :=
  x.TakenBy i ↔ .act .pop ∈ code

theorem Taker.of_taken {i : ι} {code : Code Node} {x y : Shared ι Node} (h : Taker i code x)
    (htaken : y.taken = x.taken) : Taker i code y := by
  unfold Taker Shared.TakenBy
  rw [htaken]
  exact h

/-- What others take up or have popped is none of the business of a thread. -/
theorem Taker.of_not {i : ι} {code : Code Node} {x y : Shared ι Node} (h : Taker i code x)
    (hx : ¬ x.TakenBy i) (hy : ¬ y.TakenBy i) : Taker i code y :=
  iff_of_false hy fun hpop => hx (h.mpr hpop)

/-- Code of `HandleRead` behind its `Send`. -/
def Plain (code : Code Node) : Prop := ∀ c ∈ code, c = .act .clear ∨ c = .act .read

/-- Where a thread can be that does not hold the mutex. -/
inductive Shape : Code Node → Prop
  | plain {code : Code Node} (hplain : Plain code) : Shape code
  | send (msg : Ptr Node) (n uninitialised : Int) (rest : Code Node) (hplain : Plain rest) :
      Shape (sendCode msg n uninitialised ++ rest)
  | handleWrite : Shape (handleWriteCode false)

theorem inside_of_plain {code : Code Node} (h : Plain code) : inside code = false := by
  induction code with
  | nil => rfl
  | cons c code ih =>
      have hrest : Plain code := by
        intro c hc
        exact h c (List.mem_cons_of_mem _ hc)
      rcases h c (List.mem_cons_self ..) with rfl | rfl <;> exact ih hrest

theorem inside_of_shape {code : Code Node} (h : Shape code) : inside code = false := by
  cases h with
  | plain hplain => exact inside_of_plain hplain
  | send | handleWrite => rfl

def Waits (i : ι) (code : Code Node) (x : Shared ι Node) : Prop := Shape code ∧ Taker i code x

/-- Where a thread can be in a critical section without having left its mark on the
session yet, or with all of it done. -/
inductive Steady (pending : Bool) : Mutex.Thread (Action Node) Bool → Prop
  | checks (msg : Ptr Node) (n uninitialised : Int) (vars : Bool) {rest : Code Node}
      (hplain : Plain rest) :
      Steady pending ⟨.act .check :: .act (.push msg n uninitialised) :: .act (.write msg n)
        :: .unlock :: rest, vars⟩
  | pushes (msg : Ptr Node) (n uninitialised : Int) {rest : Code Node} (hplain : Plain rest) :
      Steady pending ⟨.act (.push msg n uninitialised) :: .act (.write msg n) :: .unlock :: rest,
        pending⟩
  | leaves (vars : Bool) {rest : Code Node} (hplain : Plain rest) :
      Steady pending ⟨.unlock :: rest, vars⟩
  | pops (vars : Bool) : Steady pending ⟨[.act .pop, .act .next, .unlock], vars⟩

/-- Two that differ in the contents of `data_`, the reads, and how much of a write is out,
if at all. -/
structure Shared.Alike (x y : Shared ι Node) : Prop where
  broken : y.session.broken = x.session.broken
  sendQueue : y.session.sendQueue = x.session.sendQueue
  ptrs : y.session.ptrs = x.session.ptrs
  history : y.history = x.history
  taken : y.taken = x.taken

namespace Shared.Alike

variable {x y : Shared ι Node}

theorem restored_ptrs (h : x.Alike y) : y.restored.ptrs = x.restored.ptrs := by
  rw [Shared.restored_ptrs, Shared.restored_ptrs, h.taken, h.ptrs]

theorem done (h : x.Alike y) (hdone : x.TakenDone) : y.TakenDone := by
  unfold Shared.TakenDone
  rw [h.taken]
  exact hdone

theorem taker (h : x.Alike y) {i : ι} {code : Code Node} (htaker : Taker i code x) :
    Taker i code y := htaker.of_taken h.taken

theorem based (h : x.Alike y) {q : Turnstile (Call Node)} (hbased : Based x q) : Based y q where
  tracks := by
    rw [h.history]
    exact hbased.tracks.congr h.broken h.sendQueue h.restored_ptrs
  done := h.done hbased.done

theorem free (h : x.Alike y) (hfree : Free x) : Free y := hfree.imp fun _ => h.based

theorem waits (h : x.Alike y) {i : ι} {code : Code Node} (hwaits : Waits i code x) :
    Waits i code y := ⟨hwaits.1, h.taker hwaits.2⟩

theorem writes_eq_nil (h : x.Alike y) (hwrites : x.session.writes = []) :
    y.session.writes = [] := by
  rw [← List.map_eq_nil_iff (f := WriteOp.ptr)] at hwrites ⊢
  exact h.ptrs.trans hwrites

end Shared.Alike

/-! ## Completions -/

section Completions

variable {i : ι} {x : Shared ι Node} {op : WriteOp Node}

theorem restored_ptrs_ne_nil (hwrites : x.session.writes = [op]) : x.restored.ptrs ≠ [] := by
  rw [Shared.restored_ptrs, CSession.ptrs, hwrites]
  simp

/-- A write is out, and a thread has taken it up. -/
def Shared.takes (x : Shared ι Node) (i : ι) (op : WriteOp Node) : Shared ι Node :=
  { x with session := { x.session with writes := [] }, taken := some (i, op) }

theorem takes_restored (hnone : x.taken = none) (hwrites : x.session.writes = [op]) :
    (x.takes i op).restored = x.restored := by
  simp [Shared.restored, Shared.takes, hnone, hwrites]

theorem takes_done (hdone : op.done = op.size) : (x.takes i op).TakenDone := by
  rintro j op' heq
  cases heq
  exact hdone

theorem free_takes (hfree : Free x) (hnone : x.taken = none) (hwrites : x.session.writes = [op])
    (hdone : op.done = op.size) : Free (x.takes i op) := by
  obtain ⟨q, htracks, -⟩ := hfree
  refine ⟨q, ?_, takes_done hdone⟩
  rw [takes_restored hnone hwrites]
  exact htracks

theorem taker_takes {j : ι} {code : Code Node} (h : Taker j code x) (hnone : x.taken = none)
    (hj : j ≠ i) : Taker j code (x.takes i op) :=
  h.of_not (not_takenBy_of_none hnone j) (not_takenBy_of_ne rfl hj)

/-- A write has failed. -/
def Shared.fails (x : Shared ι Node) : Shared ι Node :=
  { x with session := { x.session with writes := [] }
           history := { x.history with failed := true } }

theorem free_fails (hfree : Free x) (hnone : x.taken = none) (hwrites : x.session.writes = [op]) :
    Free x.fails := by
  obtain ⟨q, htracks, hdone⟩ := hfree
  obtain ⟨q', hfails⟩ := htracks.fails (restored_ptrs_ne_nil hwrites)
  refine ⟨q', hfails.congr rfl rfl ?_, hdone⟩
  rw [Shared.restored_ptrs, show x.fails.taken = none from hnone]
  rfl

end Completions

/-- What a thread takes up in a sound state: nothing that counts, or the only write. -/
theorem begins_cases {i : ι} {w : Work} {code : Code Node} {x y : Shared ι Node}
    (hsound : Sound x) (h : x.begins i w = some (code, y)) :
    (x.Alike y ∧ Shape code ∧ .act .pop ∉ code)
      ∨ ∃ op, x.taken = none ∧ x.session.writes = [op]
        ∧ (op.done = op.size ∧ code = handleWriteCode false ∧ y = x.takes i op
          ∨ code = [] ∧ y = x.fails) := by
  cases w with
  | send msg uninitialised =>
      obtain ⟨-, heq⟩ := Option.ite_none_right_eq_some.mp h
      cases heq
      refine .inl ⟨⟨rfl, rfl, rfl, rfl, rfl⟩, ?_, by simp [sendCode]⟩
      exact .send (.caller msg) msg.length uninitialised [] (by simp [Plain])
  | readDone error bytes uninitialised =>
      obtain ⟨-, heq⟩ := Option.ite_none_right_eq_some.mp h
      cases heq
      refine .inl ⟨⟨rfl, rfl, rfl, rfl, rfl⟩, ?_⟩
      cases error with
      | true => exact ⟨.plain (by simp [handleReadCode, Plain]), by simp [handleReadCode]⟩
      | false =>
          refine ⟨.send .data _ uninitialised [.act .clear, .act .read] ?_, ?_⟩
          · simp [Plain]
          · simp [handleReadCode, sendCode]
  | writeDone index error =>
      unfold Shared.begins at h
      dsimp only at h
      split at h
      · cases h
      · rename_i op hop
        obtain ⟨hdone, heq⟩ := Option.ite_none_right_eq_some.mp h
        obtain ⟨hnone, hwrites, herase⟩ := hsound.writing hop
        cases heq
        refine .inr ⟨op, hnone, hwrites, ?_⟩
        cases error with
        | false =>
            refine .inl ⟨hdone rfl, rfl, ?_⟩
            simp [Shared.takes, herase]
        | true =>
            refine .inr ⟨rfl, ?_⟩
            simp [Shared.fails, herase]

variable [MessageNode Node]

/-- What is known of the session while a thread is in a critical section. After a push it
is a session that tracks a turnstile with the pushed node behind it, and after a pop one
without the popped node and its write. -/
inductive Held (i : ι) : Mutex.Thread (Action Node) Bool → Shared ι Node → Prop
  | steady {x : Shared ι Node} {thread : Mutex.Thread (Action Node) Bool} (hfree : Free x)
      (hat : Steady (decide (0 < x.session.sendQueue.length)) thread)
      (htaker : Taker i thread.code x) : Held i thread x
  | pushed {x : Shared ι Node} {msg : Ptr Node} {n : Int} {rest : Code Node}
      (s : CSession Node) (h : History Node) (q : Turnstile (Call Node)) (uninitialised : Int)
      (htracks : Tracks s h q) (hdone : x.TakenDone)
      (hbroken : x.session.broken = s.broken)
      (hqueue : x.session.sendQueue
        = s.sendQueue ++ [MessageNode.make (s.mem msg) n uninitialised])
      (hptrs : x.restored.ptrs = s.ptrs)
      (hhistory : x.history = { h with
        calls := h.calls ++ [⟨msg, MessageNode.make (s.mem msg) n uninitialised⟩] })
      (hplain : Plain rest)
      (htaker : Taker i (.act (.write msg n) :: .unlock :: rest) x) :
      Held i ⟨.act (.write msg n) :: .unlock :: rest, decide (0 < s.sendQueue.length)⟩ x
  | popped {x : Shared ι Node} {vars : Bool} (q : Turnstile (Call Node)) (front : Node)
      (op : WriteOp Node)
      (htracks : Tracks { x.session with
        sendQueue := front :: x.session.sendQueue, writes := [op] } x.history q)
      (hdone : op.done = op.size) (htaken : x.taken = none) (hwrites : x.session.writes = []) :
      Held i ⟨[.act .next, .unlock], vars⟩ x

theorem Held.alike {i : ι} {thread : Mutex.Thread (Action Node) Bool} {x y : Shared ι Node}
    (hheld : Held i thread x) (h : x.Alike y) : Held i thread y := by
  cases hheld with
  | steady hfree hat htaker =>
      exact .steady (h.free hfree) (by rwa [h.sendQueue]) (h.taker htaker)
  | pushed s h₀ q uninitialised htracks hdone hbroken hqueue hptrs hhistory hplain htaker =>
      exact .pushed s h₀ q uninitialised htracks (h.done hdone) (h.broken.trans hbroken)
        (h.sendQueue.trans hqueue) (h.restored_ptrs.trans hptrs) (h.history.trans hhistory)
        hplain (h.taker htaker)
  | popped q front op htracks hdone htaken hwrites =>
      refine .popped q front op ?_ hdone (h.taken.trans htaken) (h.writes_eq_nil hwrites)
      rw [h.history]
      exact htracks.congr h.broken (congrArg (front :: ·) h.sendQueue) rfl

theorem Held.sound {i : ι} {thread : Mutex.Thread (Action Node) Bool} {x : Shared ι Node}
    (h : Held i thread x) : Sound x := by
  cases h with
  | steady hfree hat htaker => exact hfree.sound
  | pushed s h q uninitialised htracks hdone hbroken hqueue hptrs hhistory hplain htaker =>
      refine ⟨hbroken.trans htracks.sound, hptrs ▸ htracks.ptrs_length_le, ?_⟩
      rw [hhistory, List.take_append_of_le_length htracks.started_length_le]
      exact htracks.scheduled.inOrder
  | popped q front op htracks hdone htaken hwrites =>
      refine ⟨htracks.sound, ?_, htracks.scheduled.inOrder⟩
      simp [Shared.restored, CSession.ptrs, htaken, hwrites]

/-! ## Critical sections -/

theorem held_of_lock {i : ι} {code : Code Node} {vars : Bool} {x : Shared ι Node}
    (hfree : Free x) (hwaits : Waits i (.lock :: code) x) : Held i ⟨code, vars⟩ x := by
  obtain ⟨hshape, htaker⟩ := hwaits
  have htaker' : Taker i code x := htaker.trans (by simp)
  cases hshape with
  | plain hplain => rcases hplain .lock (List.mem_cons_self ..) with heq | heq <;> cases heq
  | send msg n uninitialised rest hplain =>
      exact .steady hfree (.checks msg n uninitialised vars hplain) htaker'
  | handleWrite => exact .steady hfree (.pops vars) htaker'

theorem free_of_unlock {i : ι} {code : Code Node} {vars : Bool} {x : Shared ι Node}
    (h : Held i ⟨.unlock :: code, vars⟩ x) : Free x ∧ Waits i code x := by
  cases h with
  | steady hfree hat htaker =>
      cases hat with
      | leaves vars hplain =>
          exact ⟨hfree, .plain hplain, htaker.trans (by simp)⟩

section Work

variable {i : ι} {code : Code Node} {vars : Bool} {x : Shared ι Node}

theorem held_check (h : Held i ⟨.act .check :: code, vars⟩ x) :
    Held i ⟨code, (x.act .check vars).1⟩ (x.act .check vars).2 := by
  rw [Shared.act_check]
  cases h with
  | steady hfree hat htaker =>
      cases hat with
      | checks msg n uninitialised vars hplain =>
          exact .steady hfree (.pushes msg n uninitialised hplain) (htaker.trans (by simp))

/-- The node is in the queue, and the write for it is not started yet. -/
theorem held_push {msg : Ptr Node} {n uninitialised : Int}
    (h : Held i ⟨.act (.push msg n uninitialised) :: code, vars⟩ x) :
    Held i ⟨code, (x.act (.push msg n uninitialised) vars).1⟩
      (x.act (.push msg n uninitialised) vars).2 := by
  cases h with
  | steady hfree hat htaker =>
      obtain ⟨q, hbased⟩ := hfree
      cases hat with
      | pushes msg n uninitialised hplain =>
          refine .pushed x.restored x.history q uninitialised hbased.tracks hbased.done rfl rfl rfl
            ?_ hplain (htaker.trans (by simp))
          simp only [Shared.act, Action.exec, Action.calls, startedBy_of_same, List.append_nil]
          rfl

/-- The write is started, unless one is pending. -/
theorem held_write {msg : Ptr Node} {n : Int}
    (h : Held i ⟨.act (.write msg n) :: code, vars⟩ x) :
    Held i ⟨code, (x.act (.write msg n) vars).1⟩ (x.act (.write msg n) vars).2 := by
  cases h with
  | steady hfree hat htaker => cases hat
  | pushed s h q uninitialised htracks hdone hbroken hqueue hptrs hhistory hplain htaker =>
      have hsend := tracks_send htracks msg n uninitialised
      rw [send_eq_exec] at hsend
      -- what is started depends on `pending` only
      have hstarted : startedBy s ((Action.write msg n).exec (0 < s.sendQueue.length)
            ((Action.push msg n uninitialised).exec (0 < s.sendQueue.length) s).2).2
          = startedBy x.session
            ((Action.write msg n).exec (0 < s.sendQueue.length) x.session).2 :=
        startedBy_exec_write.trans startedBy_exec_write.symm
      have hhistory' : (x.act (.write msg n) (0 < s.sendQueue.length)).2.history = { h with
          calls := h.calls ++ [⟨msg, MessageNode.make (s.mem msg) n uninitialised⟩]
          started := h.started ++ startedBy x.session
            ((Action.write msg n).exec (0 < s.sendQueue.length) x.session).2 } := by
        simp only [Shared.act, Action.calls, List.append_nil, hhistory]
      rw [hstarted, ← hhistory'] at hsend
      refine .steady ⟨q.submit ⟨msg, MessageNode.make (s.mem msg) n uninitialised⟩, ?_, hdone⟩
        (.leaves _ hplain) (htaker.trans (by simp))
      refine hsend.congr ?_ ?_ ?_
      · rw [exec_write_broken]
        exact exec_write_broken.trans hbroken
      · rw [exec_write_sendQueue]
        exact exec_write_sendQueue.trans hqueue
      · rw [exec_write_ptrs, Shared.restored_ptrs]
        show _ ++ ((Action.write msg n).exec (0 < s.sendQueue.length) x.session).2.ptrs = _
        rw [exec_write_ptrs, ← List.append_assoc]
        rw [Shared.restored_ptrs] at hptrs
        exact congrArg (· ++ _) hptrs

/-- The node of the completed write is gone, and the write for the one behind it is not
started yet. -/
theorem held_pop (h : Held i ⟨.act .pop :: code, vars⟩ x) :
    Held i ⟨code, (x.act .pop vars).1⟩ (x.act .pop vars).2
      ∧ ∀ j code', j ≠ i → Waits j code' x → Waits j code' (x.act .pop vars).2 := by
  cases h with
  | steady hfree hat htaker =>
      obtain ⟨q, htracks, hdone⟩ := hfree
      cases hat with
      | pops vars =>
          obtain ⟨op, htaken⟩ := htaker.mpr (by simp)
          have hop : x.restored.writes[0]? = some op := by
            simp [Shared.restored, htaken]
          obtain ⟨front, rest, hqueue, -, hnone⟩ := htracks.busy_of_write hop
          have hsend : x.session.sendQueue = front.node :: rest.map Call.node := by
            have hmap := htracks.queue
            rw [hqueue] at hmap
            exact hmap
          have hwrites : x.session.writes = [] := by
            simpa [Shared.restored, htaken] using hnone
          rw [Shared.act_pop hsend]
          constructor
          · refine .popped q front.node op ?_ (hdone i op htaken) rfl hwrites
            refine htracks.congr rfl hsend.symm ?_
            have hptrs : x.session.ptrs = [] := List.map_eq_nil_iff.mpr hwrites
            rw [Shared.restored_ptrs, htaken, hptrs]
            rfl
          · intro j code' hj hwaits
            exact ⟨hwaits.1, hwaits.2.of_not (not_takenBy_of_ne htaken hj)
              (not_takenBy_of_none rfl j)⟩

/-- The next write is started, if there is a node for it. -/
theorem held_next (h : Held i ⟨.act .next :: code, vars⟩ x) :
    Held i ⟨code, (x.act .next vars).1⟩ (x.act .next vars).2 := by
  cases h with
  | steady hfree hat htaker => cases hat
  | popped q front op htracks hdone htaken hwrites =>
      have hcomplete : CSession.complete { x.session with
          sendQueue := front :: x.session.sendQueue, writes := [op] } (.writeDone 0 false)
          = some ((Action.next.exec vars x.session).2, false) := by
        rw [CSession.complete_only hdone rfl, handleWrite_eq_exec vars]
        simp only [Action.exec, ← hwrites]
      obtain ⟨q', -, hnext⟩ := tracks_writeDone htracks hcomplete
      have htaken' : (x.act .next vars).2.taken = none := htaken
      have hhistory : (x.act .next vars).2.history = { x.history with
          started := x.history.started
            ++ startedBy x.session (Action.next.exec vars x.session).2 } := by
        simp only [Shared.act, Action.calls, List.append_nil]
      refine .steady ⟨q', ?_, ?_⟩ (.leaves _ (by simp [Plain])) ?_
      · rw [hhistory]
        refine hnext.congr rfl rfl ?_
        rw [Shared.restored_ptrs, htaken']
        rfl
      · rintro j op' heq
        rw [htaken'] at heq
        cases heq
      · exact iff_of_false (not_takenBy_of_none htaken' i) (by simp)

/-- Every step of a critical section keeps to the outline. -/
theorem held_act {a : Action Node} (h : Held i ⟨.act a :: code, vars⟩ x) :
    Held i ⟨code, (x.act a vars).1⟩ (x.act a vars).2
      ∧ ∀ j code', j ≠ i → Waits j code' x → Waits j code' (x.act a vars).2 := by
  have hothers : (x.act a vars).2.taken = x.taken →
      ∀ j code', j ≠ i → Waits j code' x → Waits j code' (x.act a vars).2 := by
    intro htaken j code' _ hwaits
    exact ⟨hwaits.1, hwaits.2.of_taken htaken⟩
  cases a with
  | check => exact ⟨held_check h, hothers rfl⟩
  | push msg n uninitialised => exact ⟨held_push h, hothers rfl⟩
  | write msg n => exact ⟨held_write h, hothers rfl⟩
  | pop => exact held_pop h
  | next => exact ⟨held_next h, hothers rfl⟩
  | clear | read =>
      cases h with
      | steady hfree hat htaker => cases hat

end Work

/-! ## Outside of them -/

/-- The steps behind the `Send` of `HandleRead`. -/
theorem waits_act {i : ι} {a : Action Node} {code : Code Node} (vars : Bool) {x : Shared ι Node}
    (h : Waits i (.act a :: code) x) :
    x.Alike (x.act a vars).2 ∧ Waits i code (x.act a vars).2 := by
  obtain ⟨hshape, htaker⟩ := h
  cases hshape with
  | plain hplain =>
      have hrest : Plain code := by
        intro c hc
        exact hplain c (List.mem_cons_of_mem _ hc)
      have htaker' : Taker i code x := by
        rcases hplain _ (List.mem_cons_self ..) with heq | heq <;> cases heq <;>
          exact htaker.trans (by simp)
      suffices hlike : x.Alike (x.act a vars).2 from
        ⟨hlike, .plain hrest, hlike.taker htaker'⟩
      rcases hplain _ (List.mem_cons_self ..) with heq | heq
      · cases heq
        rw [Shared.act_clear]
        exact ⟨rfl, rfl, rfl, rfl, rfl⟩
      · cases heq
        rw [Shared.act_read]
        exact ⟨rfl, rfl, rfl, rfl, rfl⟩

section Begins

variable {i : ι} {x : Shared ι Node} {op : WriteOp Node}

theorem held_takes {j : ι} {thread : Mutex.Thread (Action Node) Bool} (h : Held j thread x)
    (hnone : x.taken = none) (hwrites : x.session.writes = [op]) (hdone : op.done = op.size)
    (hj : j ≠ i) : Held j thread (x.takes i op) := by
  cases h with
  | steady hfree hat htaker =>
      exact .steady (free_takes hfree hnone hwrites hdone) hat (taker_takes htaker hnone hj)
  | pushed s h q uninitialised htracks _ hbroken hqueue hptrs hhistory hplain htaker =>
      refine .pushed s h q uninitialised htracks (takes_done hdone) hbroken hqueue ?_ hhistory
        hplain (taker_takes htaker hnone hj)
      rw [takes_restored hnone hwrites]
      exact hptrs
  | popped q front op' htracks _ htaken hnil =>
      rw [hwrites] at hnil
      cases hnil

theorem held_fails {j : ι} {thread : Mutex.Thread (Action Node) Bool} (h : Held j thread x)
    (hnone : x.taken = none) (hwrites : x.session.writes = [op]) : Held j thread x.fails := by
  cases h with
  | steady hfree hat htaker => exact .steady (free_fails hfree hnone hwrites) hat htaker
  | pushed s h q uninitialised htracks hdone hbroken hqueue hptrs hhistory hplain htaker =>
      obtain ⟨q', hfails⟩ := htracks.fails (hptrs ▸ restored_ptrs_ne_nil hwrites)
      refine .pushed { s with writes := [] } { h with failed := true } q' uninitialised hfails
        hdone hbroken hqueue ?_ ?_ hplain htaker
      · rw [Shared.restored_ptrs, show x.fails.taken = none from hnone]
        rfl
      · simp only [Shared.fails, hhistory]
        rfl
  | popped q front op' htracks _ htaken hnil =>
      rw [hwrites] at hnil
      cases hnil

end Begins

theorem Held.inside {i : ι} {thread : Mutex.Thread (Action Node) Bool} {x : Shared ι Node}
    (h : Held i thread x) : inside thread.code = true := by
  cases h with
  | steady hfree hat htaker => cases hat <;> rfl
  | pushed | popped => rfl

theorem Held.taker {i : ι} {thread : Mutex.Thread (Action Node) Bool} {x : Shared ι Node}
    (h : Held i thread x) : Taker i thread.code x := by
  cases h with
  | steady hfree hat htaker => exact htaker
  | pushed s h q uninitialised htracks hdone hbroken hqueue hptrs hhistory hplain htaker =>
      exact htaker
  | popped q front op htracks hdone htaken hwrites =>
      exact iff_of_false (not_takenBy_of_none htaken i) (by simp)

def outline : Mutex.Outline
    (threads : Mutex.Program ι (Action Node) Bool (Shared ι Node) Work Transfer) where
  free := Free
  held := Held
  waits := Waits
  held_inside := Held.inside
  waits_inside h := inside_of_shape h.1
  lock := held_of_lock
  unlock := free_of_unlock
  works := held_act
  roams vars h := by
    obtain ⟨hlike, hnext⟩ := waits_act vars h
    exact ⟨hnext, hlike.free, fun _ _ hheld => hheld.alike hlike, fun _ _ _ => hlike.waits⟩
  begins {i w code x y} h hknown hwaits := by
    have hsound : Sound x := hknown.elim Free.sound fun ⟨_, _, hheld⟩ => hheld.sound
    rcases begins_cases hsound h with ⟨hlike, hshape, hpop⟩ | ⟨op, hnone, hwrites, hdone | hfails⟩
    · refine ⟨⟨hshape, ?_⟩, hlike.free, ?_, ?_⟩
      · refine Taker.of_taken (iff_of_false ?_ hpop) hlike.taken
        intro htaken
        simpa using hwaits.2.mp htaken
      · intro j thread _ hheld
        exact hheld.alike hlike
      · intro j code' _ hothers
        exact hlike.waits hothers
    · obtain ⟨hdone, rfl, rfl⟩ := hdone
      refine ⟨⟨.handleWrite, ?_⟩, ?_, ?_, ?_⟩
      · exact iff_of_true ⟨op, rfl⟩ (by simp [handleWriteCode])
      · intro hfree
        exact free_takes hfree hnone hwrites hdone
      · intro j thread hj hheld
        exact held_takes hheld hnone hwrites hdone hj
      · intro j code' hj hothers
        exact ⟨hothers.1, taker_takes hothers.2 hnone hj⟩
    · obtain ⟨rfl, rfl⟩ := hfails
      refine ⟨hwaits, ?_, ?_, ?_⟩
      · intro hfree
        exact free_fails hfree hnone hwrites
      · intro j thread _ hheld
        exact held_fails hheld hnone hwrites
      · intro j code' _ hothers
        exact hothers
  env {d x y} h := by
    obtain ⟨t, ht, rfl⟩ := Option.map_eq_some_iff.mp h
    have hmoved := CSession.transfer_moved ht
    have hlike : x.Alike { x with session := t } :=
      ⟨hmoved.broken, hmoved.sendQueue, hmoved.ptrs, rfl, rfl⟩
    exact ⟨hlike.free, fun _ _ hheld => hheld.alike hlike, fun _ _ => hlike.waits⟩

/-! ## Runs -/

variable {s : Threads ι Node}

theorem orderly_sound (h : Mutex.Orderly outline s) : Sound s.shared :=
  h.known.elim Free.sound fun ⟨_, _, hheld⟩ => hheld.sound

theorem orderly_taker (h : Mutex.Orderly outline s) (i : ι) :
    Taker i (s.thread i).code s.shared := by
  by_cases hi : s.holder = some i
  · exact (h.held i hi).taker
  · exact (h.waits i hi).2

theorem orderly_free (h : Mutex.Orderly outline s)
    (hnone : ∀ i, inside (s.thread i).code = false) : Free s.shared := by
  refine h.free (Option.eq_none_iff_forall_ne_some.mpr ?_)
  intro i hi
  have hin := h.inside_iff.mpr hi
  rw [hnone i] at hin
  cases hin

variable [DecidableEq ι]

/-- One thread at a time works on the queue, and no `pop` finds it empty. Writes are started
one at a time and for the calls of `Send` in the order in which they got the mutex. While
no thread is in a critical section and no write has failed, a message is in the queue
exactly if a write is outstanding or a completed one has its `HandleWrite` to come, and
with the queue empty the writes for all calls were started. A thread can go on, if it
need not wait for one that can. -/
structure Serialised (s : Threads ι Node) : Prop where
  exclusive : ∀ i j, inside (s.thread i).code = true → inside (s.thread j).code = true → i = j
  unbroken : s.shared.session.broken = false
  single : s.shared.session.writes.length ≤ 1
  handled : ∀ i, .act .pop ∈ (s.thread i).code →
    s.shared.session.writes = [] ∧ ∀ j, j ≠ i → .act .pop ∉ (s.thread j).code
  inOrder : List.Forall₂ Call.Writes
    (s.shared.history.calls.take s.shared.history.started.length) s.shared.history.started
  marked : (∀ i, inside (s.thread i).code = false) → s.shared.history.failed = false →
    (s.shared.session.sendQueue ≠ [] ↔
      s.shared.session.writes ≠ [] ∨ ∃ i, .act .pop ∈ (s.thread i).code)
  complete : (∀ i, inside (s.thread i).code = false) → s.shared.session.sendQueue = [] →
    List.Forall₂ Call.Writes s.shared.history.calls s.shared.history.started
  goes_on : ∀ i, (s.thread i).code ≠ [] → ∃ j, (Mutex.step threads s (.runs j)).isSome
    ∧ (j = i ∨ (s.thread i).code.head? = some .lock ∧ inside (s.thread j).code = true)

theorem orderly_serialised (h : Mutex.Orderly outline s) : Serialised s where
  exclusive _ _ := h.exclusive
  unbroken := (orderly_sound h).unbroken
  single := Nat.le_trans (Nat.le_add_left _ _) (orderly_sound h).length_le
  handled := by
    intro i hpop
    have hsingle := (orderly_sound h).length_le
    obtain ⟨op, htaken⟩ := (orderly_taker h i).mpr hpop
    rw [htaken, Option.toList_some, List.length_singleton] at hsingle
    refine ⟨List.length_eq_zero_iff.mp (by omega), ?_⟩
    intro j hj hpop'
    exact not_takenBy_of_ne htaken hj ((orderly_taker h j).mpr hpop')
  inOrder := (orderly_sound h).inOrder
  marked := by
    intro hnone hfailed
    obtain ⟨q, htracks, -⟩ := orderly_free h hnone
    refine (htracks.scheduled.marked hfailed).trans ?_
    cases htaken : s.shared.taken with
    | none =>
        simp only [Shared.restored, htaken, Option.toList_none, List.map_nil, List.nil_append]
        refine (or_iff_left ?_).symm
        rintro ⟨i, hpop⟩
        exact not_takenBy_of_none htaken i ((orderly_taker h i).mpr hpop)
    | some taken =>
        obtain ⟨i, op⟩ := taken
        refine iff_of_true (by simp [Shared.restored, htaken]) (.inr ⟨i, ?_⟩)
        exact (orderly_taker h i).mp ⟨op, htaken⟩
  complete := by
    intro hnone hqueue
    obtain ⟨q, htracks, -⟩ := orderly_free h hnone
    rw [htracks.calls, ← Turnstile.started_of_queue_nil (htracks.queue_eq_nil.mp hqueue)]
    exact htracks.started
  goes_on _ := Mutex.goes_on h

/-- So it is whichever threads call `Send` or run the callbacks, in whatever order their
steps come. -/
theorem sends_serialised (es : List (Mutex.Event ι Work Transfer)) :
    Machine.Throughout (Mutex.step threads) Serialised
      (Mutex.State.init false (Shared.init : Shared ι Node)) es := by
  refine (Machine.throughout_of_step (I := Mutex.Orderly outline)
    (fun h hstep => Mutex.orderly_step h hstep) ?_ es).mono fun _ => orderly_serialised
  refine Mutex.orderly_init ⟨.empty, tracks_started, ?_⟩ ?_
  · intro i op htaken
    cases htaken
  · intro i
    exact ⟨.plain (by simp [Plain]), iff_of_false (not_takenBy_of_none rfl i) (by simp)⟩

/-- Without the mutex a message can be left behind: `Send` finds the queue busy, the node in
it is popped, and then `Send` pushes its own. -/
example :
    let code : Bool → Code FullDuplex.MsgNode := fun
      | false => [.act .check, .act (.push (.caller [66]) 1 0), .act (.write (.caller [66]) 1)]
      | true => [.act .pop, .act .next]
    let first : FullDuplex.MsgNode := ⟨0, [65]⟩
    let before : Shared Bool FullDuplex.MsgNode :=
      { session := { sendQueue := [first] }, history := ⟨[], [], false⟩, taken := none }
    ((Machine.exec (Mutex.step threads) ⟨none, fun i => ⟨code i, false⟩, before⟩
      [.runs false, .runs true, .runs true, .runs false, .runs false]).map fun s =>
        (s.shared.session.sendQueue, s.shared.session.writes))
      = some ([⟨0, [66]⟩], []) := rfl

end SendQueue

end CppNet.Duplex
