import CppNet.Lib.Turnstile
import CppNet.Duplex.Model
import Mathlib.Data.List.Forall2

/-!
# The send queue is a turnstile

`CSession` has no flag for a write in progress: `Send` looks whether the queue
is empty before it pushes its node, `HandleWrite` looks again after its pop. The
queue is a turnstile whose jobs are the calls of `Send` (`Tracks`): the front is
the call a write is outstanding for, or the one whose write failed.

Which calls were made and which writes were started is kept in a `History`
beside the session. Every event, whatever its outcome, is matched by moves of
the turnstile (`simulates_schedule`), so writes are started one at a time and
in the order of the calls (`writes_in_send_order`).
-/

namespace CppNet.Duplex

/-- A call of `Send`: the array it was given, and the node it pushed. -/
structure Call (Node : Type) where
  msg : Ptr Node
  node : Node
deriving Repr, DecidableEq

/-- A write for the call takes its bytes from one of the two. -/
def Call.Writes {Node : Type} (call : Call Node) (ptr : Ptr Node) : Prop :=
  ptr = call.msg ∨ ptr = .node call.node

/-- The calls of `Send` so far, the arrays of the writes started so far, and whether
a write has failed. -/
structure History (Node : Type) where
  calls : List (Call Node)
  started : List (Ptr Node)
  failed : Bool
deriving Repr, DecidableEq

section Schedule

variable {Node : Type}

/-- The call of `Send` a step makes. -/
def callOf [MessageNode Node] (s : CSession Node) : Event → List (Call Node)
  | .send msg uninitialised =>
      [⟨.caller msg, MessageNode.make msg msg.length uninitialised⟩]
  | .completion (.readDone false bytes uninitialised _) =>
      [⟨.data, MessageNode.make ((s.fill bytes).mem .data) (toInt bytes.length)
        uninitialised⟩]
  | _ => []

/-- The arrays of the writes started between `s` and `t`: each start adds one entry to
`handed` and one write behind the others. -/
def startedBy (s t : CSession Node) : List (Ptr Node) :=
  t.ptrs.drop (t.ptrs.length - (t.handed.length - s.handed.length))

def Event.writeFails : Event → Bool
  | .completion (.writeDone _ error) => error
  | _ => false

def note [MessageNode Node] (s : CSession Node) (e : Event) (t : CSession Node) (h : History Node) :
    History Node where
  calls := h.calls ++ callOf s e
  started := h.started ++ startedBy s t
  failed := h.failed || e.writeFails

/-- A session with its history. -/
def recorded [MessageNode Node] :
    CSession Node × History Node → Event → Option (CSession Node × History Node) :=
  Machine.record step note

/-- Writes are started one at a time and for the calls of `Send` in order, and a call
stays in the queue until its write is completed, so none is skipped; until a write
fails, the queue tells whether one is outstanding and its front is the node of the call
the write is for. -/
structure Scheduled (s : CSession Node) (h : History Node) : Prop where
  exclusive : s.writes.length ≤ 1
  sound : s.broken = false
  inOrder : List.Forall₂ Call.Writes (h.calls.take h.started.length) h.started
  queued : s.sendQueue =
    (h.calls.drop (h.started.length - if h.failed then 1 else s.writes.length)).map Call.node
  complete : s.sendQueue = [] → List.Forall₂ Call.Writes h.calls h.started
  marked : h.failed = false → (s.sendQueue ≠ [] ↔ s.writes ≠ [])
  front : h.failed = false → ∀ op ∈ s.writes, h.started.getLast? = some op.ptr ∧
    ∃ call, h.calls[h.started.length - 1]? = some call
      ∧ s.sendQueue.head? = some call.node

/-! ## The relation -/

/-- What is outstanding: nothing, and the queue is empty; the write for the front; or
nothing any more. -/
inductive Turn (s : CSession Node) (h : History Node) (q : Turnstile (Call Node)) : Prop
  | idle (hqueue : q.queue = []) (hptrs : s.ptrs = [])
  | busy (ptr : Ptr Node) (hqueue : q.queue ≠ []) (hhalted : q.halted = false)
      (hptrs : s.ptrs = [ptr]) (hlast : h.started.getLast? = some ptr)
  | stopped (hqueue : q.queue ≠ []) (hhalted : q.halted = true) (hptrs : s.ptrs = [])

structure Tracks (s : CSession Node) (h : History Node) (q : Turnstile (Call Node)) :
    Prop where
  sound : s.broken = false
  calls : h.calls = q.submitted
  started : List.Forall₂ Call.Writes q.started h.started
  queue : s.sendQueue = q.queue.map Call.node
  failed : h.failed = q.halted
  turn : Turn s h q

theorem tracks_started : Tracks (CSession.started : CSession Node) ⟨[], [], false⟩ .empty where
  sound := rfl
  calls := rfl
  started := .nil
  queue := rfl
  failed := rfl
  turn := .idle rfl rfl

variable {s t : CSession Node} {h : History Node} {q : Turnstile (Call Node)}

theorem Tracks.queue_eq_nil (hm : Tracks s h q) : s.sendQueue = [] ↔ q.queue = [] := by
  rw [hm.queue, List.map_eq_nil_iff]

theorem Tracks.scheduled (hm : Tracks s h q) : Scheduled s h := by
  have hlength : h.started.length = q.started.length := (List.Forall₂.length_eq hm.started).symm
  have hwrites : s.writes.length = s.ptrs.length := by
    rw [CSession.ptrs, List.length_map]
  refine ⟨?_, hm.sound, ?_, ?_, ?_, ?_, ?_⟩
  · cases hm.turn with
    | idle hqueue hptrs => simp [hwrites, hptrs]
    | busy ptr hqueue hhalted hptrs hlast => simp [hwrites, hptrs]
    | stopped hqueue hhalted hptrs => simp [hwrites, hptrs]
  · rw [hm.calls, hlength, q.take_started_length]
    exact hm.started
  · rw [hm.queue, hm.calls, hm.failed, hlength, hwrites]
    cases hm.turn with
    | idle hqueue hptrs =>
        rw [Turnstile.not_halted_of_queue_nil hqueue, Turnstile.started_of_queue_nil hqueue,
          hqueue, hptrs]
        simp
    | busy ptr hqueue hhalted hptrs hlast =>
        rw [hhalted, Turnstile.started_length hqueue, hptrs]
        rfl
    | stopped hqueue hhalted hptrs =>
        rw [hhalted, Turnstile.started_length hqueue]
        rfl
  · intro hnone
    rw [hm.calls, ← Turnstile.started_of_queue_nil (hm.queue_eq_nil.mp hnone)]
    exact hm.started
  · intro hfailed
    rw [Ne, hm.queue_eq_nil, ← List.length_pos_iff, hwrites]
    cases hm.turn with
    | idle hqueue hptrs => simp [hqueue, hptrs]
    | busy ptr hqueue hhalted hptrs hlast => simp [hqueue, hptrs]
    | stopped hqueue hhalted hptrs =>
        rw [hm.failed, hhalted] at hfailed
        cases hfailed
  · intro hfailed op hop
    have hptr : op.ptr ∈ s.ptrs := List.mem_map_of_mem hop
    cases hm.turn with
    | idle hqueue hptrs =>
        rw [hptrs] at hptr
        cases hptr
    | stopped hqueue hhalted hptrs =>
        rw [hm.failed, hhalted] at hfailed
        cases hfailed
    | busy ptr hqueue hhalted hptrs hlast =>
        rw [hptrs, List.mem_singleton] at hptr
        obtain ⟨call, rest, hcons⟩ := List.exists_cons_of_ne_nil hqueue
        refine ⟨by rw [hlast, hptr], call, ?_, ?_⟩
        · rw [hm.calls, hlength, ← Turnstile.queue_head? hqueue, hcons]
          rfl
        · rw [hm.queue, hcons]
          rfl

/-- Only the queue and the outstanding writes count. -/
theorem Tracks.congr (hm : Tracks s h q) (hbroken : t.broken = s.broken)
    (hqueue : t.sendQueue = s.sendQueue) (hptrs : t.ptrs = s.ptrs) : Tracks t h q where
  sound := hbroken.trans hm.sound
  calls := hm.calls
  started := hm.started
  queue := hqueue.trans hm.queue
  failed := hm.failed
  turn := by
    cases hm.turn with
    | idle hidle hnone => exact .idle hidle (hptrs.trans hnone)
    | busy ptr hbusy hhalted hone hlast =>
        exact .busy ptr hbusy hhalted (hptrs.trans hone) hlast
    | stopped hbusy hhalted hnone => exact .stopped hbusy hhalted (hptrs.trans hnone)

/-- A completed write is the one for the front. -/
theorem Tracks.busy_of_write (hm : Tracks s h q) {index : Nat} {op : WriteOp Node}
    (hop : s.writes[index]? = some op) :
    ∃ front rest, q.queue = front :: rest ∧ q.halted = false
      ∧ s.writes.eraseIdx index = [] := by
  have hnil : s.ptrs ≠ [] := by
    intro hnone
    rw [List.map_eq_nil_iff.mp hnone] at hop
    cases hop
  cases hm.turn with
  | idle hqueue hptrs => exact (hnil hptrs).elim
  | stopped hqueue hhalted hptrs => exact (hnil hptrs).elim
  | busy ptr hqueue hhalted hptrs hlast =>
      obtain ⟨front, rest, hcons⟩ := List.exists_cons_of_ne_nil hqueue
      refine ⟨front, rest, hcons, hhalted, ?_⟩
      obtain ⟨op', hwrites, -⟩ := List.map_eq_singleton_iff.mp hptrs
      exact Machine.eraseIdx_only hwrites hop

/-! ## Started writes -/

theorem startedBy_of_same (hhanded : t.handed.length = s.handed.length) :
    startedBy s t = [] := by
  rw [startedBy, hhanded, Nat.sub_self, Nat.sub_zero, List.drop_length]

theorem startedBy_of_next {ptrs : List (Ptr Node)} {ptr : Ptr Node}
    (hptrs : t.ptrs = ptrs ++ [ptr]) (hhanded : t.handed.length = s.handed.length + 1) :
    startedBy s t = [ptr] := by
  rw [startedBy, hptrs, hhanded, Nat.add_sub_cancel_left, List.length_append,
    List.length_singleton, Nat.add_sub_cancel, List.drop_left]

variable [MessageNode Node]

theorem note_of_silent {e : Event} (hcall : callOf s e = [])
    (hhanded : t.handed.length = s.handed.length) (hfails : e.writeFails = false) :
    note s e t h = h := by
  rw [note, hcall, startedBy_of_same hhanded, hfails, List.append_nil, List.append_nil,
    Bool.or_false]

/-! ## Calls -/

theorem asyncWrite_ptrs (s : CSession Node) (ptr : Ptr Node) (size : Nat) :
    (s.asyncWrite ptr size).ptrs = s.ptrs ++ [ptr] := by
  simp only [CSession.ptrs, CSession.asyncWrite, List.map_append, List.map_cons, List.map_nil]

theorem asyncWrite_handed_length (s : CSession Node) (ptr : Ptr Node) (size : Nat) :
    (s.asyncWrite ptr size).handed.length = s.handed.length + 1 := by
  simp only [CSession.asyncWrite, List.length_append, List.length_singleton]

/-- `Send` submits its call: it starts the write if the queue was empty. -/
theorem tracks_send (hm : Tracks s h q) (msg : Ptr Node) (n uninitialised : Int) :
    Tracks (s.send msg n uninitialised)
      { h with
        calls := h.calls ++ [⟨msg, MessageNode.make (s.mem msg) n uninitialised⟩]
        started := h.started ++ startedBy s (s.send msg n uninitialised) }
      (q.submit ⟨msg, MessageNode.make (s.mem msg) n uninitialised⟩) := by
  have hbusy : (q.submit ⟨msg, MessageNode.make (s.mem msg) n uninitialised⟩).queue ≠ [] := by
    simp [Turnstile.submit_queue]
  by_cases hidle : q.queue = []
  · have hqueue : s.sendQueue = [] := hm.queue_eq_nil.mpr hidle
    have hnone : s.ptrs = [] := by
      cases hm.turn with
      | idle _ hptrs => exact hptrs
      | busy ptr hne => exact (hne hidle).elim
      | stopped hne => exact (hne hidle).elim
    rw [CSession.send_of_idle hqueue]
    have hstarts : startedBy s (CSession.asyncWrite { s with
        sendQueue := [MessageNode.make (s.mem msg) n uninitialised]
        sent := s.sent ++ [(s.mem msg).take (toSize n)] } msg (toSize n)) = [msg] :=
      startedBy_of_next (asyncWrite_ptrs _ _ _) (asyncWrite_handed_length _ _ _)
    have hhalted : q.halted = false := Turnstile.not_halted_of_queue_nil hidle
    rw [hstarts]
    refine ⟨hm.sound, by rw [hm.calls]; rfl, ?_, ?_, hm.failed,
      .busy msg hbusy hhalted ?_ (by simp)⟩
    · rw [Turnstile.submit_started_of_idle hidle]
      exact List.rel_append hm.started (.cons (.inl rfl) .nil)
    · rw [Turnstile.submit_queue, hidle]
      rfl
    · rw [asyncWrite_ptrs]
      show s.ptrs ++ [msg] = [msg]
      rw [hnone, List.nil_append]
  · have hqueue : s.sendQueue ≠ [] := fun hnil => hidle (hm.queue_eq_nil.mp hnil)
    rw [CSession.send_of_pending hqueue]
    have hstarts : startedBy s { s with
        sendQueue := s.sendQueue ++ [MessageNode.make (s.mem msg) n uninitialised]
        sent := s.sent ++ [(s.mem msg).take (toSize n)] } = [] := startedBy_of_same rfl
    rw [hstarts, List.append_nil]
    refine ⟨hm.sound, by rw [hm.calls]; rfl, ?_, ?_, hm.failed, ?_⟩
    · rw [Turnstile.submit_started_of_busy hidle]
      exact hm.started
    · rw [Turnstile.submit_queue, List.map_append, hm.queue]
      rfl
    · cases hm.turn with
      | idle hnil => exact (hidle hnil).elim
      | busy ptr _ hhalted hptrs hlast => exact .busy ptr hbusy hhalted hptrs hlast
      | stopped _ hhalted hptrs => exact .stopped hbusy hhalted hptrs

/-! ## Completions -/

/-- A successful write finishes the job at the front and starts the next one. -/
theorem tracks_writeDone (hm : Tracks s h q) {index : Nat} {r : CSession Node × Bool}
    (hdone : s.complete (.writeDone index false) = some r) :
    ∃ q', Relation.ReflTransGen Turnstile.Step q q'
      ∧ Tracks r.1 { h with started := h.started ++ startedBy s r.1 } q' := by
  obtain ⟨op, hop, -, rfl⟩ := CSession.writeDone_cases hdone
  obtain ⟨front, rest, hcons, hhalted, hnone⟩ := hm.busy_of_write hop
  have hbusy : q.queue ≠ [] := by
    rw [hcons]
    exact List.cons_ne_nil _ _
  have hsend : s.sendQueue = front.node :: rest.map Call.node := by
    rw [hm.queue, hcons, List.map_cons]
  have hqueue' : (q.finish hbusy hhalted).queue = rest := by
    rw [Turnstile.finish_queue, hcons, List.tail_cons]
  have hstarted' : (q.finish hbusy hhalted).started = q.started ++ rest.head?.toList := by
    rw [Turnstile.finish_started, hcons, List.tail_cons]
  refine ⟨q.finish hbusy hhalted, .single (.finish q hbusy hhalted), ?_⟩
  simp only [CSession.handleWrite, Bool.false_eq_true, if_false, hsend, hnone]
  cases rest with
  | nil =>
      simp only [List.map_nil]
      have hstarts : startedBy s { s with sendQueue := [], writes := [] } = [] :=
        startedBy_of_same rfl
      rw [hstarts, List.append_nil]
      refine ⟨hm.sound, hm.calls, ?_, ?_, hm.failed, .idle hqueue' rfl⟩
      · rw [hstarted']
        exact (List.append_nil q.started).symm ▸ hm.started
      · rw [hqueue']
        rfl
  | cons next rest =>
      simp only [List.map_cons]
      have hstarts : startedBy s (CSession.asyncWrite
          { s with sendQueue := next.node :: rest.map Call.node, writes := [] }
          (.node next.node) (toSize (MessageNode.maxLen next.node))) = [.node next.node] :=
        startedBy_of_next (asyncWrite_ptrs _ _ _) (asyncWrite_handed_length _ _ _)
      rw [hstarts]
      refine ⟨hm.sound, hm.calls, ?_, ?_, hm.failed,
        .busy (.node next.node) ?_ hhalted (asyncWrite_ptrs _ _ _) (by simp)⟩
      · rw [hstarted']
        exact List.rel_append hm.started (.cons (.inr rfl) .nil)
      · rw [hqueue']
        rfl
      · rw [hqueue']
        exact List.cons_ne_nil _ _

/-- A failed write halts the turnstile. -/
theorem tracks_writeFailed (hm : Tracks s h q) {index : Nat} {r : CSession Node × Bool}
    (hdone : s.complete (.writeDone index true) = some r) :
    startedBy s r.1 = [] ∧ ∃ q', Relation.ReflTransGen Turnstile.Step q q'
      ∧ Tracks r.1 { h with failed := true } q' := by
  obtain ⟨op, hop, -, rfl⟩ := CSession.writeDone_cases hdone
  obtain ⟨front, rest, hcons, hhalted, hnone⟩ := hm.busy_of_write hop
  have hbusy : q.queue ≠ [] := by
    rw [hcons]
    exact List.cons_ne_nil _ _
  refine ⟨startedBy_of_same rfl, q.halt hbusy, .single (.halt q hbusy), hm.sound, hm.calls,
    hm.started, hm.queue, rfl, .stopped hbusy rfl ?_⟩
  exact List.map_eq_nil_iff.mpr hnone

/-- A read completion, with or without an error. -/
theorem tracks_readDone (hm : Tracks s h q) {error : Bool} {bytes : Bytes}
    {uninitialised : Int} {window : Option Transfer} {r : CSession Node × Bool}
    (hdone : s.complete (.readDone error bytes uninitialised window) = some r) :
    ∃ q', Relation.ReflTransGen Turnstile.Step q q' ∧ Tracks r.1
      (note s (.completion (.readDone error bytes uninitialised window)) r.1 h) q' := by
  cases error with
  | true =>
      obtain ⟨-, rfl⟩ := CSession.readFailed_cases hdone
      have hsilent : note s (.completion (.readDone true bytes uninitialised window))
          (s.fill bytes) h = h := note_of_silent rfl rfl rfl
      refine ⟨q, .refl, ?_⟩
      rw [hsilent]
      exact hm.congr rfl rfl rfl
  | false =>
      obtain ⟨t, -, hwindow, rfl⟩ := CSession.readDone_cases hdone
      have hmoved := CSession.inWindow_moved hwindow
      have hfill : Tracks (s.fill bytes) h q := hm.congr rfl rfl rfl
      have hsend := tracks_send hfill .data (toInt bytes.length) uninitialised
      refine ⟨_, .single (.submit q ⟨.data,
        MessageNode.make ((s.fill bytes).mem .data) (toInt bytes.length) uninitialised⟩), ?_⟩
      -- clearing `data_` and starting a read leave queue and writes as they are
      have hstarts : startedBy s (CSession.asyncReadSome
            { t with data := List.replicate maxLength 0 })
          = startedBy (s.fill bytes)
              ((s.fill bytes).send .data (toInt bytes.length) uninitialised) := by
        rw [startedBy, startedBy, ← hmoved.ptrs, ← hmoved.handed]
        rfl
      rw [note, hstarts]
      simp only [callOf, Event.writeFails, Bool.or_false]
      exact hsend.congr hmoved.broken hmoved.sendQueue hmoved.ptrs

/-! ## Runs -/

theorem simulates_schedule :
    Machine.Simulates recorded (fun _ _ => True)
      (fun (x : CSession Node × History Node) q => Tracks x.1 x.2 q) Turnstile.Step := by
  rintro ⟨s, h⟩ e y q - hm hstep
  obtain ⟨t, ht, rfl⟩ := Machine.record_eq_some.mp hstep
  rcases step_cases ht with ⟨msg, uninitialised, rfl, -, rfl⟩ | ⟨c, r, rfl, hr, rfl⟩
  · have hsend := tracks_send hm (.caller msg) msg.length uninitialised
    refine ⟨_, .single (.submit q ⟨.caller msg, MessageNode.make msg msg.length uninitialised⟩),
      ?_⟩
    simp only [note, callOf, Event.writeFails, Bool.or_false]
    exact hsend
  · cases c with
    | readDone error bytes uninitialised window => exact tracks_readDone hm hr
    | transfer x =>
        obtain ⟨t, hx, rfl⟩ := Option.map_eq_some_iff.mp hr
        have hmoved := CSession.transfer_moved hx
        rw [note_of_silent rfl (congrArg List.length hmoved.handed) rfl]
        exact ⟨q, .refl, hm.congr hmoved.broken hmoved.sendQueue hmoved.ptrs⟩
    | writeDone index error =>
        simp only [note, callOf, List.append_nil, Event.writeFails]
        cases error with
        | false =>
            rw [Bool.or_false]
            exact tracks_writeDone hm hr
        | true =>
            obtain ⟨hstarts, hhalt⟩ := tracks_writeFailed hm hr
            rw [hstarts, List.append_nil, Bool.or_true]
            exact hhalt

/-- In every run of a session, writes are scheduled in the order of the calls of
`Send`, one at a time. -/
theorem writes_in_send_order (es : List Event) :
    Machine.Throughout recorded (fun x : CSession Node × History Node => Scheduled x.1 x.2)
      (CSession.started, ⟨[], [], false⟩) es := by
  refine (Machine.refines_throughout
    (R := fun (x : CSession Node × History Node) q => Tracks x.1 x.2 q) simulates_schedule
    (Machine.along_of_forall (fun _ _ _ => trivial) _) tracks_started).mono ?_
  rintro x ⟨q, -, hm⟩
  exact hm.scheduled

/-- `"B"` waits until `"A"` is out, and is written from its node. -/
theorem writes_in_send_order_waits :
    let es : List Event := [.send [65] 1, .send [66] 1, .completion (.transfer ⟨0, 1, []⟩),
      .completion (.writeDone 0 false)]
    ∃ x : CSession FullDuplex.MsgNode × History FullDuplex.MsgNode,
      Machine.exec recorded (CSession.started, ⟨[], [], false⟩) es = some x
        ∧ x.2.started = [.caller [65], .node ⟨1, [66]⟩] ∧ Scheduled x.1 x.2 := by
  intro es
  obtain ⟨x, hrun, hstarted⟩ : ∃ x : CSession FullDuplex.MsgNode × History FullDuplex.MsgNode,
      Machine.exec recorded (CSession.started, ⟨[], [], false⟩) es = some x
        ∧ x.2.started = [.caller [65], .node ⟨1, [66]⟩] := ⟨_, rfl, rfl⟩
  exact ⟨x, hrun, hstarted, (writes_in_send_order es).last hrun⟩

end Schedule

end CppNet.Duplex
