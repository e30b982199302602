import CppNet.SessionApi.Frame
import CppNet.SessionApi.Writer

/-!
# The pending flags

`recv_pending_` and `send_pending_` make a call return early: an operation is
taken to be outstanding whose callback goes on. The flags are set where an
operation is started by a call, so they stay true to the outstanding operations
as long as each callback that starts nothing clears its flag. Two exits do not:

- the last one of `ReadCallBack`, for a node that is full, clears
  `send_pending_` instead of `recv_pending_`;
- the error exit of `WriteCallBack` clears nothing.

Both theorems have the shape of `Machine.throughout_iff_along`: on each side an
invariant (`Reading`, `Writing`) says how flag and operations go together, every
other step keeps it, and the exit at fault leaves the flag set with nothing
outstanding.
-/

namespace CppNet.SessionApi

/-! ## The read flag -/

/-- `recv_pending_` tells whether a read is outstanding. -/
def ReadFlagged (s : CSession) : Prop := s.recvPending = true ↔ s.reads ≠ []

instance : DecidablePred ReadFlagged := fun _ => inferInstanceAs (Decidable (_ ↔ _))

/-- The next read call allocates a node and starts a read of all of it. -/
def StartsRead (s : CSession) : Prop :=
  ∀ memory : Bytes, memory.length = kRecvSize →
    ∀ t ∈ [s.readFromSocket memory, s.readAllFromSocket memory],
      t.recvNode = some (MsgNode.ofLen memory kRecvSize) ∧ t.reads = [⟨0, toSize kRecvSize⟩]

structure ReadsOn (s : CSession) : Prop where
  flagged : ReadFlagged s
  restarts : s.reads = [] → StartsRead s

/-- A read completion that fills `recv_node_`. -/
def FillsNode (s : CSession) : Event → Prop
  | .readDone _ _ bytes =>
      ∀ node ∈ s.recvNode, ¬ (node.advance bytes.length).curLen < node.totalLen
  | _ => False

inductive Reading (s : CSession) : Prop
  | idle (hpending : s.recvPending = false) (hreads : s.reads = [])
  | busy (op : ReadOp) (hpending : s.recvPending = true) (hreads : s.reads = [op])

theorem startsRead_of_idle {s : CSession} (hpending : s.recvPending = false)
    (hreads : s.reads = []) : StartsRead s := by
  intro memory _ t ht
  have hcall : t = s.readInto memory := by
    simpa [CSession.readFromSocket, CSession.readAllFromSocket] using ht
  rw [hcall, CSession.readInto, if_neg (by simp [hpending])]
  refine ⟨rfl, ?_⟩
  simp only [CSession.asyncReadSome, hreads, List.nil_append]
  rfl

theorem Reading.readsOn {s : CSession} (h : Reading s) : ReadsOn s := by
  cases h with
  | idle hpending hreads =>
      exact ⟨by simp [ReadFlagged, hpending, hreads],
        fun _ => startsRead_of_idle hpending hreads⟩
  | busy op hpending hreads =>
      refine ⟨by simp [ReadFlagged, hpending, hreads], fun hnone => ?_⟩
      rw [hreads] at hnone
      cases hnone

theorem reading_of_readSide {s t : CSession} (h : Reading s) (hside : t.readSide = s.readSide) :
    Reading t := by
  obtain ⟨-, hpending, hreads, -⟩ := CSession.readSide_eq hside
  cases h with
  | idle hp hr => exact .idle (hpending.trans hp) (hreads.trans hr)
  | busy op hp hr => exact .busy op (hpending.trans hp) (hreads.trans hr)

theorem reading_readInto {s : CSession} (h : Reading s) (memory : Bytes) :
    Reading (s.readInto memory) := by
  unfold CSession.readInto
  cases h with
  | idle hpending hreads =>
      rw [if_neg (by simp [hpending])]
      refine .busy ⟨0, toSize kRecvSize⟩ rfl ?_
      simp only [CSession.asyncReadSome, hreads, List.nil_append]
      rfl
  | busy op hpending hreads =>
      rw [if_pos hpending]
      exact .busy op hpending hreads

/-- A read completion goes on with the next read, or it fills the node and leaves
the flag set with no read outstanding. -/
theorem reading_readDone {s t : CSession} (h : Reading s) {i : Nat} {ec : Int} {bytes : Bytes}
    (hdone : s.readDone i ec bytes = some t) :
    (FillsNode s (.readDone i ec bytes) → t.recvPending = true ∧ t.reads = [])
      ∧ (¬ FillsNode s (.readDone i ec bytes) → Reading t) := by
  obtain ⟨op, node, hop, hnode, -, rfl⟩ := CSession.readDone_cases hdone
  cases h with
  | idle hpending hreads =>
      rw [hreads] at hop
      cases hop
  | busy op' hpending hreads =>
      have hnone := Machine.eraseIdx_only hreads hop
      simp only [FillsNode, hnode, Option.mem_some_iff, forall_eq', CSession.readCallBack]
      constructor
      · intro hfull
        have hfill : ¬ ((node.fill op.offset bytes).advance bytes.length).curLen
            < ((node.fill op.offset bytes).advance bytes.length).totalLen := hfull
        rw [if_neg hfill]
        exact ⟨hpending, hnone⟩
      · intro hmore
        have hfill : ((node.fill op.offset bytes).advance bytes.length).curLen
            < ((node.fill op.offset bytes).advance bytes.length).totalLen := not_not.mp hmore
        rw [if_pos hfill]
        refine .busy ⟨toSize (node.advance bytes.length).curLen,
          toSize (node.totalLen - (node.advance bytes.length).curLen)⟩ hpending ?_
        show s.reads.eraseIdx i ++ _ = _
        rw [hnone]
        rfl

/-- Every step but the one that fills the node keeps flag and reads together. -/
theorem reading_step {s t : CSession} {e : Event} (h : Reading s) (hfill : ¬ FillsNode s e)
    (hstep : step s e = some t) : Reading t := by
  cases hread : e.isRead with
  | false => exact reading_of_readSide h (framed_write hread hstep)
  | true =>
      rcases step_cases hstep with ⟨buf, rfl, -⟩ | ⟨buf, rfl | rfl, -⟩
        | ⟨memory, rfl | rfl, rfl⟩ | ⟨i, ec, n, rfl, -⟩ | ⟨i, ec, bytes, rfl, hdone⟩
      · cases hread
      · cases hread
      · cases hread
      · exact reading_readInto h memory
      · exact reading_readInto h memory
      · cases hread
      · exact (reading_readDone h hdone).2 hfill

theorem not_readsOn_of_fillsNode {s t : CSession} {e : Event} (h : Reading s)
    (hfill : FillsNode s e) (hstep : step s e = some t) : ¬ ReadsOn t := by
  intro hreads
  rcases step_cases hstep with ⟨buf, rfl, -⟩ | ⟨buf, rfl | rfl, -⟩
    | ⟨memory, rfl | rfl, -⟩ | ⟨i, ec, n, rfl, -⟩ | ⟨i, ec, bytes, rfl, hdone⟩
  · cases hfill
  · cases hfill
  · cases hfill
  · cases hfill
  · cases hfill
  · cases hfill
  · obtain ⟨hpending, hnone⟩ := (reading_readDone h hdone).1 hfill
    exact hreads.flagged.mp hpending hnone

/-- The flag tells whether a read is outstanding exactly in the runs where no read
completion fills `recv_node_`. -/
theorem readFlag_iff (es : List Event) :
    Machine.Throughout step ReadsOn {} es ↔
      Machine.Along step (fun s e => ¬ FillsNode s e) {} es := by
  refine Machine.throughout_iff_along Reading.readsOn reading_step ?_ (.idle rfl rfl)
  intro s e t h hfill hstep
  exact not_readsOn_of_fillsNode h (not_not.mp hfill) hstep

set_option maxRecDepth 16000 in
/-- One receive of 1024 bytes. -/
theorem readFlag_stuck :
    ¬ Machine.Throughout step ReadsOn {}
      [.readFromSocket (List.replicate 1024 0), .readDone 0 0 (List.replicate 1024 0)] := by
  intro h
  exact absurd (h.mono fun _ => ReadsOn.flagged) (by decide)

/-! ## The write flag -/

/-- If `send_pending_` is set, a write is outstanding whose callback goes on with
the queue. -/
def Attended (s : CSession) : Prop :=
  s.sendPending = true → ∃ op ∈ s.writes, op.callback = .writeCallBack

instance : DecidablePred Attended := fun _ => inferInstanceAs (Decidable (_ → _))

inductive Writing (s : CSession) : Prop
  | idle (hqueue : s.sendQueue = []) (hpending : s.sendPending = false)
      (hwrites : s.writes = [])
  | busy (op : WriteOp) (hqueue : s.sendQueue ≠ []) (hpending : s.sendPending = true)
      (hwrites : s.writes = [op]) (hcallback : op.callback = .writeCallBack)

theorem Writing.attended {s : CSession} (h : Writing s) : Attended s := by
  intro hset
  cases h with
  | idle hqueue hpending hwrites =>
      rw [hpending] at hset
      cases hset
  | busy op hqueue hpending hwrites hcallback =>
      exact ⟨op, by simp [hwrites], hcallback⟩

theorem writing_writeQueued {s : CSession} (h : Writing s) (buf : Bytes) :
    Writing (CSession.writeQueued CSession.asyncWriteSome s buf) := by
  unfold CSession.writeQueued
  split
  · exact h
  · cases h with
    | idle hqueue hpending hwrites =>
        rw [if_neg (by simp [hpending])]
        refine .busy ⟨.caller, 0, buf, .writeCallBack⟩ ?_ rfl ?_ rfl
        · simp [CSession.asyncWriteSome]
        · simp only [CSession.asyncWriteSome, hwrites, List.nil_append]
    | busy op hqueue hpending hwrites hcallback =>
        rw [if_pos hpending]
        exact .busy op (by simp) hpending hwrites hcallback

/-- A successful write goes on with its message, with the next one, or clears the
flag behind the last one. -/
theorem writing_writeCallBack {s : CSession} (hqueue : s.sendQueue ≠ [])
    (hpending : s.sendPending = true) (hwrites : s.writes = []) (n : Nat) :
    Writing (s.writeCallBack 0 n) := by
  obtain ⟨front, rest, hcons⟩ := List.exists_cons_of_ne_nil hqueue
  simp only [CSession.writeCallBack, ne_eq, not_true_eq_false, if_false, hcons]
  split
  · have hone := congrArg (· ++ [WriteOp.mk (.queueNode (front.advance n).addr)
      (front.advance n).curLen (front.advance n).unsent .writeCallBack]) hwrites
    exact .busy _ (List.cons_ne_nil _ _) hpending hone rfl
  · cases rest with
    | nil => exact .idle rfl rfl hwrites
    | cons next rest =>
        have hone := congrArg
          (· ++ [WriteOp.mk (.queueNode next.addr) 0 next.whole .writeCallBack]) hwrites
        exact .busy _ (List.cons_ne_nil _ _) hpending hone rfl

/-- A write completion keeps flag and writes together unless it fails; a failed one
leaves the flag set with no write outstanding. -/
theorem writing_writeDone {s t : CSession} (h : Writing s) {i : Nat} {ec : Int} {n : Nat}
    (hdone : s.writeDone i ec n = some t) :
    (ec = 0 → Writing t) ∧ (ec ≠ 0 → t.sendPending = true ∧ t.writes = []) := by
  obtain ⟨op, hop, -, rfl⟩ := CSession.writeDone_cases hdone
  cases h with
  | idle hqueue hpending hwrites =>
      rw [hwrites] at hop
      cases hop
  | busy op' hqueue hpending hwrites hcallback =>
      obtain ⟨-, rfl⟩ := Machine.eq_only hwrites hop
      rw [hcallback, Machine.eraseIdx_only hwrites hop, CSession.call]
      constructor
      · rintro rfl
        refine writing_writeCallBack ?_ ?_ rfl n
        · exact hqueue
        · exact hpending
      · intro hec
        rw [CSession.writeCallBack, if_pos hec]
        exact ⟨hpending, rfl⟩

theorem writing_step {s t : CSession} {e : Event} (hwrite : e.IsQueuedWrite) (h : Writing s)
    (hok : ¬ e.Fails) (hstep : step s e = some t) : Writing t := by
  rcases step_cases hstep with ⟨buf, rfl, -⟩ | ⟨buf, rfl | rfl, ht⟩
    | ⟨memory, rfl | rfl, -⟩ | ⟨i, ec, n, rfl, hdone⟩ | ⟨i, ec, bytes, rfl, -⟩
  · cases hwrite
  · rw [ht]
    exact writing_writeQueued h buf
  · rw [ht]
    exact writing_writeQueued h buf
  · cases hwrite
  · cases hwrite
  · exact (writing_writeDone h hdone).1 (not_not.mp hok)
  · cases hwrite

theorem not_attended_of_fails {s t : CSession} {e : Event} (hwrite : e.IsQueuedWrite)
    (h : Writing s) (hfails : e.Fails) (hstep : step s e = some t) : ¬ Attended t := by
  intro hattended
  rcases step_cases hstep with ⟨buf, rfl, -⟩ | ⟨buf, rfl | rfl, -⟩
    | ⟨memory, rfl | rfl, -⟩ | ⟨i, ec, n, rfl, hdone⟩ | ⟨i, ec, bytes, rfl, -⟩
  · cases hwrite
  · cases hfails
  · cases hfails
  · cases hwrite
  · cases hwrite
  · obtain ⟨hpending, hnone⟩ := (writing_writeDone h hdone).2 hfails
    obtain ⟨op, hop, -⟩ := hattended hpending
    rw [hnone] at hop
    cases hop
  · cases hwrite

/-- In the runs of the queued writer a set flag means an outstanding write exactly
as long as no write completion fails. -/
theorem attended_iff {es : List Event} (hwrite : ∀ e ∈ es, e.IsQueuedWrite) :
    Machine.Throughout step Attended {} es ↔
      Machine.Along step (fun _ e => ¬ e.Fails) {} es := by
  refine Machine.throughout_iff_along_on Writing.attended writing_step ?_ hwrite
    (.idle rfl rfl rfl)
  intro s e t hqueued h hfails hstep
  exact not_attended_of_fails hqueued h (not_not.mp hfails) hstep

/-- `"Hi"` in two pieces, a second string in between. -/
theorem attended_pieces :
    Machine.Throughout step Attended {}
      [.writeToSocket [72, 105], .writeDone 0 0 1, .writeAllToSocket [33], .writeDone 0 0 1,
        .writeDone 0 0 1] :=
  (attended_iff (by simp [Event.IsQueuedWrite])).mpr
    (Machine.along_of_forall (by simp [Event.Fails]) _)

/-- The write of `"H"` fails, and `"i"` is stranded. -/
theorem attended_stranded :
    ¬ Machine.Throughout step Attended {}
      [.writeToSocket [72], .writeDone 0 1 0, .writeToSocket [105]] := by
  decide

end CppNet.SessionApi
