import CppNet.SessionApi.Writer

/-!
# The buffers of the queued writer

`WriteCallBack` starts its writes from the `msg_` of the front node, which lives as
long as the write does. `WriteToSocket` and `WriteAllToSocket`, when they find no
write pending, start theirs from the argument of the call, although they have just
made a node of it. So the buffer of an outstanding write lies in the front node
exactly if the write was not started by a call (`owned_iff`). Which of the two it was
is kept beside the session.

Strings of any length are allowed. The node of one that has 2^32 bytes or more holds
a part of it, and a completion of the write that its call starts can report more than
that part, up to a `cur_len_` that is negative; what is then started does not lie in
the node either. With shorter strings the offset of a write is the cursor of the outbox
the session models, and never negative.
-/

namespace CppNet.SessionApi

/-! ## Who started the write -/

/-- Whether the last write was started by a call and is still outstanding. -/
def noteCall (s : CSession) (e : Event) (_ : CSession) (byCall : Bool) : Bool :=
  match e with
  | .writeToSocket buf | .writeAllToSocket buf =>
      byCall || (!s.sendPending && decide (0 ≤ toInt buf.length))
  | .writeDone .. => false
  | _ => byCall

/-- The session with the record of who started its write. -/
def startedByCall : CSession × Bool → Event → Option (CSession × Bool) :=
  Machine.record step noteCall

/-! ## Where the buffer lies -/

/-- The buffer is the part of `msg_` of the node from `cur_len_` to `total_len_`. -/
structure InNode (op : WriteOp) (node : MsgNode) : Prop where
  source : op.source = .queueNode node.addr
  offset : op.offset = node.curLen
  bytes : op.bytes = node.msg.drop (toSize node.curLen)
  fromStart : 0 ≤ node.curLen
  toEnd : node.curLen + op.bytes.length = node.totalLen
  whole : node.totalLen = node.msg.length

/-- The buffer of every outstanding write lies in the front node. -/
def Owned (s : CSession) : Prop :=
  ∀ op ∈ s.writes, ∃ front ∈ s.sendQueue.head?, InNode op front

/-- The nodes are whole, and only the front one has been begun. -/
structure Queued (queue : List MsgNode) : Prop where
  nodes : ∀ node ∈ queue, node.WellFormed
  back : ∀ node ∈ queue.tail, node.curLen = 0

/-- What is outstanding: nothing, and nothing waits; a write of the argument of a call; one
that goes on with the front node; or nothing any more, since a write failed. -/
inductive Sources (s : CSession) : Bool → Prop
  | idle (hqueue : s.sendQueue = []) (hpending : s.sendPending = false)
      (hwrites : s.writes = []) : Sources s false
  | called (front : MsgNode) (rest : List MsgNode) (op : WriteOp)
      (hqueue : s.sendQueue = front :: rest) (hpending : s.sendPending = true)
      (hwrites : s.writes = [op]) (hcallback : op.callback = .writeCallBack)
      (hsource : op.source = .caller) : Sources s true
  | continued (front : MsgNode) (rest : List MsgNode) (op : WriteOp)
      (hqueue : s.sendQueue = front :: rest) (hpending : s.sendPending = true)
      (hwrites : s.writes = [op]) (hcallback : op.callback = .writeCallBack)
      (hsource : op.source = .queueNode front.addr) (hoffset : op.offset = front.curLen)
      (hbytes : op.bytes = front.unsent) (hle : front.curLen ≤ front.totalLen) :
      Sources s false
  | stopped (hpending : s.sendPending = true) (hwrites : s.writes = []) : Sources s false

/-- The unsent part of a node lies in it, unless it begins in front of it. -/
theorem inNode_iff {node : MsgNode} (hwell : node.WellFormed) {op : WriteOp}
    (hsource : op.source = .queueNode node.addr) (hoffset : op.offset = node.curLen)
    (hbytes : op.bytes = node.unsent) (hle : node.curLen ≤ node.totalLen) :
    InNode op node ↔ 0 ≤ op.offset := by
  constructor
  · intro h
    rw [hoffset]
    exact h.fromStart
  · intro hpos
    rw [hoffset] at hpos
    have htotal := hwell.totalLen_eq
    have hlength := hwell.length_lt
    obtain ⟨cursor, hcur⟩ := Int.eq_ofNat_of_zero_le hpos
    have hcursor : toSize node.curLen = cursor := by
      rw [hcur, toSize_natCast (by omega)]
    have hdrop : op.bytes = node.msg.drop (toSize node.curLen) := by
      rw [hbytes, hwell.unsent_eq hcur (by omega), hcursor]
    refine ⟨hsource, hoffset, hdrop, hpos, ?_, htotal⟩
    rw [hdrop, hcursor, List.length_drop]
    omega

theorem Sources.owned_iff_offset {s : CSession} {byCall : Bool} (h : Sources s byCall)
    (hqueued : Queued s.sendQueue) :
    Owned s ↔ byCall = false ∧ ∀ op ∈ s.writes, 0 ≤ op.offset := by
  unfold Owned
  cases h with
  | idle hqueue hpending hwrites => simp [hwrites]
  | stopped hpending hwrites => simp [hwrites]
  | called front rest op hqueue hpending hwrites hcallback hsource =>
      refine iff_of_false (fun howned => ?_) (by simp)
      obtain ⟨node, -, hnode⟩ := howned op (by simp [hwrites])
      rw [hnode.source] at hsource
      cases hsource
  | continued front rest op hqueue hpending hwrites hcallback hsource hoffset hbytes hle =>
      have hwell : front.WellFormed := hqueued.nodes front (by simp [hqueue])
      simp [hwrites, hqueue, inNode_iff hwell hsource hoffset hbytes hle]

/-! ## Calls -/

theorem queued_push {queue : List MsgNode} (h : Queued queue) {node : MsgNode}
    (hwell : node.WellFormed) (hcur : node.curLen = 0) : Queued (queue ++ [node]) := by
  constructor
  · intro other hother
    rcases List.mem_append.mp hother with hold | hnew
    · exact h.nodes other hold
    · obtain rfl := List.mem_singleton.mp hnew
      exact hwell
  · intro other hother
    cases queue with
    | nil => cases hother
    | cons front rest =>
        rcases List.mem_append.mp hother with hold | hnew
        · exact h.back other hold
        · obtain rfl := List.mem_singleton.mp hnew
          exact hcur

theorem sources_writeQueued {s : CSession} {byCall : Bool} (h : Sources s byCall)
    (hqueued : Queued s.sendQueue) (buf : Bytes) :
    Queued (CSession.writeQueued CSession.asyncWriteSome s buf).sendQueue
      ∧ Sources (CSession.writeQueued CSession.asyncWriteSome s buf)
        (byCall || (!s.sendPending && decide (0 ≤ toInt buf.length))) := by
  unfold CSession.writeQueued
  by_cases hthrows : toInt buf.length < 0
  · rw [if_pos hthrows, decide_eq_false (by omega), Bool.and_false, Bool.or_false]
    exact ⟨hqueued, h⟩
  have hsize : 0 ≤ toInt buf.length := by omega
  have hpush := queued_push hqueued
    (MsgNode.ofMsg_wellFormed_of_nonneg s.called.length hsize) rfl
  rw [if_neg hthrows, decide_eq_true hsize, Bool.and_true]
  cases h with
  | idle hqueue hpending hwrites =>
      have hstarts : (false || !s.sendPending) = true := by
        rw [hpending]
        rfl
      rw [if_neg (by simp [hpending]), hstarts]
      refine ⟨hpush, .called (MsgNode.ofMsg s.called.length buf (toInt buf.length)) []
        ⟨.caller, 0, buf, .writeCallBack⟩ ?_ rfl ?_ rfl rfl⟩
      · simp [CSession.asyncWriteSome, hqueue]
      · simp [CSession.asyncWriteSome, hwrites]
  | called front rest op hqueue hpending hwrites hcallback hsource =>
      rw [if_pos hpending, Bool.true_or]
      refine ⟨hpush, .called front (rest ++ [MsgNode.ofMsg s.called.length buf (toInt buf.length)])
        op ?_ hpending hwrites hcallback hsource⟩
      rw [hqueue]
      rfl
  | continued front rest op hqueue hpending hwrites hcallback hsource hoffset hbytes hle =>
      have hwaits : (false || !s.sendPending) = false := by
        rw [hpending]
        rfl
      rw [if_pos hpending, hwaits]
      refine ⟨hpush, .continued front
        (rest ++ [MsgNode.ofMsg s.called.length buf (toInt buf.length)]) op ?_ hpending hwrites
        hcallback hsource hoffset hbytes hle⟩
      rw [hqueue]
      rfl
  | stopped hpending hwrites =>
      have hwaits : (false || !s.sendPending) = false := by
        rw [hpending]
        rfl
      rw [if_pos hpending, hwaits]
      exact ⟨hpush, .stopped hpending hwrites⟩

/-! ## Completions -/

theorem unsent_of_start {node : MsgNode} (hcur : node.curLen = 0) : node.unsent = node.whole := by
  rw [MsgNode.unsent, MsgNode.whole, hcur, Int.sub_zero]
  rfl

/-- What `WriteCallBack` starts for the front of the queue, or for the node behind it, lies
in that node. -/
theorem sources_writeCallBack {s : CSession} (front : MsgNode) (rest : List MsgNode)
    (hqueue : s.sendQueue = front :: rest) (hqueued : Queued s.sendQueue)
    (hpending : s.sendPending = true) (hwrites : s.writes = []) (ec : Int) (n : Nat) :
    Queued (s.writeCallBack ec n).sendQueue ∧ Sources (s.writeCallBack ec n) false := by
  unfold CSession.writeCallBack
  by_cases hec : ec ≠ 0
  · rw [if_pos hec]
    exact ⟨hqueued, .stopped hpending hwrites⟩
  rw [if_neg hec, hqueue]
  rw [hqueue] at hqueued
  have hfront : front.WellFormed := hqueued.nodes front (List.mem_cons_self ..)
  have hrest : ∀ node ∈ rest, node.WellFormed :=
    fun node hnode => hqueued.nodes node (List.mem_cons_of_mem _ hnode)
  dsimp only
  by_cases hmore : (front.advance n).curLen < (front.advance n).totalLen
  · rw [if_pos hmore]
    refine ⟨⟨List.forall_mem_cons.mpr ⟨hfront.advance n, hrest⟩, hqueued.back⟩,
      .continued (front.advance n) rest
        ⟨.queueNode (front.advance n).addr, (front.advance n).curLen, (front.advance n).unsent,
          .writeCallBack⟩
        rfl hpending ?_ rfl rfl rfl rfl (Int.le_of_lt hmore)⟩
    simp only [CSession.asyncWriteSome, hwrites, List.nil_append]
  · rw [if_neg hmore]
    cases rest with
    | nil => exact ⟨⟨hrest, by simp⟩, .idle rfl rfl hwrites⟩
    | cons next rest =>
        have hcur : next.curLen = 0 := hqueued.back next (List.mem_cons_self ..)
        have hnext : next.WellFormed := hrest next (List.mem_cons_self ..)
        refine ⟨⟨hrest, fun node hnode => hqueued.back node (List.mem_cons_of_mem _ hnode)⟩,
          .continued next rest ⟨.queueNode next.addr, 0, next.whole, .writeCallBack⟩ rfl hpending
            ?_ rfl rfl hcur.symm (unsent_of_start hcur).symm ?_⟩
        · simp only [CSession.asyncWriteSome, hwrites, List.nil_append]
        · rw [hcur, hnext.totalLen_eq]
          exact Int.natCast_nonneg _

/-- There is a front node behind every outstanding write. -/
theorem Sources.outstanding {s : CSession} {byCall : Bool} (h : Sources s byCall) {i : Nat}
    {op : WriteOp} (hop : s.writes[i]? = some op) :
    ∃ front rest, s.sendQueue = front :: rest ∧ s.sendPending = true
      ∧ op.callback = .writeCallBack ∧ s.writes.eraseIdx i = [] := by
  cases h with
  | idle hqueue hpending hwrites =>
      rw [hwrites] at hop
      cases hop
  | stopped hpending hwrites =>
      rw [hwrites] at hop
      cases hop
  | called front rest op' hqueue hpending hwrites hcallback hsource =>
      have hnone := Machine.eraseIdx_only hwrites hop
      obtain ⟨-, rfl⟩ := Machine.eq_only hwrites hop
      exact ⟨front, rest, hqueue, hpending, hcallback, hnone⟩
  | continued front rest op' hqueue hpending hwrites hcallback hsource hoffset hbytes hle =>
      have hnone := Machine.eraseIdx_only hwrites hop
      obtain ⟨-, rfl⟩ := Machine.eq_only hwrites hop
      exact ⟨front, rest, hqueue, hpending, hcallback, hnone⟩

theorem sources_writeDone {s t : CSession} {byCall : Bool} (h : Sources s byCall)
    (hqueued : Queued s.sendQueue) {i : Nat} {ec : Int} {n : Nat}
    (hdone : s.writeDone i ec n = some t) : Queued t.sendQueue ∧ Sources t false := by
  obtain ⟨op, hop, -, rfl⟩ := CSession.writeDone_cases hdone
  obtain ⟨front, rest, hqueue, hpending, hcallback, hnone⟩ := h.outstanding hop
  rw [hcallback, CSession.call]
  refine sources_writeCallBack front rest ?_ ?_ ?_ ?_ ec n
  · exact hqueue
  · exact hqueued
  · exact hpending
  · exact hnone

/-! ## Runs -/

/-- The nodes are whole, and the record says what the outstanding write was started for. -/
def Recorded (x : CSession × Bool) : Prop := Queued x.1.sendQueue ∧ Sources x.1 x.2

theorem recorded_step {x y : CSession × Bool} {e : Event} (hwrite : e.IsQueuedWrite)
    (h : Recorded x) (hstep : startedByCall x e = some y) : Recorded y := by
  obtain ⟨hqueued, hsources⟩ := h
  obtain ⟨t, ht, rfl⟩ := Machine.record_eq_some.mp hstep
  rcases step_cases ht with ⟨buf, rfl, -⟩ | ⟨buf, rfl | rfl, hcall⟩ | ⟨memory, rfl | rfl, -⟩
    | ⟨i, ec, n, rfl, hdone⟩ | ⟨i, ec, bytes, rfl, -⟩
  · cases hwrite
  · simp only [Recorded, noteCall, hcall]
    exact sources_writeQueued hsources hqueued buf
  · simp only [Recorded, noteCall, hcall]
    exact sources_writeQueued hsources hqueued buf
  · cases hwrite
  · cases hwrite
  · exact sources_writeDone hsources hqueued hdone
  · cases hwrite

theorem recorded_init : Recorded ({}, false) := ⟨⟨by simp, by simp⟩, .idle rfl rfl rfl⟩

/-- With shorter strings the session is also an outbox, whose cursor is `cur_len_`. -/
theorem simulates_recorded :
    Machine.Simulates startedByCall (fun _ e => e.IsQueuedWrite ∧ e.Fits)
      (fun x o => Recorded x ∧ Models True x.1 o) Outbox.Step := by
  rintro x e y o ⟨hwrite, hfits⟩ ⟨hrecorded, hmodels⟩ hstep
  obtain ⟨t, ht, hy⟩ := Machine.record_eq_some.mp hstep
  obtain ⟨o', hmoves, hmodels'⟩ :=
    simulates_writer True ⟨hwrite, hfits, fun _ => trivial⟩ hmodels ht
  refine ⟨o', hmoves, recorded_step hwrite hrecorded hstep, ?_⟩
  rw [hy]
  exact hmodels'

theorem Sources.offset_nonneg {s : CSession} (h : Sources s false)
    (hfront : ∀ node ∈ s.sendQueue.head?, 0 ≤ node.curLen) : ∀ op ∈ s.writes, 0 ≤ op.offset := by
  intro op hop
  cases h with
  | idle hqueue hpending hwrites =>
      rw [hwrites] at hop
      cases hop
  | stopped hpending hwrites =>
      rw [hwrites] at hop
      cases hop
  | continued front rest op' hqueue hpending hwrites hcallback hsource hoffset hbytes hle =>
      rw [hwrites] at hop
      obtain rfl := List.mem_singleton.mp hop
      rw [hoffset]
      exact hfront front (by simp [hqueue])

/-- In every state a run of the queued writer reaches, the buffers of the outstanding
writes lie in the front node exactly if none of them was started by a call, and none
begins in front of `msg_`; and none does as long as the strings are shorter than 2^31
bytes. -/
theorem owned_iff {es : List Event} (hwrite : ∀ e ∈ es, e.IsQueuedWrite) :
    Machine.Throughout startedByCall
        (fun x => Owned x.1 ↔ x.2 = false ∧ ∀ op ∈ x.1.writes, 0 ≤ op.offset) ({}, false) es
      ∧ ((∀ e ∈ es, e.Fits) →
        Machine.Throughout startedByCall (fun x => Owned x.1 ↔ x.2 = false) ({}, false) es) := by
  constructor
  · have hrecorded : Machine.Throughout startedByCall Recorded ({}, false) es :=
      Machine.throughout_of_preserves (C := fun _ e => e.IsQueuedWrite)
        (fun hC h hstep => recorded_step hC h hstep)
        (Machine.along_of_forall (fun e he _ => hwrite e he) _) recorded_init
    refine hrecorded.mono ?_
    rintro x ⟨hqueued, hsources⟩
    exact hsources.owned_iff_offset hqueued
  · intro hfits
    refine (Machine.refines_throughout
      (R := fun (x : CSession × Bool) o => Recorded x ∧ Models True x.1 o) simulates_recorded
      (Machine.along_of_forall (fun e he _ => ⟨hwrite e he, hfits e he⟩) _)
      ⟨recorded_init, models_init True⟩).mono ?_
    rintro ⟨s, byCall⟩ ⟨o, -, ⟨hqueued, hsources⟩, hmodels⟩
    rw [hsources.owned_iff_offset hqueued]
    refine and_iff_left_of_imp ?_
    rintro rfl
    refine hsources.offset_nonneg fun node hnode => ?_
    rw [hmodels.carries.front node hnode]
    exact Int.natCast_nonneg _

/-- `"Hi"` in two pieces. -/
theorem owned_pieces :
    Machine.Throughout startedByCall (fun x => Owned x.1 ↔ x.2 = false) ({}, false)
      [.writeToSocket [72, 105], .writeDone 0 0 1, .writeDone 0 0 1] :=
  (owned_iff (by simp [Event.IsQueuedWrite])).2 (by simp [Event.Fits])

/-- The first write of `"A"` is from the argument. -/
theorem owned_caller : ¬ Machine.Throughout step Owned {} [.writeToSocket [65]] := by
  rintro ⟨-, h⟩
  obtain ⟨front, -, hnode⟩ := h _ rfl ⟨.caller, 0, [65], .writeCallBack⟩ (by decide)
  have hsource := hnode.source
  cases hsource

end CppNet.SessionApi
