import CppNet.Lib.Outbox
import CppNet.SessionApi.Model

/-!
# The queued writer is an outbox

`WriteToSocket`, `WriteAllToSocket` and `WriteCallBack` keep one write going
for the front of the send queue, whatever pieces it goes out in. The relation
`Models` ties a session to an outbox: the queue holds the waiting messages,
`cur_len_` of its front is the cursor, and the one outstanding write offers
what is left of the front (`Phase`). The first write of a message that found
the queue idle offers the caller's string instead of the node, which holds the
same bytes.

Every event of a run without read calls is matched by moves of the outbox
(`simulates_writer`), so what is on the wire is a prefix of the strings in call
order; as long as no completion fails, the session without an outstanding
write is back in its idle state.
-/

namespace CppNet.SessionApi

/-! ## Nodes -/

/-- A node of the send queue: the lengths describe the array. -/
structure MsgNode.WellFormed (node : MsgNode) : Prop where
  totalLen_eq : node.totalLen = node.msg.length
  length_lt : node.msg.length < 2 ^ 31

theorem MsgNode.ofMsg_msg (addr : Nat) {buf : Bytes} (h : buf.length < 2 ^ 31) :
    (MsgNode.ofMsg addr buf (toInt buf.length)).msg = buf := by
  rw [MsgNode.ofMsg, toSize_toInt h, List.take_length]

/-- A node is whole if the call that makes it does not throw. -/
theorem MsgNode.ofMsg_wellFormed_of_nonneg (addr : Nat) {buf : Bytes}
    (h : 0 ≤ toInt buf.length) : (MsgNode.ofMsg addr buf (toInt buf.length)).WellFormed := by
  have hmod : toInt buf.length = ((buf.length % 2 ^ 32 : Nat) : Int)
      ∧ buf.length % 2 ^ 32 < 2 ^ 31 := by
    rw [toInt, Int.bmod_def] at h ⊢
    split at h <;> split <;> omega
  have hle := Nat.mod_le buf.length (2 ^ 32)
  have hmsg : (MsgNode.ofMsg addr buf (toInt buf.length)).msg.length
      = buf.length % 2 ^ 32 := by
    rw [MsgNode.ofMsg, hmod.1, toSize_natCast (by omega), List.length_take]
    omega
  constructor
  · rw [hmsg, MsgNode.ofMsg, hmod.1]
  · rw [hmsg]
    exact hmod.2

theorem MsgNode.ofMsg_wellFormed (addr : Nat) {buf : Bytes} (h : buf.length < 2 ^ 31) :
    (MsgNode.ofMsg addr buf (toInt buf.length)).WellFormed := by
  refine MsgNode.ofMsg_wellFormed_of_nonneg addr ?_
  rw [toInt_of_lt h]
  exact Int.natCast_nonneg _

theorem MsgNode.WellFormed.whole_eq {node : MsgNode} (h : node.WellFormed) :
    node.whole = node.msg := by
  have := h.length_lt
  rw [MsgNode.whole, h.totalLen_eq, toSize_natCast (by omega), List.take_length]

theorem MsgNode.WellFormed.unsent_eq {node : MsgNode} (h : node.WellFormed) {cursor : Nat}
    (hcur : node.curLen = cursor) (hle : cursor ≤ node.msg.length) :
    node.unsent = node.msg.drop cursor := by
  have hlen := h.length_lt
  rw [MsgNode.unsent, h.totalLen_eq, hcur, toSize_natCast (by omega),
    show ((node.msg.length : Int) - cursor) = ((node.msg.length - cursor : Nat) : Int) by omega,
    toSize_natCast (by omega), List.take_of_length_le (by simp)]

theorem MsgNode.WellFormed.advance_curLen {node : MsgNode} (h : node.WellFormed)
    {cursor n : Nat} (hcur : node.curLen = cursor) (hle : cursor + n ≤ node.msg.length) :
    (node.advance n).curLen = (cursor + n : Nat) := by
  have hlen := h.length_lt
  simp only [MsgNode.advance, hcur]
  rw [← Int.natCast_add, toInt_of_lt (by omega)]

theorem MsgNode.WellFormed.advance {node : MsgNode} (h : node.WellFormed) (n : Nat) :
    (node.advance n).WellFormed :=
  ⟨h.totalLen_eq, h.length_lt⟩

/-! ## The relation -/

/-- What is outstanding: nothing, and nothing waits; one write, which offers the
unsent part of the front node; or nothing any more, since a write failed. -/
inductive Phase (mayFail : Prop) (s : CSession) : Prop
  | idle (hqueue : s.sendQueue = []) (hpending : s.sendPending = false)
      (hwrites : s.writes = [])
  | busy (front : MsgNode) (rest : List MsgNode) (op : WriteOp)
      (hqueue : s.sendQueue = front :: rest) (hpending : s.sendPending = true)
      (hwrites : s.writes = [op]) (hcallback : op.callback = .writeCallBack)
      (hbytes : op.bytes = front.msg.drop (toSize front.curLen))
  | stopped (hfail : mayFail) (hpending : s.sendPending = true) (hwrites : s.writes = [])

/-- Queue, wire and record of the session are those of the outbox. -/
structure Carries (s : CSession) (o : Outbox Byte) : Prop where
  sound : s.broken = false
  accepted : o.accepted = s.called
  delivered : o.delivered = s.wire
  queue : o.queue = s.sendQueue.map MsgNode.msg
  nodes : ∀ node ∈ s.sendQueue, node.WellFormed
  front : ∀ node ∈ s.sendQueue.head?, node.curLen = o.cursor
  back : ∀ node ∈ s.sendQueue.tail, node.curLen = 0

structure Models (mayFail : Prop) (s : CSession) (o : Outbox Byte) : Prop where
  carries : Carries s o
  phase : Phase mayFail s

theorem models_init (mayFail : Prop) : Models mayFail {} .empty where
  carries := ⟨rfl, rfl, rfl, rfl, by simp, by simp, by simp⟩
  phase := .idle rfl rfl rfl

section Front

variable {s : CSession} {o : Outbox Byte} {front : MsgNode} {rest : List MsgNode}

theorem Carries.queue_cons (h : Carries s o) (hqueue : s.sendQueue = front :: rest) :
    o.queue = front.msg :: rest.map MsgNode.msg := by
  rw [h.queue, hqueue]
  rfl

theorem Carries.cursor_le (h : Carries s o) (hqueue : s.sendQueue = front :: rest) :
    o.cursor ≤ front.msg.length := by
  have hle := o.cursor_le
  rw [h.queue_cons hqueue] at hle
  exact hle

theorem Carries.front_wellFormed (h : Carries s o) (hqueue : s.sendQueue = front :: rest) :
    front.WellFormed :=
  h.nodes front (by simp [hqueue])

theorem Carries.front_curLen (h : Carries s o) (hqueue : s.sendQueue = front :: rest) :
    front.curLen = o.cursor :=
  h.front front (by simp [hqueue])

end Front

/-! ## Calls -/

theorem carries_push {s t : CSession} {o : Outbox Byte} (h : Carries s o) {buf : Bytes}
    (hlen : buf.length < 2 ^ 31) (hsound : t.broken = false)
    (hqueue : t.sendQueue =
      s.sendQueue ++ [MsgNode.ofMsg s.called.length buf (toInt buf.length)])
    (hcalled : t.called = s.called ++ [buf]) (hwire : t.wire = s.wire) :
    Carries t (o.enqueue buf) where
  sound := hsound
  accepted := by rw [Outbox.enqueue_accepted, h.accepted, hcalled]
  delivered := by rw [Outbox.enqueue_delivered, h.delivered, hwire]
  queue := by
    rw [hqueue, List.map_append, List.map_singleton, MsgNode.ofMsg_msg _ hlen, ← h.queue]
    rfl
  nodes := by
    rw [hqueue]
    intro node hnode
    rcases List.mem_append.mp hnode with hold | hnew
    · exact h.nodes node hold
    · obtain rfl := List.mem_singleton.mp hnew
      exact MsgNode.ofMsg_wellFormed _ hlen
  front := by
    rw [hqueue]
    intro node hnode
    cases hq : s.sendQueue with
    | nil =>
        rw [hq] at hnode
        obtain rfl := Option.some.inj hnode
        have hcursor : o.cursor = 0 := Outbox.cursor_of_queue_nil (by rw [h.queue, hq]; rfl)
        show (0 : Int) = (o.cursor : Int)
        rw [hcursor]
        rfl
    | cons front rest =>
        rw [hq] at hnode
        obtain rfl := Option.some.inj hnode
        exact h.front_curLen hq
  back := by
    rw [hqueue]
    intro node hnode
    cases hq : s.sendQueue with
    | nil =>
        rw [hq] at hnode
        cases hnode
    | cons front rest =>
        have hback := h.back
        rw [hq] at hnode hback
        rcases List.mem_append.mp hnode with hold | hnew
        · exact hback node hold
        · obtain rfl := List.mem_singleton.mp hnew
          rfl

theorem models_writeQueued {mayFail : Prop} {s : CSession} {o : Outbox Byte}
    (h : Models mayFail s o) {buf : Bytes} (hlen : buf.length < 2 ^ 31) :
    Models mayFail (CSession.writeQueued CSession.asyncWriteSome s buf) (o.enqueue buf) := by
  have hsize : ¬ toInt buf.length < 0 := by
    rw [toInt_of_lt hlen]
    omega
  unfold CSession.writeQueued
  rw [if_neg hsize]
  cases h.phase with
  | idle hqueue hpending hwrites =>
      rw [if_neg (by simp [hpending])]
      refine ⟨carries_push h.carries hlen h.carries.sound rfl rfl rfl,
        .busy (MsgNode.ofMsg s.called.length buf (toInt buf.length)) []
          ⟨.caller, 0, buf, .writeCallBack⟩ ?_ rfl ?_ rfl ?_⟩
      · simp only [CSession.asyncWriteSome, hqueue, List.nil_append]
      · simp only [CSession.asyncWriteSome, hwrites, List.nil_append]
      · rw [MsgNode.ofMsg_msg _ hlen]
        rfl
  | busy front rest op hqueue hpending hwrites hcallback hbytes =>
      rw [if_pos hpending]
      exact ⟨carries_push h.carries hlen h.carries.sound rfl rfl rfl,
        .busy front _ op (by rw [hqueue]; rfl) hpending hwrites hcallback hbytes⟩
  | stopped hfail hpending hwrites =>
      rw [if_pos hpending]
      exact ⟨carries_push h.carries hlen h.carries.sound rfl rfl rfl,
        .stopped hfail hpending hwrites⟩

/-! ## Completions -/

/-- `n` more bytes of the front are out. -/
theorem carries_advance {s t : CSession} {o : Outbox Byte} (h : Carries s o)
    {front : MsgNode} {rest : List MsgNode} (hqueue : s.sendQueue = front :: rest) {n : Nat}
    (hn : o.cursor + n ≤ (o.queue.headD []).length) (hsound : t.broken = false)
    (hqueue' : t.sendQueue = front.advance n :: rest) (hcalled : t.called = s.called)
    (hwire : t.wire = s.wire ++ (front.msg.drop o.cursor).take n) :
    Carries t (o.advance n hn) := by
  have hq := h.queue_cons hqueue
  have hwell := h.front_wellFormed hqueue
  have hnodes := h.nodes
  have hback := h.back
  rw [hqueue] at hnodes hback
  refine ⟨hsound, ?_, ?_, ?_, ?_, ?_, ?_⟩
  · rw [Outbox.advance_accepted, h.accepted, hcalled]
  · rw [Outbox.advance_delivered, h.delivered, hwire, hq]
    rfl
  · rw [hqueue']
    exact hq
  · rw [hqueue']
    intro node hnode
    rcases List.mem_cons.mp hnode with rfl | hrest
    · exact hwell.advance n
    · exact hnodes node (List.mem_cons_of_mem _ hrest)
  · rw [hqueue']
    intro node hnode
    obtain rfl := Option.some.inj hnode
    rw [hq] at hn
    exact hwell.advance_curLen (h.front_curLen hqueue) hn
  · rw [hqueue']
    exact hback

/-- The front is out and leaves the queue. -/
theorem carries_pop {s t : CSession} {o : Outbox Byte} (h : Carries s o)
    {front : MsgNode} {rest : List MsgNode} (hqueue : s.sendQueue = front :: rest)
    (hout : o.cursor = front.msg.length) (hsound : t.broken = false)
    (hqueue' : t.sendQueue = rest) (hcalled : t.called = s.called) (hwire : t.wire = s.wire) :
    Carries t o.pop := by
  have hq := h.queue_cons hqueue
  have hnodes := h.nodes
  have hback := h.back
  rw [hqueue] at hnodes hback
  refine ⟨hsound, ?_, ?_, ?_, ?_, ?_, ?_⟩
  · rw [Outbox.pop_accepted (by simp [hq]), h.accepted, hcalled]
  · rw [Outbox.pop_delivered (by rw [hq]; exact hout), h.delivered, hwire]
  · rw [hqueue', Outbox.pop_queue, hq]
    rfl
  · rw [hqueue']
    exact fun node hnode => hnodes node (List.mem_cons_of_mem _ hnode)
  · rw [hqueue']
    exact fun node hnode => hback node (List.mem_of_mem_head? hnode)
  · rw [hqueue']
    exact fun node hnode => hback node (List.mem_of_mem_tail hnode)

/-- The callback of a successful write of the front node. -/
theorem models_writeCallBack {mayFail : Prop} {s : CSession} {o : Outbox Byte}
    (h : Carries s o) {front : MsgNode} {rest : List MsgNode}
    (hqueue : s.sendQueue = front :: rest) (hpending : s.sendPending = true) {n : Nat}
    (hn : o.cursor + n ≤ front.msg.length) :
    ∃ o', Outbox.Steps o o' ∧ Models mayFail (CSession.writeCallBack
      { s with writes := [], wire := s.wire ++ (front.msg.drop o.cursor).take n } 0 n) o' := by
  have hq := h.queue_cons hqueue
  have hwell := h.front_wellFormed hqueue
  have hlen := hwell.length_lt
  have hcur : (front.advance n).curLen = (o.cursor + n : Nat) :=
    hwell.advance_curLen (h.front_curLen hqueue) hn
  have htotal : (front.advance n).totalLen = front.msg.length := hwell.totalLen_eq
  have hn' : o.cursor + n ≤ (o.queue.headD []).length := by
    rw [hq]
    exact hn
  have hadvance : Outbox.Step o (o.advance n hn') := .advance o n hn'
  simp only [CSession.writeCallBack, ne_eq, not_true_eq_false, if_false, hqueue]
  by_cases hmore : o.cursor + n < front.msg.length
  · -- part of the front is left, and the next write offers it
    rw [if_pos (by omega)]
    refine ⟨_, .single hadvance, carries_advance h hqueue hn' h.sound rfl rfl rfl, ?_⟩
    refine .busy (front.advance n) rest _ rfl hpending rfl rfl ?_
    rw [(hwell.advance n).unsent_eq hcur hn, hcur, toSize_natCast (by omega)]
  · have hout : o.cursor + n = front.msg.length := by omega
    rw [if_neg (by omega)]
    have hadvanced := carries_advance h hqueue hn' (t := { s with
        sendQueue := front.advance n :: rest
        wire := s.wire ++ (front.msg.drop o.cursor).take n })
      h.sound rfl rfl rfl
    have hpop : Outbox.Step (o.advance n hn') (o.advance n hn').pop := by
      refine .pop _ ?_ ?_
      · simp [hq]
      · rw [Outbox.advance_cursor, Outbox.advance_queue, hq]
        exact hout
    refine ⟨_, .tail (.single hadvance) hpop, ?_⟩
    cases rest with
    | nil =>
        exact ⟨carries_pop hadvanced rfl hout h.sound rfl rfl rfl, .idle rfl rfl rfl⟩
    | cons next rest =>
        have hnext : next.WellFormed := h.nodes next (by simp [hqueue])
        have hzero : next.curLen = (0 : Nat) := h.back next (by simp [hqueue])
        refine ⟨carries_pop hadvanced rfl hout h.sound rfl rfl rfl,
          .busy next rest _ rfl hpending rfl rfl ?_⟩
        rw [hnext.whole_eq, hzero, toSize_natCast (by omega), List.drop_zero]

theorem models_writeDone {mayFail : Prop} {s t : CSession} {o : Outbox Byte}
    (h : Models mayFail s o) {i : Nat} {ec : Int} {n : Nat} (hfail : ec ≠ 0 → mayFail)
    (hdone : s.writeDone i ec n = some t) :
    ∃ o', Outbox.Steps o o' ∧ Models mayFail t o' := by
  obtain ⟨op, hop, hn, rfl⟩ := CSession.writeDone_cases hdone
  cases h.phase with
  | idle hqueue hpending hwrites =>
      rw [hwrites] at hop
      cases hop
  | stopped hfail hpending hwrites =>
      rw [hwrites] at hop
      cases hop
  | busy front rest op' hqueue hpending hwrites hcallback hbytes =>
      obtain ⟨rfl, rfl⟩ := Machine.eq_only hwrites hop
      have hcursor := h.carries.cursor_le hqueue
      have hlen := (h.carries.front_wellFormed hqueue).length_lt
      rw [h.carries.front_curLen hqueue, toSize_natCast (by omega)] at hbytes
      rw [hwrites, hcallback, hbytes]
      by_cases hec : ec = 0
      · subst hec
        rw [Reportable, if_pos rfl, hbytes, List.length_drop] at hn
        exact models_writeCallBack h.carries hqueue hpending (by omega)
      · rw [Reportable, if_neg hec] at hn
        subst hn
        have hstop : CSession.call
            { s with
              writes := List.eraseIdx [op'] 0
              wire := s.wire ++ (front.msg.drop o.cursor).take 0 } ec 0 .writeCallBack
            = { s with writes := [] } := by
          simp [CSession.call, CSession.writeCallBack, hec]
        have hc := h.carries
        rw [hstop]
        exact ⟨o, .refl, ⟨hc.sound, hc.accepted, hc.delivered, hc.queue, hc.nodes, hc.front,
          hc.back⟩, .stopped (hfail hec) hpending rfl⟩

/-! ## Runs -/

/-- The calls and completions of the queued writer. -/
def Event.IsQueuedWrite : Event → Prop
  | .writeToSocket _ | .writeAllToSocket _ | .writeDone .. => True
  | _ => False

/-- The strings are shorter than 2^31 bytes. -/
def Event.Fits : Event → Prop
  | .writeToSocket buf | .writeAllToSocket buf | .writeToSocketErr buf => buf.length < 2 ^ 31
  | _ => True

/-- A completion with an error. -/
def Event.Fails : Event → Prop
  | .writeDone _ ec _ | .readDone _ ec _ => ec ≠ 0
  | _ => False

/-- The strings given to the queued write calls of a run, in call order. -/
def calls : List Event → List Bytes
  | [] => []
  | .writeToSocket buf :: es | .writeAllToSocket buf :: es => buf :: calls es
  | _ :: es => calls es

theorem simulates_writer (mayFail : Prop) :
    Machine.Simulates step
      (fun _ e => e.IsQueuedWrite ∧ e.Fits ∧ (e.Fails → mayFail))
      (Models mayFail) Outbox.Step := by
  rintro s e t o ⟨hwrite, hfits, hfail⟩ h hstep
  rcases step_cases hstep with ⟨buf, rfl, -⟩ | ⟨buf, rfl | rfl, ht⟩ | ⟨memory, rfl | rfl, -⟩
    | ⟨i, ec, n, rfl, hdone⟩ | ⟨i, ec, bytes, rfl, -⟩
  · cases hwrite
  · rw [ht]
    exact ⟨_, .single (.enqueue o buf), models_writeQueued h hfits⟩
  · rw [ht]
    exact ⟨_, .single (.enqueue o buf), models_writeQueued h hfits⟩
  · cases hwrite
  · cases hwrite
  · exact models_writeDone h hfail hdone
  · cases hwrite

theorem writeQueued_called {s : CSession} {buf : Bytes} (hlen : buf.length < 2 ^ 31) :
    (CSession.writeQueued CSession.asyncWriteSome s buf).called = s.called ++ [buf] := by
  have hsize : ¬ toInt buf.length < 0 := by
    rw [toInt_of_lt hlen]
    omega
  unfold CSession.writeQueued
  rw [if_neg hsize]
  dsimp only
  split <;> rfl

theorem writeDone_called {s t : CSession} {i : Nat} {ec : Int} {n : Nat}
    (h : s.writeDone i ec n = some t) : t.called = s.called := by
  obtain ⟨op, -, -, rfl⟩ := CSession.writeDone_cases h
  obtain ⟨queue, pending, writes, broken, hcall⟩ := CSession.call_frame
    { s with writes := s.writes.eraseIdx i, wire := s.wire ++ op.bytes.take n }
    ec n op.callback
  rw [hcall]

theorem step_called {s t : CSession} {e : Event} (hwrite : e.IsQueuedWrite)
    (hfits : e.Fits) (hstep : step s e = some t) : t.called = s.called ++ calls [e] := by
  rcases step_cases hstep with ⟨buf, rfl, -⟩ | ⟨buf, rfl | rfl, ht⟩ | ⟨memory, rfl | rfl, -⟩
    | ⟨i, ec, n, rfl, hdone⟩ | ⟨i, ec, bytes, rfl, -⟩
  · cases hwrite
  · rw [ht, writeQueued_called hfits, calls, calls]
  · rw [ht, writeQueued_called hfits, calls, calls]
  · cases hwrite
  · cases hwrite
  · rw [writeDone_called hdone]
    exact (List.append_nil _).symm
  · cases hwrite

theorem calls_cons (e : Event) (es : List Event) : calls (e :: es) = calls [e] ++ calls es := by
  cases e <;> rfl

theorem exec_called {s t : CSession} {es : List Event}
    (hwrite : ∀ e ∈ es, e.IsQueuedWrite) (hfits : ∀ e ∈ es, e.Fits)
    (hrun : Machine.exec step s es = some t) : t.called = s.called ++ calls es := by
  induction es generalizing s with
  | nil =>
      obtain rfl := Option.some.inj hrun
      rw [calls, List.append_nil]
  | cons e es ih =>
      obtain ⟨u, hu, hrun'⟩ := Machine.exec_cons_eq_some.mp hrun
      rw [List.forall_mem_cons] at hwrite hfits
      rw [ih hwrite.2 hfits.2 hrun', step_called hwrite.1 hfits.1 hu, calls_cons e es,
        List.append_assoc]

/-- What a run of queued writes leaves, as an outbox. -/
theorem queued_models (mayFail : Prop) {es : List Event} {s : CSession}
    (hwrite : ∀ e ∈ es, e.IsQueuedWrite ∧ e.Fits ∧ (e.Fails → mayFail))
    (hrun : Machine.exec step {} es = some s) :
    ∃ o : Outbox Byte, Models mayFail s o ∧ o.accepted = calls es := by
  have halong : Machine.Along step
      (fun _ e => e.IsQueuedWrite ∧ e.Fits ∧ (e.Fails → mayFail)) {} es :=
    Machine.along_of_forall (fun e he _ => hwrite e he) _
  obtain ⟨o, -, h⟩ :=
    (Machine.refines_throughout (simulates_writer mayFail) halong (models_init mayFail)).last hrun
  refine ⟨o, h, ?_⟩
  rw [h.carries.accepted]
  exact exec_called (fun e he => (hwrite e he).1) (fun e he => (hwrite e he).2.1) hrun

/-- The strings are out in call order, up to some byte; and if no write has failed and none
is outstanding, they are out entirely and the writer is idle. -/
structure Wrote (mayFail : Prop) (strings : List Bytes) (s : CSession) : Prop where
  isPrefix : s.wire <+: strings.flatten
  complete : ¬ mayFail → s.writes = [] →
    s.wire = strings.flatten ∧ s.sendQueue = [] ∧ s.sendPending = false

theorem Models.wrote {mayFail : Prop} {s : CSession} {o : Outbox Byte} (h : Models mayFail s o) :
    Wrote mayFail o.accepted s := by
  refine ⟨?_, ?_⟩
  · rw [← h.carries.delivered]
    exact o.delivered_prefix
  · intro hok hwrites
    cases h.phase with
    | idle hqueue hpending hnone =>
        refine ⟨?_, hqueue, hpending⟩
        rw [← h.carries.delivered]
        exact Outbox.delivered_of_queue_nil (by rw [h.carries.queue, hqueue]; rfl)
    | busy front rest op hqueue hpending hbusy hcallback hbytes =>
        rw [hwrites] at hbusy
        cases hbusy
    | stopped hfail hpending hnone => exact (hok hfail).elim

/-- What is on the wire is a prefix of the strings in call order; without a
failed completion, a session with no write outstanding has sent them all and is
idle. -/
theorem writer_wire {es : List Event} {s : CSession}
    (hwrite : ∀ e ∈ es, e.IsQueuedWrite) (hfits : ∀ e ∈ es, e.Fits)
    (hrun : Machine.exec step {} es = some s) :
    s.wire <+: (calls es).flatten ∧
      ((∀ e ∈ es, ¬ e.Fails) → s.writes = [] →
        s.wire = (calls es).flatten ∧ s.sendQueue = [] ∧ s.sendPending = false) := by
  constructor
  · obtain ⟨o, h, haccepted⟩ :=
      queued_models True (fun e he => ⟨hwrite e he, hfits e he, fun _ => trivial⟩) hrun
    exact haccepted ▸ h.wrote.isPrefix
  · intro hok hwrites
    obtain ⟨o, h, haccepted⟩ :=
      queued_models False (fun e he => ⟨hwrite e he, hfits e he, hok e he⟩) hrun
    exact haccepted ▸ h.wrote.complete id hwrites

/-- Two calls; the first string goes out in two pieces, the second call arrives
between them, and both strings are out in the end. -/
theorem writer_wire_split :
    ∃ s, Machine.exec step {}
        [.writeToSocket [72, 105], .writeDone 0 0 1, .writeAllToSocket [33],
          .writeDone 0 0 1, .writeDone 0 0 1] = some s
      ∧ s.wire = [72, 105, 33] ∧ s.sendPending = false := by
  obtain ⟨s, hrun, hwrites⟩ : ∃ s, Machine.exec step {}
        [.writeToSocket [72, 105], .writeDone 0 0 1, .writeAllToSocket [33],
          .writeDone 0 0 1, .writeDone 0 0 1] = some s ∧ s.writes = [] :=
    ⟨_, rfl, rfl⟩
  have h := writer_wire (by simp [Event.IsQueuedWrite]) (by simp [Event.Fits]) hrun
  obtain ⟨hwire, -, hpending⟩ := h.2 (by simp [Event.Fails]) hwrites
  exact ⟨s, hrun, hwire, hpending⟩

end CppNet.SessionApi
