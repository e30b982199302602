import CppNet.Duplex.Model
import CppNet.Lib.Outbox

/-!
# What the full-duplex server echoes

`HandleRead` hands `data_` itself to `async_write` when the queue is empty,
then clears it and receives into it again; only messages that found the queue
occupied are sent from the copy in their node, and the length of that copy is
read from `max_len_`, which the constructor never sets. So a session echoes
faithfully as long as two things hold step by step (`Intact`): a transfer out of
`data_` finds there what the node in front of the queue has kept of the message,
and a node that is sent next has by chance the right `max_len_`.

Under that condition a session is an outbox for the messages read
(`simulates_echo`), so what is on the wire is a prefix of what was received
(`echo_prefix`). The schedule that breaks it is the ordinary one: nothing is out
when `memset` runs (`echo_cleared`).
-/

namespace CppNet.Duplex

open FullDuplex (MsgNode)

/-! ## The condition -/

/-- Bytes sent out of `data_` are those of the message being sent, as the front
node of the queue has them. -/
def TransferIntact (s : CSession MsgNode) (x : Transfer) : Prop :=
  ∀ op ∈ s.writes[x.index]?, ∀ front ∈ s.sendQueue.head?,
    op.ptr = .data → op.done + x.count ≤ op.size →
      (s.data.drop op.done).take x.count = (front.data.drop op.done).take x.count

/-- Every transfer the step contains is intact, and so is the length of the node
whose write it starts. A transfer that follows `Send` at once needs nothing if
the message is the only one. -/
def Intact (s : CSession MsgNode) : Event → Prop
  | .completion (.transfer x) => TransferIntact s x
  | .completion (.readDone _ bytes _ window) =>
      s.sendQueue ≠ [] → ∀ x ∈ window, TransferIntact (s.fill bytes) x
  | .completion (.writeDone ..) =>
      ∀ next ∈ s.sendQueue[1]?, toSize next.maxLen = next.data.length
  | .send .. => True

instance (s : CSession MsgNode) (x : Transfer) : Decidable (TransferIntact s x) := by
  unfold TransferIntact
  infer_instance

instance : ∀ (s : CSession MsgNode) (e : Event), Decidable (Intact s e)
  | s, .completion (.transfer x) => inferInstanceAs (Decidable (TransferIntact s x))
  | s, .completion (.readDone _ bytes _ window) =>
      inferInstanceAs
        (Decidable (s.sendQueue ≠ [] → ∀ x ∈ window, TransferIntact (s.fill bytes) x))
  | s, .completion (.writeDone ..) =>
      inferInstanceAs (Decidable (∀ next ∈ s.sendQueue[1]?, toSize next.maxLen = next.data.length))
  | _, .send .. => .isTrue trivial

/-- Successful completions and transfers. -/
def Event.IsEcho : Event → Prop
  | .completion (.readDone error ..) | .completion (.writeDone _ error) => error = false
  | .completion (.transfer _) => True
  | .send .. => False

/-! ## The relation -/

/-- No write is outstanding and no message waits, or one write is outstanding and
sends the front node, or the bytes of `data_` in its place. -/
inductive Sending (s : CSession MsgNode) (cursor : Nat) : Prop
  | idle (hqueue : s.sendQueue = []) (hwrites : s.writes = [])
  | busy (front : MsgNode) (rest : List MsgNode) (op : WriteOp MsgNode)
      (hqueue : s.sendQueue = front :: rest) (hwrites : s.writes = [op])
      (hsize : op.size = front.data.length) (hdone : op.done = cursor)
      (hptr : op.ptr = .data ∨ op.ptr = .node front)

structure Models (s : CSession MsgNode) (o : Outbox Byte) : Prop where
  sound : s.broken = false
  accepted : o.accepted.flatten = s.received
  delivered : o.delivered = s.wire
  queue : o.queue = s.sendQueue.map MsgNode.data
  sending : Sending s o.cursor

theorem models_started : Models CSession.started .empty :=
  ⟨rfl, rfl, rfl, rfl, .idle rfl rfl⟩

theorem Models.queue_cons {s : CSession MsgNode} {o : Outbox Byte} (h : Models s o)
    {front : MsgNode} {rest : List MsgNode} (hqueue : s.sendQueue = front :: rest) :
    o.queue = front.data :: rest.map MsgNode.data := by
  rw [h.queue, hqueue]
  rfl

/-! ## Transfers -/

theorem take_drop_append {α : Type*} {l m : List α} {d k : Nat}
    (h : k ≤ (l.drop d).length) : ((l ++ m).drop d).take k = (l.drop d).take k := by
  rw [List.drop_append, List.take_append_of_le_length h]

theorem models_transfer {s t : CSession MsgNode} {o : Outbox Byte} (h : Models s o)
    {x : Transfer} (hintact : TransferIntact s x) (ht : s.transfer x = some t) :
    ∃ o', Outbox.Steps o o' ∧ Models t o' := by
  obtain ⟨op, bytes, hop, hbytes, hsize, hlength, rfl⟩ := CSession.transfer_cases ht
  cases h.sending with
  | idle hqueue hwrites =>
      rw [hwrites] at hop
      cases hop
  | busy front rest op' hqueue hwrites hsize' hdone hptr =>
      obtain ⟨hindex, rfl⟩ := Machine.eq_only hwrites hop
      have hq := h.queue_cons hqueue
      have hroom : x.count ≤ (front.data.drop op'.done).length := by
        rw [List.length_drop]
        omega
      -- whichever memory is read, it holds the front message there
      have hfront : bytes = (front.data.drop op'.done).take x.count := by
        rw [hbytes]
        rcases hptr with hptr | hptr
        · have hsame := hintact op' hop front (by rw [hqueue]; rfl) hptr hsize
          have hlen := congrArg List.length hsame
          rw [List.length_take_of_le hroom, List.length_take] at hlen
          rw [hptr, show s.mem Ptr.data = s.data from rfl, take_drop_append (by omega)]
          exact hsame
        · rw [hptr, show s.mem (Ptr.node front) = front.data from rfl, take_drop_append hroom]
      have hfits : o.cursor + x.count ≤ (o.queue.headD []).length := by
        rw [hq, ← hdone]
        show _ ≤ front.data.length
        omega
      refine ⟨_, .single (.advance o x.count hfits), h.sound, h.accepted, ?_, h.queue, ?_⟩
      · rw [Outbox.advance_delivered, h.delivered, hq, ← hdone, hfront]
        rfl
      · refine .busy front rest { op' with done := op'.done + x.count } hqueue ?_ hsize' ?_ hptr
        · rw [hindex, hwrites]
          rfl
        · rw [Outbox.advance_cursor, ← hdone]

/-! ## Reads -/

theorem toSize_length {bytes : Bytes} (hbytes : bytes.length ≤ maxLength) :
    toSize (toInt bytes.length) = bytes.length :=
  toSize_toInt (Nat.lt_of_le_of_lt hbytes (by decide))

/-- The node made of the bytes read holds these bytes. -/
theorem make_fill (s : CSession MsgNode) {bytes : Bytes} (hbytes : bytes.length ≤ maxLength)
    (uninitialised : Int) :
    (MessageNode.make ((s.fill bytes).mem .data) (toInt bytes.length) uninitialised
      : MsgNode).data = bytes := by
  rw [FullDuplex.make_data, CSession.fill_mem_data, toSize_length hbytes, List.take_left]

theorem models_send {s : CSession MsgNode} {o : Outbox Byte} (h : Models s o)
    {bytes : Bytes} (hbytes : bytes.length ≤ maxLength) (uninitialised : Int) :
    Models ((s.fill bytes).send .data (toInt bytes.length) uninitialised)
      (o.enqueue bytes) := by
  have hnode := make_fill s hbytes uninitialised
  have haccepted : (o.enqueue bytes).accepted.flatten = s.received ++ bytes := by
    rw [Outbox.enqueue_accepted, List.flatten_append, h.accepted, List.flatten_singleton]
  have hdelivered : (o.enqueue bytes).delivered = s.wire := by
    rw [Outbox.enqueue_delivered, h.delivered]
  have hqueue' : (o.enqueue bytes).queue = s.sendQueue.map MsgNode.data ++ [bytes] := by
    rw [← h.queue]
    rfl
  cases h.sending with
  | idle hqueue hwrites =>
      have hcursor : o.cursor = 0 := Outbox.cursor_of_queue_nil (by rw [h.queue, hqueue]; rfl)
      rw [CSession.send_of_idle (s := s.fill bytes) hqueue]
      refine ⟨h.sound, haccepted, hdelivered, ?_, .busy
        (MessageNode.make ((s.fill bytes).mem .data) (toInt bytes.length) uninitialised) []
        ⟨.data, toSize (toInt bytes.length), 0⟩ rfl ?_ ?_ hcursor.symm (.inl rfl)⟩
      · rw [hqueue', hqueue]
        simp only [CSession.asyncWrite, List.map_nil, List.nil_append, List.map_cons, hnode]
      · show s.writes ++ _ = _
        rw [hwrites]
        rfl
      · rw [hnode, toSize_length hbytes]
  | busy front rest op hqueue hwrites hsize hdone hptr =>
      have hpending : (s.fill bytes).sendQueue ≠ [] := by
        show s.sendQueue ≠ []
        rw [hqueue]
        exact List.cons_ne_nil _ _
      rw [CSession.send_of_pending hpending]
      refine ⟨h.sound, haccepted, hdelivered, ?_, .busy front (rest ++
        [MessageNode.make ((s.fill bytes).mem .data) (toInt bytes.length) uninitialised]) op
        ?_ hwrites hsize hdone hptr⟩
      · rw [hqueue', List.map_append, List.map_singleton, hnode]
        rfl
      · show s.sendQueue ++ _ = _
        rw [hqueue]
        rfl

/-- A transfer right behind `Send` is intact: out of an idle session it sends the
message just received, otherwise it is covered by the condition. -/
theorem window_intact {s : CSession MsgNode} {o : Outbox Byte} (h : Models s o)
    {bytes : Bytes} (hbytes : bytes.length ≤ maxLength) (uninitialised : Int) {x : Transfer}
    (hintact : s.sendQueue ≠ [] → TransferIntact (s.fill bytes) x) :
    TransferIntact ((s.fill bytes).send .data (toInt bytes.length) uninitialised) x := by
  cases h.sending with
  | idle hqueue hwrites =>
      rw [CSession.send_of_idle (s := s.fill bytes) hqueue]
      intro op hop front hfront hptr hsize
      obtain rfl := Option.some.inj hfront
      have hnode := make_fill s hbytes uninitialised
      change (s.writes ++ [_])[x.index]? = some op at hop
      rw [hwrites, List.nil_append] at hop
      obtain rfl := List.mem_singleton.mp (List.mem_of_getElem? hop)
      dsimp only at hsize ⊢
      rw [toSize_length hbytes] at hsize
      rw [hnode, List.drop_zero, List.drop_zero]
      show (bytes ++ s.data.drop bytes.length).take x.count = _
      rw [List.take_append_of_le_length (by omega)]
  | busy front rest op hqueue hwrites hsize hdone hptr =>
      have hne : s.sendQueue ≠ [] := by
        rw [hqueue]
        exact List.cons_ne_nil _ _
      rw [CSession.send_of_pending (s := s.fill bytes) hne]
      intro op' hop front' hfront
      refine hintact hne op' hop front' ?_
      change (s.sendQueue ++ _).head? = some front' at hfront
      rw [hqueue] at hfront
      show s.sendQueue.head? = some front'
      rw [hqueue]
      exact hfront

theorem models_readDone {s : CSession MsgNode} {o : Outbox Byte} (h : Models s o)
    {bytes : Bytes} {uninitialised : Int} {window : Option Transfer}
    (hintact : s.sendQueue ≠ [] → ∀ x ∈ window, TransferIntact (s.fill bytes) x)
    {r : CSession MsgNode × Bool}
    (hdone : s.complete (.readDone false bytes uninitialised window) = some r) :
    ∃ o', Outbox.Steps o o' ∧ Models r.1 o' := by
  obtain ⟨t, hbytes, ht, rfl⟩ := CSession.readDone_cases hdone
  have hsend := models_send h hbytes uninitialised
  have hstep : Outbox.Step o (o.enqueue bytes) := .enqueue o bytes
  obtain ⟨o', ho', hmodels⟩ : ∃ o', Outbox.Steps o o' ∧ Models t o' := by
    rcases CSession.inWindow_cases ht with ⟨-, rfl⟩ | ⟨x, rfl, hx⟩
    · exact ⟨_, .single hstep, hsend⟩
    · obtain ⟨o', ho', hmodels⟩ := models_transfer hsend
        (window_intact h hbytes uninitialised fun hne => hintact hne x rfl) hx
      exact ⟨o', .head hstep ho', hmodels⟩
  -- clearing `data_` and starting a read touch nothing the outbox knows of
  refine ⟨o', ho', hmodels.sound, hmodels.accepted, hmodels.delivered, hmodels.queue, ?_⟩
  cases hmodels.sending with
  | idle hqueue hwrites => exact .idle hqueue hwrites
  | busy front rest op hqueue hwrites hsize hdone hptr =>
      exact .busy front rest op hqueue hwrites hsize hdone hptr

/-! ## Completed writes -/

theorem models_writeDone {s : CSession MsgNode} {o : Outbox Byte} (h : Models s o)
    {index : Nat} (hnext : ∀ next ∈ s.sendQueue[1]?, toSize next.maxLen = next.data.length)
    {r : CSession MsgNode × Bool} (hdone : s.complete (.writeDone index false) = some r) :
    ∃ o', Outbox.Steps o o' ∧ Models r.1 o' := by
  obtain ⟨op, hop, hout, rfl⟩ := CSession.writeDone_cases hdone
  cases h.sending with
  | idle hqueue hwrites =>
      rw [hwrites] at hop
      cases hop
  | busy front rest op' hqueue hwrites hsize hcursor hptr =>
      obtain ⟨-, rfl⟩ := Machine.eq_only hwrites hop
      have hnone := Machine.eraseIdx_only hwrites hop
      have hq := h.queue_cons hqueue
      have hne : o.queue ≠ [] := by
        rw [hq]
        exact List.cons_ne_nil _ _
      have hfull : o.cursor = (o.queue.headD []).length := by
        rw [hq, ← hcursor, hout rfl, hsize]
        rfl
      have hqueue' : o.pop.queue = rest.map MsgNode.data := by
        rw [Outbox.pop_queue, hq]
        rfl
      refine ⟨o.pop, .single (.pop o hne hfull), ?_⟩
      have haccepted : o.pop.accepted.flatten = s.received := by
        rw [Outbox.pop_accepted hne, h.accepted]
      have hdelivered : o.pop.delivered = s.wire := by
        rw [Outbox.pop_delivered hfull, h.delivered]
      simp only [CSession.handleWrite, Bool.false_eq_true, if_false, hqueue]
      cases rest with
      | nil =>
          refine ⟨h.sound, haccepted, hdelivered, hqueue', .idle rfl ?_⟩
          exact hnone
      | cons next rest =>
          refine ⟨h.sound, haccepted, hdelivered, hqueue',
            .busy next rest ⟨.node next, toSize next.maxLen, 0⟩ rfl ?_ ?_ rfl (.inr rfl)⟩
          · show s.writes.eraseIdx index ++ _ = _
            rw [hnone]
            rfl
          · exact hnext next (by rw [hqueue]; rfl)

/-! ## Runs -/

theorem simulates_echo :
    Machine.Simulates step (fun (s : CSession MsgNode) e => e.IsEcho ∧ Intact s e)
      Models Outbox.Step := by
  rintro s e t o ⟨hecho, hintact⟩ h hstep
  rcases step_cases hstep with ⟨msg, uninitialised, rfl, -, -⟩ | ⟨c, r, rfl, hr, rfl⟩
  · cases hecho
  · cases c with
    | readDone error bytes uninitialised window =>
        obtain rfl : error = false := hecho
        exact models_readDone h hintact hr
    | transfer x =>
        obtain ⟨t, ht, rfl⟩ := Option.map_eq_some_iff.mp hr
        exact models_transfer h hintact ht
    | writeDone index error =>
        obtain rfl : error = false := hecho
        exact models_writeDone h hintact hr

/-- In a run whose steps are intact the session echoes what it receives. -/
theorem echo_prefix {es : List Event} (hecho : ∀ e ∈ es, e.IsEcho)
    (hintact : Machine.Along step Intact CSession.started es) :
    Machine.Throughout step (fun s : CSession MsgNode => s.wire <+: s.received)
      CSession.started es := by
  have halong := (Machine.along_of_forall (fun e he _ => hecho e he) _).and hintact
  refine (Machine.refines_throughout simulates_echo halong models_started).mono ?_
  rintro s ⟨o, -, h⟩
  rw [← h.delivered, ← h.accepted]
  exact o.delivered_prefix

/-- Two messages, each out before `data_` is cleared. -/
theorem echo_prefix_window :
    Machine.Throughout step (fun s : CSession MsgNode => s.wire <+: s.received)
      CSession.started
      [.completion (.readDone false [72, 105] 0 (some ⟨0, 2, []⟩)),
        .completion (.writeDone 0 false),
        .completion (.readDone false [33] 0 (some ⟨0, 1, []⟩))] :=
  echo_prefix (by simp [Event.IsEcho]) (by decide)

/-- Nothing of `"A"` is out when `data_` is cleared. -/
theorem echo_cleared :
    ¬ Machine.Throughout step (fun s : CSession MsgNode => s.wire <+: s.received)
      CSession.started
      [.completion (.readDone false [65] 0 none), .completion (.transfer ⟨0, 1, []⟩)] := by
  decide

end CppNet.Duplex
