import CppNet.Duplex.Echo
import CppNet.Duplex.Schedule

/-!
# What the full-duplex server hands to the socket

A message sent on an idle session is handed to `async_write` as it was given to
`Send`; one that had to wait is handed over as the node made of it. The node has
the bytes, but `MsgNode(char* msg, int max_len)` does not set `max_len_`, from
which `HandleWrite` takes the length. So a waiting message is handed over as it
was sent exactly if the memory of its node happened to hold its length
(`peek_node_eq_some_iff`), and a run hands over the messages it was given
exactly if this is so for each message that had to wait
(`handed_messages_iff`).
-/

namespace CppNet.Duplex

open FullDuplex (MsgNode)

/-- The `k`-th `async_write` was given the bytes of the `k`-th message. -/
def Faithful (s : CSession MsgNode) : Prop :=
  s.handed = (s.sent.take s.handed.length).map some

instance : DecidablePred Faithful := fun _ => inferInstanceAs (Decidable (_ = _))

/-- If a write succeeds and a message waits behind it, the `max_len_` of that node
happens to be its length. -/
def KnowsLength (s : CSession MsgNode) : Event → Prop
  | .completion (.writeDone _ false) =>
      ∀ next ∈ s.sendQueue[1]?, toSize next.maxLen = next.data.length
  | _ => True

instance : ∀ s e, Decidable (KnowsLength s e)
  | s, .completion (.writeDone _ false) =>
      inferInstanceAs (Decidable (∀ next ∈ s.sendQueue[1]?, _))
  | _, .completion (.writeDone _ true) | _, .completion (.readDone ..)
  | _, .completion (.transfer _) | _, .send .. => inferInstanceAs (Decidable True)

theorem peek_node_eq_some_iff (s : CSession MsgNode) (node : MsgNode) (size : Nat) :
    s.peek (.node node) size = some node.data ↔ size = node.data.length := by
  show (if size ≤ node.data.length then some (node.data.take size) else none) = _ ↔ _
  constructor
  · intro hpeek
    split at hpeek
    · have hlength := congrArg List.length (Option.some.inj hpeek)
      rw [List.length_take] at hlength
      omega
    · cases hpeek
  · rintro rfl
    rw [if_pos (Nat.le_refl _), List.take_length]

/-! ## The relation between queue and record -/

/-- Every message was handed over and none waits, or the messages that were handed
over end with the one of the front node and the others wait behind it. -/
inductive Keeps (s : CSession MsgNode) : Prop
  | idle (hqueue : s.sendQueue = []) (hhanded : s.handed = s.sent.map some)
  | busy (front : MsgNode) (rest : List MsgNode) (earlier : List Bytes)
      (hqueue : s.sendQueue = front :: rest)
      (hsent : s.sent = earlier ++ front.data :: rest.map MsgNode.data)
      (hhanded : s.handed = (earlier ++ [front.data]).map some)

theorem Keeps.faithful {s : CSession MsgNode} (h : Keeps s) : Faithful s := by
  unfold Faithful
  cases h with
  | idle hqueue hhanded => rw [hhanded, List.length_map, List.take_length]
  | busy front rest earlier hqueue hsent hhanded =>
      have hsplit : s.sent = (earlier ++ [front.data]) ++ rest.map MsgNode.data := by
        rw [hsent, List.append_assoc, List.singleton_append]
      rw [hhanded, List.length_map, hsplit, List.take_left]

theorem Keeps.congr {s t : CSession MsgNode} (h : Keeps s)
    (hqueue : t.sendQueue = s.sendQueue) (hsent : t.sent = s.sent)
    (hhanded : t.handed = s.handed) : Keeps t := by
  cases h with
  | idle hidle hall => exact .idle (hqueue.trans hidle) (by rw [hhanded, hsent, hall])
  | busy front rest earlier hbusy hall hsome =>
      exact .busy front rest earlier (hqueue.trans hbusy) (hsent.trans hall)
        (hhanded.trans hsome)

/-- `Send` with a message that lies within its array. -/
theorem keeps_send {s : CSession MsgNode} (h : Keeps s) (ptr : Ptr MsgNode) {n : Int}
    (hn : toSize n ≤ (s.mem ptr).length) (uninitialised : Int) :
    Keeps (s.send ptr n uninitialised) := by
  cases h with
  | idle hqueue hhanded =>
      rw [CSession.send_of_idle hqueue]
      refine .busy (MessageNode.make (s.mem ptr) n uninitialised) [] s.sent rfl rfl ?_
      have hpeek : s.peek ptr (toSize n) = some ((s.mem ptr).take (toSize n)) := if_pos hn
      rw [List.map_append, ← hhanded, List.map_singleton, FullDuplex.make_data, ← hpeek]
      cases ptr <;> rfl
  | busy front rest earlier hqueue hsent hhanded =>
      have hpending : s.sendQueue ≠ [] := by
        rw [hqueue]
        exact List.cons_ne_nil _ _
      rw [CSession.send_of_pending hpending]
      refine .busy front (rest ++ [MessageNode.make (s.mem ptr) n uninitialised]) earlier
        ?_ ?_ hhanded
      · rw [hqueue]
        rfl
      · rw [hsent, List.map_append, List.map_singleton, FullDuplex.make_data,
          List.append_assoc]
        rfl

/-! ## Completions -/

theorem keeps_readDone {s : CSession MsgNode} (h : Keeps s) {error : Bool} {bytes : Bytes}
    {uninitialised : Int} {window : Option Transfer} {r : CSession MsgNode × Bool}
    (hdone : s.complete (.readDone error bytes uninitialised window) = some r) :
    Keeps r.1 := by
  have hfill : Keeps (s.fill bytes) := h.congr rfl rfl rfl
  cases error with
  | true =>
      obtain ⟨-, rfl⟩ := CSession.readFailed_cases hdone
      exact hfill
  | false =>
      obtain ⟨t, hbytes, hwindow, rfl⟩ := CSession.readDone_cases hdone
      have hmoved := CSession.inWindow_moved hwindow
      have hroom : toSize (toInt bytes.length) ≤ ((s.fill bytes).mem .data).length := by
        rw [toSize_length hbytes, CSession.fill_mem_data, List.length_append]
        omega
      exact (keeps_send hfill .data hroom uninitialised).congr hmoved.sendQueue hmoved.sent
        hmoved.handed

/-- A successful write hands over the next message, if there is one, with the length
found in its node. -/
theorem keeps_writeDone {s : CSession MsgNode} (h : Keeps s) {index : Nat}
    {r : CSession MsgNode × Bool} (hdone : s.complete (.writeDone index false) = some r) :
    (s.sendQueue[1]? = none ∧ Keeps r.1) ∨ ∃ next rest messages, s.sendQueue[1]? = some next
      ∧ r.1.sendQueue = next :: rest
      ∧ r.1.sent = messages ++ next.data :: rest.map MsgNode.data
      ∧ r.1.handed = messages.map some ++ [s.peek (.node next) (toSize next.maxLen)] := by
  obtain ⟨op, -, -, rfl⟩ := CSession.writeDone_cases hdone
  cases h with
  | idle hqueue hhanded =>
      left
      simp only [CSession.handleWrite, Bool.false_eq_true, if_false, hqueue]
      exact ⟨rfl, .idle rfl hhanded⟩
  | busy front rest earlier hqueue hsent hhanded =>
      simp only [CSession.handleWrite, Bool.false_eq_true, if_false, hqueue]
      cases rest with
      | nil =>
          left
          refine ⟨rfl, .idle rfl ?_⟩
          show s.handed = s.sent.map some
          rw [hhanded, hsent]
          rfl
      | cons next rest =>
          right
          refine ⟨next, rest, earlier ++ [front.data], rfl, rfl, ?_, ?_⟩
          · show s.sent = _
            rw [hsent, List.append_assoc]
            rfl
          · show s.handed ++ [_] = _
            rw [hhanded]
            rfl

/-! ## Runs -/

theorem keeps_step {s t : CSession MsgNode} {e : Event} (h : Keeps s) (hlen : KnowsLength s e)
    (hstep : step s e = some t) : Keeps t := by
  rcases step_cases hstep with ⟨msg, uninitialised, rfl, hmsg, rfl⟩ | ⟨c, r, rfl, hr, rfl⟩
  · refine keeps_send h (.caller msg) ?_ uninitialised
    rw [toSize_natCast (by omega)]
    exact Nat.le_refl _
  · cases c with
    | readDone error bytes uninitialised window => exact keeps_readDone h hr
    | transfer x =>
        obtain ⟨t, hx, rfl⟩ := Option.map_eq_some_iff.mp hr
        have hmoved := CSession.transfer_moved hx
        exact h.congr hmoved.sendQueue hmoved.sent hmoved.handed
    | writeDone index error =>
        cases error with
        | false =>
            rcases keeps_writeDone h hr with
              ⟨-, hkeeps⟩ | ⟨next, rest, messages, hnext, hqueue, hsent, hhanded⟩
            · exact hkeeps
            · refine .busy next rest messages hqueue hsent ?_
              rw [hhanded, (peek_node_eq_some_iff s next _).mpr (hlen next hnext),
                List.map_append]
              rfl
        | true =>
            obtain ⟨op, -, -, rfl⟩ := CSession.writeDone_cases hr
            exact h.congr rfl rfl rfl

/-- A waiting message whose node has another length is not handed over as it was
sent. -/
theorem not_faithful {s t : CSession MsgNode} {e : Event} (h : Keeps s)
    (hlen : ¬ KnowsLength s e) (hstep : step s e = some t) : ¬ Faithful t := by
  rcases step_cases hstep with ⟨msg, uninitialised, rfl, -, -⟩ | ⟨c, r, rfl, hr, rfl⟩
  · exact (hlen trivial).elim
  · cases c with
    | readDone error bytes uninitialised window => exact (hlen trivial).elim
    | transfer x => exact (hlen trivial).elim
    | writeDone index error =>
        cases error with
        | true => exact (hlen trivial).elim
        | false =>
            intro hfaithful
            refine hlen fun node hnode => ?_
            rcases keeps_writeDone h hr with
              ⟨hnone, -⟩ | ⟨next, rest, messages, hnext, -, hsent, hhanded⟩
            · rw [hnone] at hnode
              cases hnode
            · obtain rfl : next = node := Option.some.inj (hnext.symm.trans hnode)
              have hsplit : r.1.sent = (messages ++ [next.data]) ++ rest.map MsgNode.data := by
                rw [hsent, List.append_assoc, List.singleton_append]
              have hcount : r.1.handed.length = (messages ++ [next.data]).length := by
                rw [hhanded, List.length_append, List.length_map, List.length_append]
                rfl
              unfold Faithful at hfaithful
              rw [hcount, hsplit, List.take_left, hhanded, List.map_append] at hfaithful
              have hpeek := List.append_cancel_left hfaithful
              exact (peek_node_eq_some_iff s next _).mp (List.singleton_inj.mp hpeek)

/-- The messages are handed over as they were sent exactly in the runs where each
message that had to wait finds its length in the memory of its node. -/
theorem handed_messages_iff (es : List Event) :
    Machine.Throughout step Faithful CSession.started es ↔
      Machine.Along step KnowsLength CSession.started es :=
  Machine.throughout_iff_along Keeps.faithful keeps_step not_faithful (.idle rfl rfl)

/-- `"B"` waits behind `"A"`, and its node holds 0. -/
theorem handed_nothing :
    ¬ Machine.Throughout step Faithful CSession.started
      [.send [65] 0, .send [66] 0, .completion (.transfer ⟨0, 1, []⟩),
        .completion (.writeDone 0 false)] := by
  decide

end CppNet.Duplex
