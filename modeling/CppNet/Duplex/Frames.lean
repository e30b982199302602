import CppNet.Duplex.Model

/-!
# What the sticky-packet server hands to the socket

`MsgNode` puts a header of two bytes in front of every message, and a receiver
needs it in front of every message. `HandleWrite` hands over the node, header
included, if the length it finds there is `total_len_` (`handed_queued`). `Send`
hands over its argument instead, the bare message, whenever it finds the queue
empty (`handed_idle`), as the first call in every run does. So the wire carries
the frames of the messages exactly as long as no message is sent
(`handed_frames_iff`).
-/

namespace CppNet.Duplex

open StickyPacks (MsgNode header headLength)

/-- The frame `MsgNode` builds for a message. -/
def frame (msg : Bytes) : Bytes :=
  let node := MsgNode.make msg msg.length 0
  node.data.take (toSize node.totalLen)

/-- What was handed to `async_write` are the frames of the messages whose turn it
was, in call order. -/
def Framed (s : CSession MsgNode) : Prop :=
  (s.handed.mapM id).map List.flatten =
    some ((s.sent.take s.handed.length).map frame).flatten

instance (s : CSession MsgNode) : Decidable (Framed s) :=
  inferInstanceAs (Decidable (_ = _))

/-- The step calls `Send`. -/
def Event.Sends : Event → Prop
  | .send .. => True
  | .completion (.readDone error ..) => error = false
  | .completion (.transfer _) | .completion (.writeDone ..) => False

/-! ## Frames -/

/-- The node of a message whose length leaves room for the header in an `int`. -/
theorem make_eq {n : Nat} (hn : n + 2 < 2 ^ 31) (msg : Bytes) (unknown : Int) :
    MsgNode.make msg n unknown
      = { totalLen := (n + 2 : Nat), maxLen := unknown,
          data := header n ++ msg.take n ++ [0] } := by
  have htotal : (n : Int) + headLength = (n + 2 : Nat) := rfl
  rw [MsgNode.make, htotal, toInt_of_lt hn, toSize_natCast (by omega)]

theorem length_header_append (n : Int) (msg : Bytes) :
    (header n ++ msg).length = msg.length + 2 := by
  rw [List.length_append]
  exact Nat.add_comm 2 msg.length

theorem frame_length_le {msg : Bytes} (h : msg.length < 2 ^ 31) :
    msg.length + 2 ≤ (frame msg).length := by
  have hsize : toSize (msg.length : Int) = msg.length := toSize_natCast (by omega)
  have htotal : msg.length + 2 ≤ toSize (toInt (msg.length + headLength)) := by
    unfold toInt toSize headLength
    rw [Int.bmod_def]
    split <;> omega
  simp only [frame, MsgNode.make, List.length_take, List.length_append, header, hsize,
    List.length_cons, List.length_nil]
  omega

/-- A frame is the header followed by the message. -/
theorem frame_eq {msg : Bytes} (h : msg.length + 2 < 2 ^ 31) :
    frame msg = header msg.length ++ msg := by
  unfold frame
  rw [make_eq h, List.take_length]
  dsimp only
  rw [toSize_natCast (by omega), List.take_left' (length_header_append msg.length msg)]

example : frame [65, 66, 67] = [3, 0, 65, 66, 67] := by decide

/-! ## The two paths -/

/-- `Send` on an idle session hands over the message itself. -/
theorem handed_idle {s : CSession MsgNode} (hqueue : s.sendQueue = []) (ptr : Ptr MsgNode)
    {n : Nat} (hn : n < 2 ^ 31) (hmem : n ≤ (s.mem ptr).length) (unknown : Int) :
    (s.send ptr (toInt n) unknown).handed = s.handed ++ [some ((s.mem ptr).take n)]
      ∧ (s.send ptr (toInt n) unknown).sent = s.sent ++ [(s.mem ptr).take n] := by
  rw [CSession.send_of_idle hqueue, toSize_toInt hn]
  refine ⟨?_, rfl⟩
  have hpeek : s.peek ptr n = some ((s.mem ptr).take n) := if_pos hmem
  rw [← hpeek]
  cases ptr <;> rfl

/-- A node is handed over as its frame exactly if the length found in it is that of
the frame. -/
theorem handed_queued (s : CSession MsgNode) {msg : Bytes} (h : msg.length + 2 < 2 ^ 31)
    (unknown : Int) :
    s.peek (.node (MessageNode.make msg msg.length unknown)) (toSize unknown)
        = some (frame msg) ↔ toSize unknown = msg.length + 2 := by
  have hdata : s.mem (.node (MessageNode.make msg msg.length unknown)) = frame msg ++ [0] := by
    show (MsgNode.make msg msg.length unknown).data = _
    rw [make_eq h, List.take_length, frame_eq h]
  have hlen : (frame msg).length = msg.length + 2 := by
    rw [frame_eq h, length_header_append]
  unfold CSession.peek
  rw [hdata]
  constructor
  · intro hpeek
    split at hpeek
    · have hcount := congrArg List.length (Option.some.inj hpeek)
      rw [List.length_take] at hcount
      omega
    · cases hpeek
  · intro hsize
    rw [hsize, ← hlen, if_pos (by simp), List.take_left]

/-! ## Runs -/

/-- Nothing has been sent yet. -/
structure Quiet (s : CSession MsgNode) : Prop where
  queue : s.sendQueue = []
  writes : s.writes = []
  handed : s.handed = []
  sent : s.sent = []

theorem quiet_started : Quiet CSession.started := ⟨rfl, rfl, rfl, rfl⟩

theorem Quiet.framed {s : CSession MsgNode} (h : Quiet s) : Framed s := by
  unfold Framed
  rw [h.handed, h.sent]
  rfl

/-- After the first message nothing is framed. -/
theorem not_framed {s : CSession MsgNode} {msg : Bytes} (hmsg : msg.length < 2 ^ 31)
    (hhanded : s.handed = [some msg]) (hsent : s.sent = [msg]) : ¬ Framed s := by
  unfold Framed
  rw [hhanded, hsent]
  intro h
  have heq : [msg].flatten = [frame msg].flatten := Option.some.inj h
  rw [List.flatten_singleton, List.flatten_singleton] at heq
  have hlen := frame_length_le hmsg
  rw [← heq] at hlen
  omega

theorem Quiet.transfer {s t : CSession MsgNode} (h : Quiet s) {x : Transfer} :
    s.transfer x ≠ some t := by
  intro ht
  obtain ⟨op, bytes, hop, -⟩ := CSession.transfer_cases ht
  rw [h.writes] at hop
  cases hop

theorem Quiet.step {s t : CSession MsgNode} {e : Event} (h : Quiet s) (hsend : ¬ e.Sends)
    (hstep : step s e = some t) : Quiet t := by
  rcases step_cases hstep with ⟨msg, unknown, rfl, -, -⟩ | ⟨c, r, rfl, hr, rfl⟩
  · exact (hsend trivial).elim
  · cases c with
    | readDone error bytes unknown window =>
        cases error with
        | false => exact (hsend rfl).elim
        | true =>
            obtain ⟨-, rfl⟩ := CSession.readFailed_cases hr
            exact ⟨h.queue, h.writes, h.handed, h.sent⟩
    | transfer x =>
        obtain ⟨t, ht, -⟩ := Option.map_eq_some_iff.mp hr
        exact (h.transfer ht).elim
    | writeDone index error =>
        obtain ⟨op, hop, -⟩ := CSession.writeDone_cases hr
        rw [h.writes] at hop
        cases hop

theorem Quiet.not_framed {s t : CSession MsgNode} {e : Event} (h : Quiet s) (hsend : e.Sends)
    (hstep : Duplex.step s e = some t) : ¬ Framed t := by
  rcases step_cases hstep with ⟨msg, unknown, rfl, hmsg, rfl⟩ | ⟨c, r, rfl, hr, rfl⟩
  · obtain ⟨hhanded, hsent⟩ := handed_idle h.queue (.caller msg) hmsg Nat.le.refl unknown
    rw [toInt_of_lt hmsg, h.handed] at hhanded
    rw [toInt_of_lt hmsg, h.sent] at hsent
    refine Duplex.not_framed hmsg (hhanded.trans ?_) (hsent.trans ?_)
    · exact congrArg (fun b => [some b]) List.take_length
    · exact congrArg (fun b => [b]) List.take_length
  · cases c with
    | readDone error bytes unknown window =>
        obtain rfl : error = false := hsend
        obtain ⟨u, hbytes, hu, rfl⟩ := CSession.readDone_cases hr
        have hlen : bytes.length < 2 ^ 31 := Nat.lt_of_le_of_lt hbytes (by decide)
        have hmem : ((s.fill bytes).mem .data).take bytes.length = bytes := by
          rw [CSession.fill_mem_data, List.take_left]
        obtain ⟨hhanded, hsent⟩ := handed_idle (s := s.fill bytes) h.queue .data hlen
          (by rw [CSession.fill_mem_data, List.length_append]; omega) unknown
        have hmoved := CSession.inWindow_moved hu
        rw [hmem] at hhanded hsent
        refine Duplex.not_framed hlen (hmoved.handed.trans (hhanded.trans ?_))
          (hmoved.sent.trans (hsent.trans ?_))
        · exact congrArg (· ++ [some bytes]) h.handed
        · exact congrArg (· ++ [bytes]) h.sent
    | transfer x => cases hsend
    | writeDone index error => cases hsend

/-- What is handed over are the frames of the messages exactly in the runs that
send none. -/
theorem handed_frames_iff (es : List Event) :
    Machine.Throughout step Framed CSession.started es ↔
      Machine.Along step (fun (_ : CSession MsgNode) e => ¬ e.Sends) CSession.started es := by
  refine Machine.throughout_iff_along Quiet.framed Quiet.step ?_ quiet_started
  intro s e t h hsend hstep
  exact h.not_framed (Classical.not_not.mp hsend) hstep

/-- `Send("A", 1)`. -/
theorem handed_bare : ¬ Machine.Throughout step Framed CSession.started [.send [65] 0] := by
  decide

end CppNet.Duplex
