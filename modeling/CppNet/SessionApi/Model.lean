import CppNet.Cxx
import CppNet.Lib.Machine

/-!
# The session API

`MsgNode` and `CSession` of `00_session_api`, and the socket under them.

The members of `CSession` come first in the state, then what boost::asio
holds for the session (the operations that are outstanding), then records of
the run that no source function reads: the bytes put on the socket, the bytes
taken from it, the strings the write calls were given.

An outstanding write keeps the bytes of its buffer, since no buffer changes
while a write from it is outstanding: nodes of the send queue are written
once, by their constructor, and callers are taken to leave their strings
alone. Where the buffer lies is kept apart from that, in `source`.

A completion names the outstanding operation it belongs to by position, and
reports what the socket may report: after a success between 1 and all of the
bytes offered (0 if none were), after an error none. Popping or reading the
front of an empty queue is undefined, so `broken` stops the machine.
-/

namespace CppNet.SessionApi

def kRecvSize : Int := 1024

structure MsgNode where
  /-- Tells the `msg_` arrays of the nodes on the send queue apart. -/
  addr : Nat := 0
  msg : Bytes
  totalLen : Int
  curLen : Int := 0
deriving Repr, DecidableEq

/-- `MsgNode(const char* msg, int total_len)`. -/
def MsgNode.ofMsg (addr : Nat) (msg : Bytes) (totalLen : Int) : MsgNode :=
  { addr, msg := msg.take (toSize totalLen), totalLen }

/-- `MsgNode(int total_len)`; `memory` is what the new array happens to hold. -/
def MsgNode.ofLen (memory : Bytes) (totalLen : Int) : MsgNode :=
  { msg := memory.take (toSize totalLen), totalLen }

/-- `buffer(msg_ + cur_len_, total_len_ - cur_len_)`, its contents. -/
def MsgNode.unsent (node : MsgNode) : Bytes :=
  (node.msg.drop (toSize node.curLen)).take (toSize (node.totalLen - node.curLen))

/-- `buffer(msg_, total_len_)`, its contents. -/
def MsgNode.whole (node : MsgNode) : Bytes := node.msg.take (toSize node.totalLen)

/-- `cur_len_ += bytes_transferred`. -/
def MsgNode.advance (node : MsgNode) (bytesTransferred : Nat) : MsgNode :=
  { node with curLen := toInt (node.curLen + bytesTransferred) }

/-- A read puts `bytes` into `msg_`, from `offset` on. -/
def MsgNode.fill (node : MsgNode) (offset : Nat) (bytes : Bytes) : MsgNode :=
  { node with
    msg := node.msg.take offset ++ bytes ++ node.msg.drop (offset + bytes.length) }

/-- Where the buffer of a write lies: in the caller's string, in the `msg_` of a
node on the send queue, or in the `msg_` of `send_node_`. -/
inductive Source
  | caller
  | queueNode (addr : Nat)
  | sendNode
deriving Repr, DecidableEq

/-- The callback a write was started with. -/
inductive Callback
  | writeCallBack
  | writeCallBackErr
deriving Repr, DecidableEq

structure WriteOp where
  source : Source
  offset : Int
  bytes : Bytes
  callback : Callback
deriving Repr, DecidableEq

/-- An outstanding read into the `msg_` of `recv_node_`. -/
structure ReadOp where
  offset : Nat
  size : Nat
deriving Repr, DecidableEq

structure CSession where
  sendNode : Option MsgNode := none
  recvNode : Option MsgNode := none
  sendQueue : List MsgNode := []
  sendPending : Bool := false
  recvPending : Bool := false
  writes : List WriteOp := []
  reads : List ReadOp := []
  wire : Bytes := []
  received : Bytes := []
  called : List Bytes := []
  broken : Bool := false
deriving Repr, DecidableEq

namespace CSession

/-! ## Starting operations -/

/-- `async_write_some` of a socket. -/
def asyncWriteSome (s : CSession) (op : WriteOp) : CSession :=
  { s with writes := s.writes ++ [op] }

/-- `async_send` of a socket, which may send a part of the buffer only. -/
def asyncSend (s : CSession) (op : WriteOp) : CSession :=
  { s with writes := s.writes ++ [op] }

/-- `async_read_some`, and `async_receive`, of a socket. -/
def asyncReadSome (s : CSession) (op : ReadOp) : CSession :=
  { s with reads := s.reads ++ [op] }

/-! ## Writing one message -/

def writeCallBackErr (s : CSession) (ec : Int) (bytesTransferred : Nat) : CSession :=
  if ec ≠ 0 then s
  else
    match s.sendNode with
    | none => { s with broken := true }
    | some node =>
        -- the sum is a `size_t`; `cur_len_` itself is not advanced
        if toSize (bytesTransferred + node.curLen) < toSize node.totalLen then
          s.asyncWriteSome ⟨.sendNode, node.curLen, node.unsent, .writeCallBackErr⟩
        else s

def writeToSocketErr (s : CSession) (buf : Bytes) : CSession :=
  -- `new char[total_len]` throws on a negative length
  if toInt buf.length < 0 then s
  else
    let node := MsgNode.ofMsg 0 buf (toInt buf.length)
    { s with sendNode := some node }.asyncWriteSome
      ⟨.sendNode, 0, node.whole, .writeCallBackErr⟩

/-! ## Writing through the queue -/

def writeCallBack (s : CSession) (ec : Int) (bytesTransferred : Nat) : CSession :=
  if ec ≠ 0 then s
  else
    match s.sendQueue with
    | [] => { s with broken := true }
    | front :: rest =>
        let sendData := front.advance bytesTransferred
        let s := { s with sendQueue := sendData :: rest }
        if sendData.curLen < sendData.totalLen then
          s.asyncWriteSome
            ⟨.queueNode sendData.addr, sendData.curLen, sendData.unsent, .writeCallBack⟩
        else
          let s := { s with sendQueue := rest }
          match rest with
          | [] => { s with sendPending := false }
          | next :: _ =>
              s.asyncWriteSome ⟨.queueNode next.addr, 0, next.whole, .writeCallBack⟩

/-- The body of `WriteToSocket` and `WriteAllToSocket`, which differ in the
function that starts the write. -/
def writeQueued (start : CSession → WriteOp → CSession) (s : CSession) (buf : Bytes) :
    CSession :=
  if toInt buf.length < 0 then s
  else
    let node := MsgNode.ofMsg s.called.length buf (toInt buf.length)
    let s := { s with sendQueue := s.sendQueue ++ [node], called := s.called ++ [buf] }
    if s.sendPending then s
    else { start s ⟨.caller, 0, buf, .writeCallBack⟩ with sendPending := true }

def writeToSocket (s : CSession) (buf : Bytes) : CSession :=
  writeQueued asyncWriteSome s buf

def writeAllToSocket (s : CSession) (buf : Bytes) : CSession :=
  writeQueued asyncSend s buf

/-! ## Reading -/

/-- The error code is not looked at. -/
def readCallBack (s : CSession) (_ec : Int) (bytesTransferred : Nat) : CSession :=
  match s.recvNode with
  | none => s
  | some node =>
      let node := node.advance bytesTransferred
      let s := { s with recvNode := some node }
      if node.curLen < node.totalLen then
        s.asyncReadSome ⟨toSize node.curLen, toSize (node.totalLen - node.curLen)⟩
      else { s with sendPending := false }

/-- The body of `ReadFromSocket` and `ReadAllFromSocket`. -/
def readInto (s : CSession) (memory : Bytes) : CSession :=
  if s.recvPending then s
  else
    let node := MsgNode.ofLen memory kRecvSize
    { { s with recvNode := some node }.asyncReadSome ⟨0, toSize node.totalLen⟩ with
      recvPending := true }

def readFromSocket (s : CSession) (memory : Bytes) : CSession := s.readInto memory

def readAllFromSocket (s : CSession) (memory : Bytes) : CSession := s.readInto memory

end CSession

/-! ## Runs -/

/-- A call of a member function, or the completion of the `i`-th outstanding
write or read. -/
inductive Event
  | writeToSocketErr (buf : Bytes)
  | writeToSocket (buf : Bytes)
  | writeAllToSocket (buf : Bytes)
  | readFromSocket (memory : Bytes)
  | readAllFromSocket (memory : Bytes)
  | writeDone (i : Nat) (ec : Int) (bytesTransferred : Nat)
  | readDone (i : Nat) (ec : Int) (bytes : Bytes)
deriving Repr, DecidableEq

/-- The counts a completion may report for a buffer of `size` bytes. -/
def Reportable (ec : Int) (size n : Nat) : Prop :=
  if ec = 0 then n ≤ size ∧ (n = 0 → size = 0) else n = 0

instance (ec : Int) (size n : Nat) : Decidable (Reportable ec size n) := by
  unfold Reportable
  infer_instance

/-- Run the callback of a write. -/
def CSession.call (s : CSession) (ec : Int) (n : Nat) : Callback → CSession
  | .writeCallBack => s.writeCallBack ec n
  | .writeCallBackErr => s.writeCallBackErr ec n

/-- The `i`-th outstanding write completes. -/
def CSession.writeDone (s : CSession) (i : Nat) (ec : Int) (n : Nat) : Option CSession :=
  match s.writes[i]? with
  | none => none
  | some op =>
      if Reportable ec op.bytes.length n then
        some (call
          { s with writes := s.writes.eraseIdx i, wire := s.wire ++ op.bytes.take n }
          ec n op.callback)
      else none

/-- The `i`-th outstanding read completes. Reads are only started once
`recv_node_` is set. -/
def CSession.readDone (s : CSession) (i : Nat) (ec : Int) (bytes : Bytes) :
    Option CSession :=
  match s.reads[i]?, s.recvNode with
  | some op, some node =>
      if Reportable ec op.size bytes.length then
        some (readCallBack
          { s with
            reads := s.reads.eraseIdx i
            received := s.received ++ bytes
            recvNode := some (node.fill op.offset bytes) }
          ec bytes.length)
      else none
  | _, _ => none

def step (s : CSession) (e : Event) : Option CSession :=
  if s.broken then none
  else
    match e with
    | .writeToSocketErr buf => some (s.writeToSocketErr buf)
    | .writeToSocket buf => some (s.writeToSocket buf)
    | .writeAllToSocket buf => some (s.writeAllToSocket buf)
    | .readFromSocket memory =>
        if memory.length = kRecvSize then some (s.readFromSocket memory) else none
    | .readAllFromSocket memory =>
        if memory.length = kRecvSize then some (s.readAllFromSocket memory) else none
    | .writeDone i ec n => s.writeDone i ec n
    | .readDone i ec bytes => s.readDone i ec bytes

/-! ## What a completion is -/

theorem CSession.writeDone_cases {s t : CSession} {i : Nat} {ec : Int} {n : Nat}
    (h : s.writeDone i ec n = some t) :
    ∃ op, s.writes[i]? = some op ∧ Reportable ec op.bytes.length n
      ∧ t = call
          { s with writes := s.writes.eraseIdx i, wire := s.wire ++ op.bytes.take n }
          ec n op.callback := by
  unfold CSession.writeDone at h
  split at h
  · cases h
  · rename_i op hop
    split at h
    · rename_i hn
      exact ⟨op, hop, hn, (Option.some.inj h).symm⟩
    · cases h

/-- The callbacks of the write side change no other member. -/
theorem CSession.call_frame (s : CSession) (ec : Int) (n : Nat) (callback : Callback) :
    ∃ queue pending writes broken, s.call ec n callback =
      { s with
        sendQueue := queue, sendPending := pending, writes := writes, broken := broken } := by
  cases callback with
  | writeCallBack =>
      simp only [CSession.call, CSession.writeCallBack]
      split
      · exact ⟨s.sendQueue, s.sendPending, s.writes, s.broken, rfl⟩
      · split
        · exact ⟨_, _, _, true, rfl⟩
        · split
          · exact ⟨_, _, _, _, rfl⟩
          · split
            · exact ⟨_, false, _, _, rfl⟩
            · exact ⟨_, _, _, _, rfl⟩
  | writeCallBackErr =>
      simp only [CSession.call, CSession.writeCallBackErr]
      split
      · exact ⟨s.sendQueue, s.sendPending, s.writes, s.broken, rfl⟩
      · split
        · exact ⟨_, _, _, true, rfl⟩
        · split
          · exact ⟨_, _, _, _, rfl⟩
          · exact ⟨s.sendQueue, s.sendPending, s.writes, s.broken, rfl⟩

theorem CSession.readDone_cases {s t : CSession} {i : Nat} {ec : Int} {bytes : Bytes}
    (h : s.readDone i ec bytes = some t) :
    ∃ op node, s.reads[i]? = some op ∧ s.recvNode = some node
      ∧ Reportable ec op.size bytes.length
      ∧ t = readCallBack
          { s with
            reads := s.reads.eraseIdx i
            received := s.received ++ bytes
            recvNode := some (node.fill op.offset bytes) }
          ec bytes.length := by
  unfold CSession.readDone at h
  split at h
  · rename_i op node hop hnode
    split at h
    · rename_i hn
      exact ⟨op, node, hop, hnode, hn, (Option.some.inj h).symm⟩
    · cases h
  · cases h

/-- The two members of each pair of calls do the same: `async_send` and
`async_receive` of a socket are `async_write_some` and `async_read_some`. -/
theorem step_cases {s t : CSession} {e : Event} (h : step s e = some t) :
    (∃ buf, e = .writeToSocketErr buf ∧ t = s.writeToSocketErr buf)
      ∨ (∃ buf, (e = .writeToSocket buf ∨ e = .writeAllToSocket buf)
        ∧ t = CSession.writeQueued CSession.asyncWriteSome s buf)
      ∨ (∃ memory, (e = .readFromSocket memory ∨ e = .readAllFromSocket memory)
        ∧ t = s.readInto memory)
      ∨ (∃ i ec n, e = .writeDone i ec n ∧ s.writeDone i ec n = some t)
      ∨ ∃ i ec bytes, e = .readDone i ec bytes ∧ s.readDone i ec bytes = some t := by
  unfold step at h
  split at h
  · cases h
  cases e with
  | writeToSocketErr buf => exact .inl ⟨buf, rfl, (Option.some.inj h).symm⟩
  | writeToSocket buf => exact .inr (.inl ⟨buf, .inl rfl, (Option.some.inj h).symm⟩)
  | writeAllToSocket buf => exact .inr (.inl ⟨buf, .inr rfl, (Option.some.inj h).symm⟩)
  | readFromSocket memory =>
      dsimp only at h
      split at h
      · exact .inr (.inr (.inl ⟨memory, .inl rfl, (Option.some.inj h).symm⟩))
      · cases h
  | readAllFromSocket memory =>
      dsimp only at h
      split at h
      · exact .inr (.inr (.inl ⟨memory, .inr rfl, (Option.some.inj h).symm⟩))
      · cases h
  | writeDone i ec n => exact .inr (.inr (.inr (.inl ⟨i, ec, n, rfl, h⟩)))
  | readDone i ec bytes => exact .inr (.inr (.inr (.inr ⟨i, ec, bytes, rfl, h⟩)))

end CppNet.SessionApi
