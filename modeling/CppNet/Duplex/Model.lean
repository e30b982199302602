import CppNet.Cxx
import CppNet.Lib.Machine

/-!
# Full-duplex sessions

`CSession` of the servers `03_full_duplex_server` and `04_sticky_packs`. The
two differ in their `MsgNode` only, so the session is written once, over a type
of message nodes (`MessageNode`), and each server has its instance of it.

A session has one array `data_` that it receives into, a send queue of message
nodes, and what boost::asio holds for it: outstanding reads into `data_`, and
outstanding calls of `async_write`. A write knows where its buffer lies (`Ptr`)
and how much of it is out; each transfer reads that memory at the time it
happens. What lies behind an array, should a write run past its end, is part of
the transfer, and so is what a constructor leaves uninitialised part of the
event that runs it.

`async_write` may send a part of its buffer at once, before it returns. The
completion of a read therefore carries a transfer that takes place between the
call of `Send` and the `memset` that follows it.

Callbacks return the session together with whether they called
`server_->ClearSession(uuid_)`.
-/

namespace CppNet.Duplex

/-- `max_length` of `CSession`. -/
def maxLength : Nat := 1024

/-! ## Message nodes -/

/-- What `CSession` uses of its `MsgNode`. The last argument of `make` is what
`max_len_` happens to hold: no constructor sets it. -/
class MessageNode (Node : Type) where
  /-- `MsgNode(char* msg, int max_len)`. -/
  make : Bytes → Int → Int → Node
  /-- The array at `data_`. -/
  data : Node → Bytes
  /-- `max_len_`. -/
  maxLen : Node → Int

namespace FullDuplex

/-- `MsgNode` of `03_full_duplex_server`. -/
structure MsgNode where
  maxLen : Int
  data : Bytes
deriving Repr, DecidableEq

def MsgNode.make (msg : Bytes) (maxLen : Int) (uninitialised : Int) : MsgNode :=
  { maxLen := uninitialised, data := msg.take (toSize maxLen) }

instance : MessageNode MsgNode := ⟨MsgNode.make, MsgNode.data, MsgNode.maxLen⟩

theorem make_data (msg : Bytes) (maxLen uninitialised : Int) :
    (MessageNode.make msg maxLen uninitialised : MsgNode).data = msg.take (toSize maxLen) := rfl

end FullDuplex

namespace StickyPacks

def headLength : Int := 2

/-- `MsgNode` of `04_sticky_packs`. The class declares no `max_len_`; the field
stands for whatever length `HandleWrite` finds in the node. -/
structure MsgNode where
  totalLen : Int
  maxLen : Int
  data : Bytes
deriving Repr, DecidableEq

/-- The first `HEAD_LENGTH` bytes of the representation of an `int`. -/
def header (n : Int) : Bytes :=
  [UInt8.ofNat (toSize n % 256), UInt8.ofNat (toSize n / 256 % 256)]

def MsgNode.make (msg : Bytes) (maxLen : Int) (unknown : Int) : MsgNode :=
  { totalLen := toInt (maxLen + headLength)
    maxLen := unknown
    data := header maxLen ++ msg.take (toSize maxLen) ++ [0] }

instance : MessageNode MsgNode := ⟨MsgNode.make, MsgNode.data, MsgNode.maxLen⟩

end StickyPacks

/-! ## The session -/

/-- Where the buffer of a write lies: in the `data_` of the session, in an array
of whoever called `Send`, or in the `data_` of a node. -/
inductive Ptr (Node : Type)
  | data
  | caller (msg : Bytes)
  | node (node : Node)
deriving Repr, DecidableEq

/-- An outstanding `async_write` of `size` bytes, `done` of which are out. -/
structure WriteOp (Node : Type) where
  ptr : Ptr Node
  size : Nat
  done : Nat := 0
deriving Repr, DecidableEq

/-- The outstanding write at `index` puts its next `count` bytes on the socket;
`beyond` is what lies in memory behind its array. -/
structure Transfer where
  index : Nat
  count : Nat
  beyond : Bytes := []
deriving Repr, DecidableEq

/-- The members of a session, the operations boost::asio holds for it, and the
record of the run: bytes received, bytes put on the socket, messages given to
`Send`, and for each `async_write` the contents its buffer had when it was
started (`none` if the buffer reaches past its array). -/
structure CSession (Node : Type) where
  data : Bytes := List.replicate maxLength 0
  sendQueue : List Node := []
  reads : Nat := 0
  writes : List (WriteOp Node) := []
  received : Bytes := []
  wire : Bytes := []
  sent : List Bytes := []
  handed : List (Option Bytes) := []
  broken : Bool := false
deriving Repr, DecidableEq

namespace CSession

variable {Node : Type} [MessageNode Node]

/-- The array a pointer points to. -/
def mem (s : CSession Node) : Ptr Node → Bytes
  | .data => s.data
  | .caller msg => msg
  | .node node => MessageNode.data node

/-- The contents of `buffer(ptr, size)`. -/
def peek (s : CSession Node) (ptr : Ptr Node) (size : Nat) : Option Bytes :=
  if size ≤ (s.mem ptr).length then some ((s.mem ptr).take size) else none

/-- The arrays of the outstanding writes, in the order in which they were started. -/
def ptrs (s : CSession Node) : List (Ptr Node) := s.writes.map WriteOp.ptr

def asyncReadSome (s : CSession Node) : CSession Node := { s with reads := s.reads + 1 }

def asyncWrite (s : CSession Node) (ptr : Ptr Node) (size : Nat) : CSession Node :=
  { s with
    writes := s.writes ++ [{ ptr, size }]
    handed := s.handed ++ [s.peek ptr size] }

/-- A part of an outstanding write goes out. -/
def transfer (s : CSession Node) (x : Transfer) : Option (CSession Node) :=
  match s.writes[x.index]? with
  | none => none
  | some op =>
      let bytes := ((s.mem op.ptr ++ x.beyond).drop op.done).take x.count
      if 0 < x.count ∧ op.done + x.count ≤ op.size ∧ bytes.length = x.count then
        some { s with
          writes := s.writes.set x.index { op with done := op.done + x.count }
          wire := s.wire ++ bytes }
      else none

def inWindow (s : CSession Node) : Option Transfer → Option (CSession Node)
  | none => some s
  | some x => s.transfer x

/-! ## Functions of the session -/

def start (s : CSession Node) : CSession Node := s.asyncReadSome

/-- A session right after `Start`. -/
def started : CSession Node := start {}

def send (s : CSession Node) (msg : Ptr Node) (maxLength : Int) (uninitialised : Int) :
    CSession Node :=
  let pending := 0 < s.sendQueue.length
  let node := MessageNode.make (s.mem msg) maxLength uninitialised
  let s := { s with
    sendQueue := s.sendQueue ++ [node]
    sent := s.sent ++ [(s.mem msg).take (toSize maxLength)] }
  if pending then s else s.asyncWrite msg (toSize maxLength)

def handleWrite (s : CSession Node) (error : Bool) : CSession Node × Bool :=
  if error then (s, true)
  else
    match s.sendQueue with
    | [] => ({ s with broken := true }, false)
    | _ :: rest =>
        let s := { s with sendQueue := rest }
        match rest with
        | [] => (s, false)
        | node :: _ =>
            (s.asyncWrite (.node node) (toSize (MessageNode.maxLen node)), false)

/-- `window` is the transfer between `Send` and `memset`. -/
def handleRead (s : CSession Node) (error : Bool) (bytesTransferred : Nat)
    (uninitialised : Int) (window : Option Transfer) : Option (CSession Node × Bool) :=
  if error then some (s, true)
  else
    ((s.send .data (toInt bytesTransferred) uninitialised).inWindow window).map fun s =>
      (asyncReadSome { s with data := List.replicate maxLength 0 }, false)

end CSession

/-! ## Runs -/

/-- What boost::asio does: it completes a read, moves bytes of a write, or
completes the write at `index`. -/
inductive Completion
  | readDone (error : Bool) (bytes : Bytes) (uninitialised : Int) (window : Option Transfer)
  | transfer (x : Transfer)
  | writeDone (index : Nat) (error : Bool)
deriving Repr, DecidableEq

inductive Event
  | send (msg : Bytes) (uninitialised : Int)
  | completion (c : Completion)
deriving Repr, DecidableEq

section Step

variable {Node : Type} [MessageNode Node]

/-- The read has put `bytes` at the front of `data_`. -/
def CSession.fill (s : CSession Node) (bytes : Bytes) : CSession Node :=
  { s with
    data := bytes ++ s.data.drop bytes.length
    received := s.received ++ bytes
    reads := s.reads - 1 }

theorem CSession.fill_mem_data (s : CSession Node) (bytes : Bytes) :
    (s.fill bytes).mem .data = bytes ++ s.data.drop bytes.length := rfl

/-- A successful read has between 1 and `max_length` bytes, a failed one none; a
write succeeds once all its bytes are out. -/
def CSession.complete (s : CSession Node) : Completion → Option (CSession Node × Bool)
  | .readDone error bytes uninitialised window =>
      if 0 < s.reads ∧ bytes.length ≤ maxLength ∧ (error = true ↔ bytes = []) then
        (s.fill bytes).handleRead error bytes.length uninitialised window
      else none
  | .transfer x => (s.transfer x).map fun s => (s, false)
  | .writeDone index error =>
      match s.writes[index]? with
      | none => none
      | some op =>
          if error = false → op.done = op.size then
            some (handleWrite { s with writes := s.writes.eraseIdx index } error)
          else none

/-- One session by itself. -/
def step (s : CSession Node) (e : Event) : Option (CSession Node) :=
  if s.broken then none
  else
    match e with
    | .send msg uninitialised =>
        if msg.length < 2 ^ 31 then
          some (s.send (.caller msg) msg.length uninitialised)
        else none
    | .completion c => (s.complete c).map Prod.fst

end Step

/-! ## What the functions do -/

namespace CSession

/-- `t` differs from `s` in how far the writes are and in what is on the wire. -/
structure Moved {Node : Type} (s t : CSession Node) : Prop where
  data : t.data = s.data
  sendQueue : t.sendQueue = s.sendQueue
  reads : t.reads = s.reads
  ptrs : t.ptrs = s.ptrs
  received : t.received = s.received
  sent : t.sent = s.sent
  handed : t.handed = s.handed
  broken : t.broken = s.broken

theorem Moved.refl {Node : Type} (s : CSession Node) : Moved s s :=
  ⟨rfl, rfl, rfl, rfl, rfl, rfl, rfl, rfl⟩

theorem Moved.writes_length {Node : Type} {s t : CSession Node} (h : Moved s t) :
    t.writes.length = s.writes.length := by
  have hlength := congrArg List.length h.ptrs
  rwa [CSession.ptrs, CSession.ptrs, List.length_map, List.length_map] at hlength

variable {Node : Type} [MessageNode Node] {s : CSession Node}

theorem send_of_idle (hqueue : s.sendQueue = []) (msg : Ptr Node) (n uninitialised : Int) :
    s.send msg n uninitialised =
      asyncWrite { s with
        sendQueue := [MessageNode.make (s.mem msg) n uninitialised]
        sent := s.sent ++ [(s.mem msg).take (toSize n)] } msg (toSize n) := by
  unfold send
  rw [hqueue]
  rfl

theorem send_of_pending (hqueue : s.sendQueue ≠ []) (msg : Ptr Node) (n uninitialised : Int) :
    s.send msg n uninitialised = { s with
      sendQueue := s.sendQueue ++ [MessageNode.make (s.mem msg) n uninitialised]
      sent := s.sent ++ [(s.mem msg).take (toSize n)] } := by
  unfold send
  exact if_pos (List.length_pos_iff.mpr hqueue)

/-- A transfer changes how much of a write is out, and the wire. -/
theorem transfer_cases {t : CSession Node} {x : Transfer} (h : s.transfer x = some t) :
    ∃ op bytes, s.writes[x.index]? = some op
      ∧ bytes = ((s.mem op.ptr ++ x.beyond).drop op.done).take x.count
      ∧ op.done + x.count ≤ op.size ∧ bytes.length = x.count
      ∧ t = { s with
          writes := s.writes.set x.index { op with done := op.done + x.count }
          wire := s.wire ++ bytes } := by
  unfold transfer at h
  split at h
  · cases h
  · rename_i op hop
    dsimp only at h
    split at h
    · rename_i hguard
      exact ⟨op, _, hop, rfl, hguard.2.1, hguard.2.2, (Option.some.inj h).symm⟩
    · cases h

theorem inWindow_cases {t : CSession Node} {window : Option Transfer}
    (h : s.inWindow window = some t) :
    (window = none ∧ t = s) ∨ ∃ x, window = some x ∧ s.transfer x = some t := by
  cases window with
  | none => exact .inl ⟨rfl, (Option.some.inj h).symm⟩
  | some x => exact .inr ⟨x, rfl, h⟩

theorem transfer_moved {t : CSession Node} {x : Transfer} (h : s.transfer x = some t) :
    Moved s t := by
  obtain ⟨op, bytes, hop, -, -, -, rfl⟩ := transfer_cases h
  refine ⟨rfl, rfl, rfl, ?_, rfl, rfl, rfl, rfl⟩
  have hptr : s.ptrs[x.index]? = some op.ptr := by
    rw [CSession.ptrs, List.getElem?_map, hop]
    rfl
  obtain ⟨hlt, hget⟩ := List.getElem?_eq_some_iff.mp hptr
  rw [CSession.ptrs, List.map_set]
  show s.ptrs.set x.index op.ptr = s.ptrs
  rw [← hget, List.set_getElem_self]

theorem inWindow_moved {t : CSession Node} {window : Option Transfer}
    (h : s.inWindow window = some t) : Moved s t := by
  rcases inWindow_cases h with ⟨-, rfl⟩ | ⟨x, -, hx⟩
  · exact .refl _
  · exact transfer_moved hx

/-- A read completion that succeeds: `Send`, the window, `memset`, the next read. -/
theorem readDone_cases {bytes : Bytes} {uninitialised : Int} {window : Option Transfer}
    {r : CSession Node × Bool}
    (h : s.complete (.readDone false bytes uninitialised window) = some r) :
    ∃ t, bytes.length ≤ maxLength
      ∧ ((s.fill bytes).send .data (toInt bytes.length) uninitialised).inWindow window = some t
      ∧ r = (asyncReadSome { t with data := List.replicate maxLength 0 }, false) := by
  unfold complete at h
  dsimp only at h
  split at h
  · rename_i hguard
    simp only [handleRead, Bool.false_eq_true, if_false, Option.map_eq_some_iff] at h
    obtain ⟨t, ht, rfl⟩ := h
    exact ⟨t, hguard.2.1, ht, rfl⟩
  · cases h

/-- A read completion that fails: nothing arrives, and the error exit is taken. -/
theorem readFailed_cases {bytes : Bytes} {uninitialised : Int} {window : Option Transfer}
    {r : CSession Node × Bool}
    (h : s.complete (.readDone true bytes uninitialised window) = some r) :
    bytes = [] ∧ r = (s.fill bytes, true) := by
  unfold complete at h
  dsimp only at h
  split at h
  · rename_i hguard
    exact ⟨hguard.2.2.mp rfl, (Option.some.inj h).symm⟩
  · cases h

theorem reads_pos {error : Bool} {bytes : Bytes} {uninitialised : Int}
    {window : Option Transfer} {r : CSession Node × Bool}
    (h : s.complete (.readDone error bytes uninitialised window) = some r) : 0 < s.reads := by
  unfold complete at h
  dsimp only at h
  split at h
  · rename_i hguard
    exact hguard.1
  · cases h

theorem writeDone_cases {index : Nat} {error : Bool} {r : CSession Node × Bool}
    (h : s.complete (.writeDone index error) = some r) :
    ∃ op, s.writes[index]? = some op ∧ (error = false → op.done = op.size)
      ∧ r = handleWrite { s with writes := s.writes.eraseIdx index } error := by
  unfold complete at h
  dsimp only at h
  split at h
  · cases h
  · rename_i op hop
    split at h
    · rename_i hdone
      exact ⟨op, hop, hdone, (Option.some.inj h).symm⟩
    · cases h

end CSession

theorem step_cases {Node : Type} [MessageNode Node] {s t : CSession Node} {e : Event}
    (h : step s e = some t) :
    (∃ msg uninitialised, e = .send msg uninitialised ∧ msg.length < 2 ^ 31
        ∧ t = s.send (.caller msg) msg.length uninitialised)
      ∨ ∃ c r, e = .completion c ∧ s.complete c = some r ∧ t = r.1 := by
  unfold step at h
  split at h
  · cases h
  cases e with
  | send msg uninitialised =>
      dsimp only at h
      split at h
      · rename_i hmsg
        exact .inl ⟨msg, uninitialised, rfl, hmsg, (Option.some.inj h).symm⟩
      · cases h
  | completion c =>
      obtain ⟨r, hr, rfl⟩ := Option.map_eq_some_iff.mp h
      exact .inr ⟨c, r, rfl, hr, rfl⟩

end CppNet.Duplex
