import CppNet.Cxx
import CppNet.Lib.Machine
import CppNet.Lib.Pipeline

/-!
# The blocking client and server

`main` of `sync_client.cpp` sends one line and reads as many bytes as it has sent;
`CSession` of `sync_server.cpp` runs for each connection in a thread of its own and
echoes what each `read_some` returns, until the peer has closed.

Both block in their calls. A program is modelled by its variables and the call it
stands in, and a step of it by what that call does next (`Call`). Next to the new
state a step gives the bytes it has put on the socket. The programs are translated
by themselves, with all that a call can report; what TCP makes of the calls of two
connected programs is said for the `System` of both.
-/

namespace CppNet.Sync

open Pipeline (Channel)

/-- `max_length` of the server and `MAX_LENGTH` of the client. -/
def maxLength : Nat := 1024

inductive ReadResult
  | bytes (bytes : Bytes)
  | eof
  | error
deriving Repr, DecidableEq

/-- What the call a program stands in does next: a `read_some` comes back, a part of a
`write` goes out or fails to, or the call returns. -/
inductive Call
  | read (result : ReadResult)
  | write (count : Nat)
  | writeFails
  | returns
deriving Repr, DecidableEq

/-! ## The server -/

/-- Where `CSession` stands: in `read_some`, or in the `write` of the first `length` bytes
of `data`, `done` of which are out; or behind its loop. -/
inductive Position
  | reading
  | writing (length done : Nat)
  | ended
deriving Repr, DecidableEq

structure CSession where
  data : Bytes
  position : Position
deriving Repr, DecidableEq

namespace CSession

/-- The loop begins again: `data` is cleared. -/
def enter : CSession where
  data := List.replicate maxLength 0
  position := .reading

/-- `read_some` has put `bytes` at the front of `data`; they are printed and echoed. -/
def fill (s : CSession) (bytes : Bytes) : CSession where
  data := bytes ++ s.data.drop bytes.length
  position := .writing bytes.length 0

def step (s : CSession) : Call → Option (CSession × Bytes)
  | .read (.bytes bytes) =>
      if s.position = .reading ∧ bytes ≠ [] ∧ bytes.length ≤ maxLength then
        some (s.fill bytes, [])
      else none
  -- `break`; any other error is thrown, and caught behind the loop
  | .read .eof | .read .error =>
      if s.position = .reading then some ({ s with position := .ended }, []) else none
  | .write count =>
      match s.position with
      | .writing length done =>
          if 0 < count ∧ done + count ≤ length then
            some ({ s with position := .writing length (done + count) },
              (s.data.drop done).take count)
          else none
      | .reading | .ended => none
  | .writeFails =>
      match s.position with
      | .writing length done =>
          if done < length then some ({ s with position := .ended }, []) else none
      | .reading | .ended => none
  | .returns =>
      match s.position with
      | .writing length done => if done = length then some (enter, []) else none
      | .reading | .ended => none

/-- What is left of the `write`. -/
def unwritten (s : CSession) : Bytes :=
  match s.position with
  | .writing length done => (s.data.drop done).take (length - done)
  | .reading | .ended => []

end CSession

/-! ## The client -/

/-- Where `main` stands: in `write`, in `read`, in `getchar` with the reply printed; or it
has left its block, and the socket is closed. -/
inductive Stage
  | writing
  | reading
  | replied
  | exited
deriving Repr, DecidableEq

/-- `request` is the array; `reply` are the bytes `read` has put into the other one. -/
structure Client where
  request : Bytes
  requestLength : Nat
  sent : Nat := 0
  reply : Bytes := []
  stage : Stage := .writing
deriving Repr, DecidableEq

/-- `std::cin.getline(request, MAX_LENGTH)`, for the line that was entered. -/
def getline (memory line : Bytes) : Bytes :=
  let line := line.take (maxLength - 1)
  line ++ 0 :: memory.drop (line.length + 1)

def strlen (str : Bytes) : Except Fault Nat := (cString str).map List.length

namespace Client

/-- `main` with its connection established, up to the call of `write`. -/
def start (memory line : Bytes) : Except Fault Client :=
  let request := getline memory line
  (strlen request).map fun requestLength => { request, requestLength }

def step (c : Client) : Call → Option (Client × Bytes)
  | .read (.bytes bytes) =>
      if c.stage = .reading ∧ bytes ≠ [] ∧ c.reply.length + bytes.length ≤ c.requestLength then
        some ({ c with reply := c.reply ++ bytes }, [])
      else none
  -- thrown, and caught behind the block
  | .read .eof | .read .error =>
      if c.stage = .reading ∧ c.reply.length < c.requestLength then
        some ({ c with stage := .exited }, [])
      else none
  | .write count =>
      if c.stage = .writing ∧ 0 < count ∧ c.sent + count ≤ c.requestLength then
        some ({ c with sent := c.sent + count }, (c.request.drop c.sent).take count)
      else none
  | .writeFails =>
      if c.stage = .writing ∧ c.sent < c.requestLength then
        some ({ c with stage := .exited }, [])
      else none
  | .returns =>
      match c.stage with
      | .writing =>
          if c.sent = c.requestLength then some ({ c with stage := .reading }, []) else none
      | .reading =>
          if c.reply.length = c.requestLength then some ({ c with stage := .replied }, [])
          else none
      | .replied => some ({ c with stage := .exited }, [])
      | .exited => none

/-- What is left of the `write`. -/
def unsent (c : Client) : Bytes := (c.request.drop c.sent).take (c.requestLength - c.sent)

end Client

/-! ## The two of them connected -/

structure System where
  client : Client
  server : CSession := .enter
  toServer : Channel Byte := {}
  toClient : Channel Byte := {}
deriving Repr, DecidableEq

def System.start (memory line : Bytes) : Except Fault System :=
  (Client.start memory line).map fun client => { client }

/-- One of the programs goes on with its call, or TCP delivers bytes of one direction. -/
inductive Event
  | client (call : Call)
  | server (call : Call)
  | toServer (count : Nat)
  | toClient (count : Nat)
deriving Repr, DecidableEq

/-- What TCP has for a call of the receiver of `c`: a read gets what has arrived, or the
end of the stream, once the sender has closed and everything was read. Nothing fails. -/
def transport (c : Channel Byte) (closed : Bool) : Call → Option (Channel Byte)
  | .read (.bytes bytes) => c.receive bytes
  | .read .eof => if closed = true ∧ c.IsEmpty then some c else none
  | .read .error | .writeFails => none
  | .write _ | .returns => some c

def step (s : System) : Event → Option System
  | .client call =>
      (s.client.step call).bind fun (client, piece) =>
        (transport s.toClient (s.server.position = .ended) call).map fun toClient =>
          { s with client, toClient, toServer := s.toServer.send piece }
  | .server call =>
      (s.server.step call).bind fun (server, piece) =>
        (transport s.toServer (s.client.stage = .exited) call).map fun toServer =>
          { s with server, toServer, toClient := s.toClient.send piece }
  | .toServer count => (s.toServer.deliver count).map fun toServer => { s with toServer }
  | .toClient count => (s.toClient.deliver count).map fun toClient => { s with toClient }

/-! ## What a step does -/

namespace CSession

variable {s : CSession} {r : CSession × Bytes}

theorem read_cases {bytes : Bytes} (h : s.step (.read (.bytes bytes)) = some r) :
    s.position = .reading ∧ bytes ≠ [] ∧ bytes.length ≤ maxLength ∧ r = (s.fill bytes, []) := by
  unfold step at h
  dsimp only at h
  split at h
  · rename_i hguard
    exact ⟨hguard.1, hguard.2.1, hguard.2.2, (Option.some.inj h).symm⟩
  · cases h

theorem eof_cases (h : s.step (.read .eof) = some r) :
    s.position = .reading ∧ r = ({ s with position := .ended }, []) := by
  unfold step at h
  dsimp only at h
  split at h
  · rename_i hreading
    exact ⟨hreading, (Option.some.inj h).symm⟩
  · cases h

theorem write_cases {count : Nat} (h : s.step (.write count) = some r) :
    ∃ length done, s.position = .writing length done ∧ 0 < count ∧ done + count ≤ length
      ∧ r = ({ s with position := .writing length (done + count) },
        (s.data.drop done).take count) := by
  unfold step at h
  dsimp only at h
  split at h
  · rename_i length done hposition
    split at h
    · rename_i hcount
      exact ⟨length, done, hposition, hcount.1, hcount.2, (Option.some.inj h).symm⟩
    · cases h
  all_goals cases h

theorem returns_cases (h : s.step .returns = some r) :
    ∃ length, s.position = .writing length length ∧ r = (enter, []) := by
  unfold step at h
  dsimp only at h
  split at h
  · rename_i length done hposition
    split at h
    · rename_i hdone
      subst hdone
      exact ⟨done, hposition, (Option.some.inj h).symm⟩
    · cases h
  all_goals cases h

end CSession

namespace Client

variable {c : Client} {r : Client × Bytes}

theorem read_cases {bytes : Bytes} (h : c.step (.read (.bytes bytes)) = some r) :
    c.stage = .reading ∧ bytes ≠ [] ∧ c.reply.length + bytes.length ≤ c.requestLength
      ∧ r = ({ c with reply := c.reply ++ bytes }, []) := by
  unfold step at h
  dsimp only at h
  split at h
  · rename_i hguard
    exact ⟨hguard.1, hguard.2.1, hguard.2.2, (Option.some.inj h).symm⟩
  · cases h

theorem eof_cases (h : c.step (.read .eof) = some r) : c.stage = .reading := by
  unfold step at h
  dsimp only at h
  split at h
  · rename_i hguard
    exact hguard.1
  · cases h

theorem write_cases {count : Nat} (h : c.step (.write count) = some r) :
    c.stage = .writing ∧ 0 < count ∧ c.sent + count ≤ c.requestLength
      ∧ r = ({ c with sent := c.sent + count }, (c.request.drop c.sent).take count) := by
  unfold step at h
  dsimp only at h
  split at h
  · rename_i hguard
    exact ⟨hguard.1, hguard.2.1, hguard.2.2, (Option.some.inj h).symm⟩
  · cases h

/-- The client goes on to its next call when it is done with this one. -/
theorem returns_cases (h : c.step .returns = some r) :
    (c.stage = .writing ∧ c.sent = c.requestLength ∧ r = ({ c with stage := .reading }, []))
      ∨ (c.stage = .reading ∧ c.reply.length = c.requestLength
        ∧ r = ({ c with stage := .replied }, []))
      ∨ (c.stage = .replied ∧ r = ({ c with stage := .exited }, [])) := by
  unfold step at h
  dsimp only at h
  split at h
  · rename_i hstage
    split at h
    · rename_i hsent
      exact .inl ⟨hstage, hsent, (Option.some.inj h).symm⟩
    · cases h
  · rename_i hstage
    split at h
    · rename_i hreply
      exact .inr (.inl ⟨hstage, hreply, (Option.some.inj h).symm⟩)
    · cases h
  · rename_i hstage
    exact .inr (.inr ⟨hstage, (Option.some.inj h).symm⟩)
  · cases h

end Client

/-- A call that TCP lets go on: a read of what has arrived, or of the end of the stream;
or it has nothing to do with the incoming direction. -/
theorem transport_cases {c d : Channel Byte} {closed : Bool} {call : Call}
    (h : transport c closed call = some d) :
    (∃ bytes, call = .read (.bytes bytes) ∧ c.receive bytes = some d)
      ∨ (call = .read .eof ∧ closed = true ∧ c.IsEmpty ∧ d = c)
      ∨ ((∃ count, call = .write count) ∧ d = c)
      ∨ (call = .returns ∧ d = c) := by
  unfold transport at h
  split at h
  · rename_i bytes
    exact .inl ⟨bytes, rfl, h⟩
  · split at h
    · rename_i hend
      exact .inr (.inl ⟨rfl, hend.1, hend.2, (Option.some.inj h).symm⟩)
    · cases h
  · cases h
  · cases h
  · exact .inr (.inr (.inl ⟨⟨_, rfl⟩, (Option.some.inj h).symm⟩))
  · exact .inr (.inr (.inr ⟨rfl, (Option.some.inj h).symm⟩))

/-- The steps there are: a call of one of the programs, with what TCP has for it, or a
delivery. -/
theorem step_cases {s t : System} {e : Event} (h : step s e = some t) :
    (∃ call client piece toClient, e = .client call ∧ s.client.step call = some (client, piece)
        ∧ transport s.toClient (s.server.position = .ended) call = some toClient
        ∧ t = { s with client, toClient, toServer := s.toServer.send piece })
      ∨ (∃ call server piece toServer, e = .server call
        ∧ s.server.step call = some (server, piece)
        ∧ transport s.toServer (s.client.stage = .exited) call = some toServer
        ∧ t = { s with server, toServer, toClient := s.toClient.send piece })
      ∨ (∃ count toServer, e = .toServer count ∧ s.toServer.deliver count = some toServer
        ∧ t = { s with toServer })
      ∨ (∃ count toClient, e = .toClient count ∧ s.toClient.deliver count = some toClient
        ∧ t = { s with toClient }) := by
  cases e with
  | client call =>
      obtain ⟨⟨client, piece⟩, hclient, h⟩ := Option.bind_eq_some_iff.mp h
      obtain ⟨toClient, htransport, rfl⟩ := Option.map_eq_some_iff.mp h
      exact .inl ⟨call, client, piece, toClient, rfl, hclient, htransport, rfl⟩
  | server call =>
      obtain ⟨⟨server, piece⟩, hserver, h⟩ := Option.bind_eq_some_iff.mp h
      obtain ⟨toServer, htransport, rfl⟩ := Option.map_eq_some_iff.mp h
      exact .inr (.inl ⟨call, server, piece, toServer, rfl, hserver, htransport, rfl⟩)
  | toServer count =>
      obtain ⟨toServer, hdeliver, rfl⟩ := Option.map_eq_some_iff.mp h
      exact .inr (.inr (.inl ⟨count, toServer, rfl, hdeliver, rfl⟩))
  | toClient count =>
      obtain ⟨toClient, hdeliver, rfl⟩ := Option.map_eq_some_iff.mp h
      exact .inr (.inr (.inr ⟨count, toClient, rfl, hdeliver, rfl⟩))

end CppNet.Sync
