import CppNet.Cxx
import CppNet.Lib.Machine

/-!
# Half-duplex sessions

`CSession` of the servers `01_bad_echo_server` and `02_good_echo_server`: one
array `data_` that is read into, echoed from and cleared before the next read.
The two servers differ in what the callbacks hold of their session and in what
their error exits do with it, so the session is written once. `Capture` is what
a callback holds, and a handler returns the session together with whether it
took its error exit.

A write puts its bytes on the socket piece by piece, and each piece is read from
`data_` at the time it goes out. At any time one operation is outstanding, a
read or a write of what was received last (`Phase`); it follows that the session
echoes what it receives (`echoes`).
-/

namespace CppNet.HalfDuplex

/-- `max_length` of `CSession`. -/
def maxLength : Nat := 1024

/-- What a callback holds of its session: `this`, or also a `shared_ptr`. -/
inductive Capture
  | raw
  | shared
deriving Repr, DecidableEq

/-- An outstanding operation: a read into `data_`, or a write of its first `size`
bytes, `done` of which are out. -/
inductive Op
  | read (capture : Capture)
  | write (capture : Capture) (size done : Nat)
deriving Repr, DecidableEq

def Op.capture : Op → Capture
  | .read capture => capture
  | .write capture .. => capture

def Op.isWrite : Op → Bool
  | .read _ => false
  | .write .. => true

/-- `received` and `wire` are the bytes taken from the socket and put on it. -/
structure CSession where
  data : Bytes
  ops : List Op
  received : Bytes
  wire : Bytes
deriving Repr, DecidableEq

namespace CSession

/-- A session as its constructor leaves it. -/
def new : CSession where
  data := List.replicate maxLength 0
  ops := []
  received := []
  wire := []

def asyncReadSome (s : CSession) (capture : Capture) : CSession :=
  { s with ops := s.ops ++ [.read capture] }

def asyncWrite (s : CSession) (size : Nat) (capture : Capture) : CSession :=
  { s with ops := s.ops ++ [.write capture size 0] }

/-! ## Functions of the session -/

def start (s : CSession) : CSession := s.asyncReadSome .raw

/-- `self` is what the callback started here holds. -/
def handleRead (s : CSession) (error : Bool) (bytesTransferred : Nat) (self : Capture) :
    CSession × Bool :=
  if error then (s, true)
  else (s.asyncWrite bytesTransferred self, false)

def handleWrite (s : CSession) (error : Bool) (self : Capture) : CSession × Bool :=
  if error then (s, true)
  else (asyncReadSome { s with data := List.replicate maxLength 0 } self, false)

end CSession

/-! ## Runs -/

/-- What boost::asio does with the operation at `index`: it completes a read, moves
the next `count` bytes of a write, or completes a write. -/
inductive Completion
  | readDone (index : Nat) (error : Bool) (bytes : Bytes)
  | transfer (index count : Nat)
  | writeDone (index : Nat) (error : Bool)
deriving Repr, DecidableEq

/-- A completion with an error. -/
def Completion.fails : Completion → Bool
  | .readDone _ error _ | .writeDone _ error => error
  | .transfer .. => false

/-- What happens at a server: the outstanding accept completes and the next session is
made, or something happens to an operation of the session `u`. -/
inductive ServerEvent (U : Type)
  | accept (error : Bool) (next : U)
  | completion (u : U) (c : Completion)
deriving Repr, DecidableEq

namespace CSession

/-- The operations that are outstanding all through the step. -/
def remaining (s : CSession) : Completion → List Op
  | .readDone index .. | .writeDone index _ => s.ops.eraseIdx index
  | .transfer .. => s.ops

/-- The read has put `bytes` at the front of `data_`. -/
def fill (s : CSession) (bytes : Bytes) : CSession :=
  { s with data := bytes ++ s.data.drop bytes.length, received := s.received ++ bytes }

/-- A successful read has between 1 and `max_length` bytes, a failed one none; a
write succeeds once all its bytes are out. -/
def complete (s : CSession) (self : Capture) : Completion → Option (CSession × Bool)
  | .readDone index error bytes =>
      match s.ops[index]? with
      | some (.read _) =>
          if bytes.length ≤ maxLength ∧ (error = true ↔ bytes = []) then
            some (handleRead { s.fill bytes with ops := s.ops.eraseIdx index } error
              bytes.length self)
          else none
      | _ => none
  | .transfer index count =>
      match s.ops[index]? with
      | some (.write capture size done) =>
          if 0 < count ∧ done + count ≤ size then
            some ({ s with
              ops := s.ops.set index (.write capture size (done + count))
              wire := s.wire ++ (s.data.drop done).take count }, false)
          else none
      | _ => none
  | .writeDone index error =>
      match s.ops[index]? with
      | some (.write _ size done) =>
          if error = false → done = size then
            some (handleWrite { s with ops := s.ops.eraseIdx index } error self)
          else none
      | _ => none

/-- A session right after `Start`. -/
def started : CSession := new.start

end CSession

/-- One session by itself. -/
def step (self : Capture) (s : CSession) (c : Completion) : Option CSession :=
  (s.complete self c).map Prod.fst

/-! ## What a completion is -/

namespace CSession

variable {s : CSession} {self : Capture} {r : CSession × Bool} {index : Nat}

theorem readDone_cases {error : Bool} {bytes : Bytes}
    (h : s.complete self (.readDone index error bytes) = some r) :
    ∃ capture, s.ops[index]? = some (.read capture) ∧ bytes.length ≤ maxLength
      ∧ r = handleRead { s.fill bytes with ops := s.ops.eraseIdx index } error bytes.length
          self := by
  unfold complete at h
  dsimp only at h
  split at h
  · rename_i capture hop
    split at h
    · rename_i hguard
      exact ⟨capture, hop, hguard.1, (Option.some.inj h).symm⟩
    · cases h
  · cases h

theorem transfer_cases {count : Nat} (h : s.complete self (.transfer index count) = some r) :
    ∃ capture size done, s.ops[index]? = some (.write capture size done)
      ∧ done + count ≤ size
      ∧ r = ({ s with
          ops := s.ops.set index (.write capture size (done + count))
          wire := s.wire ++ (s.data.drop done).take count }, false) := by
  unfold complete at h
  dsimp only at h
  split at h
  · rename_i capture size done hop
    split at h
    · rename_i hguard
      exact ⟨capture, size, done, hop, hguard.2, (Option.some.inj h).symm⟩
    · cases h
  · cases h

theorem writeDone_cases {error : Bool}
    (h : s.complete self (.writeDone index error) = some r) :
    ∃ capture size done, s.ops[index]? = some (.write capture size done)
      ∧ (error = false → done = size)
      ∧ r = handleWrite { s with ops := s.ops.eraseIdx index } error self := by
  unfold complete at h
  dsimp only at h
  split at h
  · rename_i capture size done hop
    split at h
    · rename_i hdone
      exact ⟨capture, size, done, hop, hdone, (Option.some.inj h).symm⟩
    · cases h
  · cases h

/-- Something has to be outstanding for anything to complete. -/
theorem complete_of_idle (hops : s.ops = []) (c : Completion) : s.complete self c = none := by
  unfold complete
  rw [hops]
  cases c <;> rfl

/-- While a read is outstanding, that read completes. -/
theorem complete_of_reading {capture : Capture} (hops : s.ops = [.read capture]) {c : Completion}
    (h : s.complete self c = some r) :
    ∃ error bytes, c = .readDone 0 error bytes
      ∧ r = handleRead { s.fill bytes with ops := [] } error bytes.length self := by
  cases c with
  | readDone index error bytes =>
      obtain ⟨capture', hop, -, rfl⟩ := readDone_cases h
      rw [Machine.eraseIdx_only hops hop]
      obtain rfl := (Machine.eq_only hops hop).1
      exact ⟨error, bytes, rfl, rfl⟩
  | transfer index count =>
      obtain ⟨capture', size, done, hop, -⟩ := transfer_cases h
      cases (Machine.eq_only hops hop).2
  | writeDone index error =>
      obtain ⟨capture', size, done, hop, -⟩ := writeDone_cases h
      cases (Machine.eq_only hops hop).2

/-- While a write is outstanding, that write goes on or completes. -/
theorem complete_of_writing {capture : Capture} {size done : Nat}
    (hops : s.ops = [.write capture size done]) {c : Completion}
    (h : s.complete self c = some r) :
    (∃ count, c = .transfer 0 count ∧ done + count ≤ size
        ∧ r = ({ s with
          ops := [.write capture size (done + count)]
          wire := s.wire ++ (s.data.drop done).take count }, false))
      ∨ ∃ error, c = .writeDone 0 error ∧ (error = false → done = size)
        ∧ r = handleWrite { s with ops := [] } error self := by
  cases c with
  | readDone index error bytes =>
      obtain ⟨capture', hop, -⟩ := readDone_cases h
      cases (Machine.eq_only hops hop).2
  | transfer index count =>
      obtain ⟨capture', size', done', hop, hcount, rfl⟩ := transfer_cases h
      obtain ⟨rfl, heq⟩ := Machine.eq_only hops hop
      cases heq
      rw [hops]
      exact .inl ⟨count, rfl, hcount, rfl⟩
  | writeDone index error =>
      obtain ⟨capture', size', done', hop, hfull, rfl⟩ := writeDone_cases h
      rw [Machine.eraseIdx_only hops hop]
      obtain ⟨rfl, heq⟩ := Machine.eq_only hops hop
      cases heq
      exact .inr ⟨error, rfl, hfull, rfl⟩

/-- A completion of the only operation leaves the next one outstanding, or fails, takes
the error exit and leaves nothing outstanding. -/
theorem complete_ops {op : Op} (hops : s.ops = [op]) {c : Completion}
    (h : s.complete self c = some r) :
    (c.fails = false ∧ r.2 = false ∧ ∃ op', r.1.ops = [op'])
      ∨ (c.fails = true ∧ r.2 = true ∧ r.1.ops = []) := by
  cases op with
  | read capture =>
      obtain ⟨error, bytes, rfl, rfl⟩ := complete_of_reading hops h
      cases error with
      | false => exact .inl ⟨rfl, rfl, .write self bytes.length 0, rfl⟩
      | true => exact .inr ⟨rfl, rfl, rfl⟩
  | write capture size done =>
      rcases complete_of_writing hops h with ⟨count, rfl, -, rfl⟩ | ⟨error, rfl, -, rfl⟩
      · exact .inl ⟨rfl, rfl, .write capture size (done + count), rfl⟩
      · cases error with
        | false => exact .inl ⟨rfl, rfl, .read self, rfl⟩
        | true => exact .inr ⟨rfl, rfl, rfl⟩

end CSession

/-! ## The echo -/

/-- The bytes sent are a prefix of the bytes received, and all of them while a read is
outstanding. -/
structure Echoes (s : CSession) : Prop where
  isPrefix : s.wire <+: s.received
  caughtUp : (∃ op ∈ s.ops, op.isWrite = false) → s.wire = s.received

/-- The step leaves `data_` alone if a write is outstanding all through it. -/
def Steady (self : Capture) (s : CSession) (c : Completion) : Prop :=
  ∀ t ∈ step self s c, (∃ op ∈ s.remaining c, op.isWrite = true) → t.data = s.data

/-- What is outstanding: a read, and all is echoed; a write of the last message, which
is still at the front of `data_`; or nothing any more. -/
inductive Phase (s : CSession) : Prop
  | reading (capture : Capture) (hops : s.ops = [.read capture])
      (hwire : s.wire = s.received)
  | writing (capture : Capture) (earlier message : Bytes) (done : Nat)
      (hops : s.ops = [.write capture message.length done])
      (hdata : s.data.take message.length = message)
      (hreceived : s.received = earlier ++ message)
      (hwire : s.wire = earlier ++ message.take done)
  | closed (hops : s.ops = []) (hwire : s.wire <+: s.received)

theorem phase_started : Phase .started := .reading .raw rfl rfl

theorem Phase.echoes {s : CSession} (h : Phase s) : Echoes s := by
  cases h with
  | reading capture hops hwire =>
      exact ⟨hwire ▸ List.prefix_refl s.wire, fun _ => hwire⟩
  | writing capture earlier message done hops hdata hreceived hwire =>
      refine ⟨?_, ?_⟩
      · rw [hwire, hreceived]
        exact List.prefix_append_right_inj earlier |>.mpr (List.take_prefix _ _)
      · rintro ⟨op, hop, hread⟩
        rw [hops, List.mem_singleton] at hop
        rw [hop] at hread
        cases hread
  | closed hops hwire =>
      refine ⟨hwire, ?_⟩
      rintro ⟨op, hop, -⟩
      rw [hops] at hop
      cases hop

section Complete

variable {s : CSession} {self : Capture} {r : CSession × Bool} {c : Completion}

theorem phase_of_reading {capture : Capture} (hops : s.ops = [.read capture])
    (hwire : s.wire = s.received) (hdone : s.complete self c = some r) : Phase r.1 := by
  obtain ⟨error, bytes, rfl, rfl⟩ := CSession.complete_of_reading hops hdone
  cases error with
  | false =>
      refine .writing self s.received bytes 0 rfl List.take_left rfl ?_
      rw [List.take_zero, List.append_nil]
      exact hwire
  | true =>
      refine .closed rfl ?_
      show s.wire <+: s.received ++ bytes
      rw [hwire]
      exact List.prefix_append _ _

/-- A piece of the message goes out as it was received, since it is still at the front
of `data_`. -/
theorem phase_of_writing {capture : Capture} {earlier message : Bytes} {done : Nat}
    (hops : s.ops = [.write capture message.length done])
    (hdata : s.data.take message.length = message) (hreceived : s.received = earlier ++ message)
    (hwire : s.wire = earlier ++ message.take done) (hdone : s.complete self c = some r) :
    Phase r.1 := by
  rcases CSession.complete_of_writing hops hdone with ⟨count, rfl, hcount, rfl⟩
    | ⟨error, rfl, hfull, rfl⟩
  · have hpiece : (s.data.drop done).take count = (message.drop done).take count := by
      rw [← hdata, List.drop_take, List.take_take, Nat.min_eq_left (by omega)]
    refine .writing capture earlier message (done + count) rfl hdata hreceived ?_
    rw [hpiece, hwire, List.take_add, List.append_assoc]
  · cases error with
    | false =>
        refine .reading self rfl ?_
        show s.wire = s.received
        rw [hwire, hreceived, hfull rfl, List.take_length]
    | true =>
        refine .closed rfl ?_
        show s.wire <+: s.received
        rw [hwire, hreceived]
        exact (List.prefix_append_right_inj earlier).mpr (List.take_prefix _ _)

end Complete

theorem phase_step {self : Capture} {s t : CSession} {c : Completion} (h : Phase s)
    (hstep : step self s c = some t) : Phase t := by
  obtain ⟨r, hr, rfl⟩ := Option.map_eq_some_iff.mp hstep
  cases h with
  | reading capture hops hwire => exact phase_of_reading hops hwire hr
  | writing capture earlier message done hops hdata hreceived hwire =>
      exact phase_of_writing hops hdata hreceived hwire hr
  | closed hops hwire =>
      rw [CSession.complete_of_idle hops] at hr
      cases hr

/-- One operation at most is outstanding, so a completion leaves no write behind it. -/
theorem Phase.steady {self : Capture} {s : CSession} (h : Phase s) (c : Completion) :
    Steady self s c := by
  have hlength : s.ops.length ≤ 1 := by
    cases h with
    | reading capture hops hwire => simp [hops]
    | writing capture earlier message done hops hdata hreceived hwire => simp [hops]
    | closed hops hwire => simp [hops]
  have hnone : ∀ {index op}, s.ops[index]? = some op → s.ops.eraseIdx index = [] := by
    intro index op hop
    have hlt := (List.getElem?_eq_some_iff.mp hop).1
    rw [← List.length_eq_zero_iff, List.length_eraseIdx_of_lt hlt]
    omega
  rintro t ht ⟨op, hop, hwrite⟩
  obtain ⟨r, hr, rfl⟩ := Option.map_eq_some_iff.mp ht
  cases c with
  | transfer index count =>
      obtain ⟨capture, size, done, -, -, rfl⟩ := CSession.transfer_cases hr
      rfl
  | readDone index error bytes =>
      obtain ⟨capture, hget, -⟩ := CSession.readDone_cases hr
      rw [CSession.remaining, hnone hget] at hop
      cases hop
  | writeDone index error =>
      obtain ⟨capture, size, done, hget, -⟩ := CSession.writeDone_cases hr
      rw [CSession.remaining, hnone hget] at hop
      cases hop

/-- A successful read leaves the write of its bytes outstanding, which are then at the front
of `data_`. -/
def Replies (self : Capture) (s : CSession) (c : Completion) : Prop :=
  ∀ t ∈ step self s c, ∀ index bytes, c = .readDone index false bytes →
    t.ops = [.write self bytes.length 0] ∧ t.data.take bytes.length = bytes

theorem Phase.replies {self : Capture} {s : CSession} (h : Phase s) (c : Completion) :
    Replies self s c := by
  rintro t ht index bytes rfl
  obtain ⟨r, hr, rfl⟩ := Option.map_eq_some_iff.mp ht
  cases h with
  | reading capture hops hwire =>
      obtain ⟨error, bytes', hc, rfl⟩ := CSession.complete_of_reading hops hr
      cases hc
      exact ⟨rfl, List.take_left⟩
  | writing capture earlier message done hops hdata hreceived hwire =>
      rcases CSession.complete_of_writing hops hr with ⟨count, hc, -⟩ | ⟨error, hc, -⟩ <;> cases hc
  | closed hops hwire =>
      rw [CSession.complete_of_idle hops] at hr
      cases hr

/-- In every run a session echoes what it receives, nothing changes `data_` while a write is
outstanding, and every message that arrives is written back. -/
theorem echo_fidelity (self : Capture) (cs : List Completion) :
    Machine.Throughout (step self) Echoes .started cs
      ∧ Machine.Along (step self) (fun s c => Steady self s c ∧ Replies self s c) .started cs := by
  have hphase : Machine.Throughout (step self) Phase .started cs :=
    Machine.throughout_of_step phase_step phase_started cs
  exact ⟨hphase.mono fun _ h => h.echoes,
    hphase.along fun h _ => ⟨h.steady _, h.replies _⟩⟩

end CppNet.HalfDuplex
