import CppNet.Sync.Programs

/-!
# The echo pair of the basic examples

`session` of `blocking_tcp_echo_server.cpp` is the loop of `CSession` without the
`memset`: the array it reads into holds whatever is in memory. The client of
`blocking_tcp_echo_client.cpp` is the `Client` of `sync_client.cpp` without the
`getchar`; it stands in `replied` where it has printed the reply and has not closed its
socket.

The two servers differ in the bytes of `data` that were not read, and neither sends
one of those. So they go in step (`session_follows`), and what was shown of the one pair
holds of the other.
-/

namespace CppNet.Sync.Blocking

/-! ## The server -/

structure Session where
  data : Bytes
  position : Position
deriving Repr, DecidableEq

namespace Session

/-- The loop begins again, with an array that was not initialised. -/
def enter (memory : Nat → Byte) : Session where
  data := (List.range maxLength).map memory
  position := .reading

/-- `read_some` has put `bytes` at the front of `data`; they are echoed. -/
def fill (s : Session) (bytes : Bytes) : Session where
  data := bytes ++ s.data.drop bytes.length
  position := .writing bytes.length 0

def step (memory : Nat → Byte) (s : Session) : Call → Option (Session × Bytes)
  | .read (.bytes bytes) =>
      if s.position = .reading ∧ bytes ≠ [] ∧ bytes.length ≤ maxLength then
        some (s.fill bytes, [])
      else none
  -- `break`; any other error is thrown, and caught behind the loop
  | .read .eof | .read .error =>
      if s.position = .reading then some ({ s with position := .ended }, []) else none
  | .write count =>
      match s.position with
      | .writing length done =>
          if 0 < count ∧ done + count ≤ length then
            some ({ s with position := .writing length (done + count) },
              (s.data.drop done).take count)
          else none
      | .reading | .ended => none
  | .writeFails =>
      match s.position with
      | .writing length done =>
          if done < length then some ({ s with position := .ended }, []) else none
      | .reading | .ended => none
  | .returns =>
      match s.position with
      | .writing length done => if done = length then some (enter memory, []) else none
      | .reading | .ended => none

end Session

/-! ## In step -/

/-- The servers stand in the same call, and have the same bytes to write in it. -/
structure Session.Same (s : Session) (c : CSession) : Prop where
  position : s.position = c.position
  data : ∀ length done, s.position = .writing length done →
    s.data.take length = c.data.take length

theorem session_same {s : Session} {c : CSession} (h : s.Same c) (memory : Nat → Byte)
    (call : Call) :
    Option.Rel (fun x y => Session.Same x.1 y.1 ∧ x.2 = y.2) (s.step memory call)
      (c.step call) := by
  obtain ⟨data, position⟩ := s
  obtain ⟨data', position'⟩ := c
  obtain rfl : position = position' := h.position
  have hdata := h.data
  dsimp only at hdata
  cases call with
  | read result =>
      cases result with
      | bytes bytes =>
          simp only [Session.step, CSession.step]
          split
          · refine .some ⟨⟨rfl, ?_⟩, rfl⟩
            rintro length done hposition
            cases hposition
            exact List.take_left.trans List.take_left.symm
          · exact .none
      | eof | error =>
          simp only [Session.step, CSession.step]
          split
          · exact .some ⟨⟨rfl, by simp⟩, rfl⟩
          · exact .none
  | write count =>
      cases position with
      | writing length done =>
          simp only [Session.step, CSession.step]
          split
          · rename_i hcount
            have htake := hdata length done rfl
            refine .some ⟨⟨rfl, ?_⟩, Pipeline.take_drop_of_take hcount.2 htake⟩
            rintro length' done' hposition
            cases hposition
            exact htake
          · exact .none
      | reading | ended => exact .none
  | writeFails =>
      cases position with
      | writing length done =>
          simp only [Session.step, CSession.step]
          split
          · exact .some ⟨⟨rfl, by simp⟩, rfl⟩
          · exact .none
      | reading | ended => exact .none
  | returns =>
      cases position with
      | writing length done =>
          simp only [Session.step, CSession.step]
          split
          · exact .some ⟨⟨rfl, by simp [Session.enter]⟩, rfl⟩
          · exact .none
      | reading | ended => exact .none

/-- A call comes with what the next array would hold. -/
def program : Program Session (Call × (Nat → Byte)) where
  step s k := s.step k.2 k.1
  call := Prod.fst
  ended s := s.position = .ended

theorem enter_same (memory : Nat → Byte) : (Session.enter memory).Same .enter :=
  ⟨rfl, by simp [Session.enter]⟩

/-- Whatever the uninitialised arrays hold, the session does what the one with the cleared
array does. -/
theorem session_follows : program.Follows Session.Same where
  step := by
    rintro s c ⟨call, memory⟩ h
    exact session_same h memory call
  ended := by
    intro s c h
    show decide (s.position = .ended) = decide (c.position = .ended)
    rw [h.position]
  surjective := by
    intro call
    exact ⟨(call, fun _ => 0), rfl⟩

end CppNet.Sync.Blocking
