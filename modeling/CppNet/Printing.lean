import CppNet.Duplex.Model
import CppNet.HalfDuplex.Session
import CppNet.Sync.Model

/-!
# Printing what was received

The echo servers read into an array, print it as a C string, and clear it before they
read again. In front of a read the array holds nothing but NULs, so after it a NUL is
left in the array if the read did not fill it, or brought one along. The reads are
given the whole array, `max_length` bytes, so a read can fill it, and then the print
goes on behind its end.

What this rests on is the same for all of them (`along_prints_iff`); that the array
is clear in front of each read is proved for each by itself.
-/

namespace CppNet

/-- The array of `size` bytes has a NUL, and printing it does not leave it. -/
structure PrintsInside (size : Nat) (data : Bytes) : Prop where
  terminated : ∃ i < size, data[i]? = some 0
  inside : (cString data).isOk = true

/-- The bytes that were read leave a NUL in an array of `size` NULs. -/
def LeavesNul (size : Nat) (bytes : Bytes) : Prop := bytes.length < size ∨ 0 ∈ bytes

instance (size : Nat) (bytes : Bytes) : Decidable (LeavesNul size bytes) :=
  inferInstanceAs (Decidable (_ ∨ _))

/-- An array of NULs with `bytes` at its front. -/
def filled (size : Nat) (bytes : Bytes) : Bytes :=
  bytes ++ (List.replicate size 0).drop bytes.length

theorem nul_mem_filled (size : Nat) (bytes : Bytes) :
    0 ∈ filled size bytes ↔ LeavesNul size bytes := by
  rw [filled, List.drop_replicate, List.mem_append, List.mem_replicate, LeavesNul]
  constructor
  · rintro (hmem | ⟨hne, -⟩)
    · exact .inr hmem
    · exact .inl (by omega)
  · rintro (hlt | hmem)
    · exact .inr ⟨by omega, rfl⟩
    · exact .inl hmem

theorem printsInside_filled {size : Nat} {bytes : Bytes} (hlength : bytes.length ≤ size) :
    PrintsInside size (filled size bytes) ↔ LeavesNul size bytes := by
  rw [← nul_mem_filled]
  constructor
  · intro h
    exact (cString_isOk _).mp h.inside
  · intro hmem
    obtain ⟨i, hi⟩ := List.mem_iff_getElem?.mp hmem
    refine ⟨⟨i, ?_, hi⟩, (cString_isOk _).mpr hmem⟩
    have hlt := (List.getElem?_eq_some_iff.mp hi).1
    rw [filled, List.length_append, List.length_drop, List.length_replicate] at hlt
    omega

/-- A machine whose prints are of a clear array with the bytes of a read prints inside the
array exactly in the runs whose reads leave a NUL. -/
theorem along_prints_iff {σ ε : Type*} (step : σ → ε → Option σ) {size : Nat}
    (printed : σ → ε → Option Bytes) (bytesRead : ε → Option Bytes) {I : σ → Prop}
    (hkeep : ∀ {s e t}, I s → step s e = some t → I t)
    (hprinted : ∀ {s e t}, I s → step s e = some t →
      printed s e = (bytesRead e).map (filled size))
    (hlength : ∀ {s e t bytes}, step s e = some t → bytesRead e = some bytes →
      bytes.length ≤ size)
    {s : σ} (hs : I s) (es : List ε) :
    Machine.Along step (fun s e => ∀ data ∈ printed s e, PrintsInside size data) s es
      ↔ Machine.Along step (fun _ e => ∀ bytes ∈ bytesRead e, LeavesNul size bytes) s es := by
  refine Machine.along_congr_of hkeep ?_ hs
  intro s e t hI hstep
  rw [hprinted hI hstep]
  cases hread : bytesRead e with
  | none => simp
  | some bytes => simpa using printsInside_filled (hlength hstep hread)

/-- A run that consists of a read which leaves no NUL. -/
theorem not_along_prints {σ ε : Type*} {step : σ → ε → Option σ} {size : Nat}
    {bytesRead : ε → Option Bytes} {s t : σ} {e : ε} {bytes : Bytes} (hstep : step s e = some t)
    (hread : bytesRead e = some bytes) (hfull : ¬ LeavesNul size bytes) :
    ¬ Machine.Along step (fun _ e => ∀ bytes ∈ bytesRead e, LeavesNul size bytes) s [e] :=
  fun h => hfull ((h t hstep).1 bytes hread)

/-! ## Half-duplex sessions -/

namespace HalfDuplex

/-- What `HandleRead` prints. -/
def CSession.printed (s : CSession) : Completion → Option Bytes
  | .readDone _ false bytes => some (s.fill bytes).data
  | _ => none

def Completion.bytesRead : Completion → Option Bytes
  | .readDone _ false bytes => some bytes
  | _ => none

/-- `data_` is clear while a read is outstanding. -/
inductive Cleared (s : CSession) : Prop
  | reading (capture : Capture) (hops : s.ops = [.read capture])
      (hdata : s.data = List.replicate maxLength 0)
  | writing (capture : Capture) (size done : Nat) (hops : s.ops = [.write capture size done])
  | closed (hops : s.ops = [])

theorem cleared_started : Cleared .started := .reading .raw rfl rfl

theorem cleared_step {self : Capture} {s t : CSession} {c : Completion} (h : Cleared s)
    (hstep : step self s c = some t) : Cleared t := by
  obtain ⟨r, hr, rfl⟩ := Option.map_eq_some_iff.mp hstep
  cases h with
  | closed hops =>
      rw [CSession.complete_of_idle hops] at hr
      cases hr
  | reading capture hops hdata =>
      obtain ⟨error, bytes, rfl, rfl⟩ := CSession.complete_of_reading hops hr
      cases error with
      | false => exact .writing self bytes.length 0 rfl
      | true => exact .closed rfl
  | writing capture size done hops =>
      rcases CSession.complete_of_writing hops hr with ⟨count, rfl, -, rfl⟩ | ⟨error, rfl, -, rfl⟩
      · exact .writing capture size (done + count) rfl
      · cases error with
        | false => exact .reading self rfl rfl
        | true => exact .closed rfl

theorem printed_of_cleared {self : Capture} {s t : CSession} {c : Completion} (h : Cleared s)
    (hstep : step self s c = some t) :
    s.printed c = c.bytesRead.map (filled maxLength) := by
  obtain ⟨r, hr, rfl⟩ := Option.map_eq_some_iff.mp hstep
  cases h with
  | closed hops =>
      rw [CSession.complete_of_idle hops] at hr
      cases hr
  | reading capture hops hdata =>
      obtain ⟨error, bytes, rfl, -⟩ := CSession.complete_of_reading hops hr
      cases error with
      | true => rfl
      | false =>
          rw [CSession.printed, CSession.fill, hdata]
          rfl
  | writing capture size done hops =>
      rcases CSession.complete_of_writing hops hr with ⟨count, rfl, -⟩ | ⟨error, rfl, -⟩
      · rfl
      · rfl

theorem length_bytesRead {self : Capture} {s t : CSession} {c : Completion} {bytes : Bytes}
    (hstep : step self s c = some t) (hread : c.bytesRead = some bytes) :
    bytes.length ≤ maxLength := by
  obtain ⟨r, hr, rfl⟩ := Option.map_eq_some_iff.mp hstep
  unfold Completion.bytesRead at hread
  split at hread
  · obtain rfl := Option.some.inj hread
    obtain ⟨capture, -, hlength, -⟩ := CSession.readDone_cases hr
    exact hlength
  · cases hread

theorem prints_iff (self : Capture) (cs : List Completion) :
    Machine.Along (step self) (fun s c => ∀ data ∈ s.printed c, PrintsInside maxLength data)
        .started cs
      ↔ Machine.Along (step self) (fun _ c => ∀ bytes ∈ c.bytesRead, LeavesNul maxLength bytes)
        .started cs :=
  along_prints_iff (step self) CSession.printed Completion.bytesRead cleared_step printed_of_cleared
    length_bytesRead cleared_started cs

end HalfDuplex

/-! ## Full-duplex sessions -/

namespace Duplex

variable {Node : Type} [MessageNode Node]

/-- What `HandleRead` prints, before it calls `Send`. -/
def CSession.printed (s : CSession Node) : Event → Option Bytes
  | .completion (.readDone false bytes _ _) => some (s.fill bytes).data
  | _ => none

def Event.bytesRead : Event → Option Bytes
  | .completion (.readDone false bytes _ _) => some bytes
  | _ => none

theorem send_data (s : CSession Node) (msg : Ptr Node) (n uninitialised : Int) :
    (s.send msg n uninitialised).data = s.data := by
  unfold CSession.send
  dsimp only
  split <;> rfl

theorem handleWrite_data (s : CSession Node) (error : Bool) :
    (s.handleWrite error).1.data = s.data := by
  unfold CSession.handleWrite
  split
  · rfl
  · split
    · rfl
    · dsimp only
      split <;> rfl

/-- `data_` is clear between any two callbacks. -/
theorem clear_step {s t : CSession Node} {e : Event} (h : s.data = List.replicate maxLength 0)
    (hstep : step s e = some t) : t.data = List.replicate maxLength 0 := by
  rcases step_cases hstep with ⟨msg, uninitialised, rfl, -, rfl⟩ | ⟨c, r, rfl, hdone, rfl⟩
  · rw [send_data, h]
  · cases c with
    | readDone error bytes uninitialised window =>
        cases error with
        | false =>
            obtain ⟨u, -, -, rfl⟩ := CSession.readDone_cases hdone
            rfl
        | true =>
            obtain ⟨rfl, rfl⟩ := CSession.readFailed_cases hdone
            exact h
    | transfer x =>
        obtain ⟨u, hu, rfl⟩ := Option.map_eq_some_iff.mp hdone
        exact (CSession.transfer_moved hu).data.trans h
    | writeDone index error =>
        obtain ⟨op, -, -, rfl⟩ := CSession.writeDone_cases hdone
        rw [handleWrite_data]
        exact h

theorem printed_of_clear {s t : CSession Node} {e : Event}
    (h : s.data = List.replicate maxLength 0) (_ : step s e = some t) :
    s.printed e = e.bytesRead.map (filled maxLength) := by
  unfold CSession.printed Event.bytesRead
  split
  · rw [CSession.fill, h]
    rfl
  · rfl

theorem length_bytesRead {s t : CSession Node} {e : Event} {bytes : Bytes}
    (hstep : step s e = some t) (hread : e.bytesRead = some bytes) : bytes.length ≤ maxLength := by
  unfold Event.bytesRead at hread
  split at hread
  · obtain rfl := Option.some.inj hread
    rcases step_cases hstep with ⟨msg, uninitialised, h, -⟩ | ⟨c, r, h, hdone, -⟩
    · cases h
    · cases h
      obtain ⟨u, hlength, -⟩ := CSession.readDone_cases hdone
      exact hlength
  · cases hread

theorem prints_iff (es : List Event) :
    Machine.Along step (fun (s : CSession Node) e => ∀ data ∈ s.printed e,
        PrintsInside maxLength data) .started es
      ↔ Machine.Along step (fun (_ : CSession Node) e => ∀ bytes ∈ e.bytesRead,
        LeavesNul maxLength bytes) .started es :=
  along_prints_iff step CSession.printed Event.bytesRead clear_step printed_of_clear
    length_bytesRead rfl es

end Duplex

/-! ## The blocking server -/

namespace Sync

/-- The server by itself. -/
def serverStep (s : CSession) (call : Call) : Option CSession := (s.step call).map Prod.fst

/-- What `CSession` prints when `read_some` has come back without an error. -/
def CSession.printed (s : CSession) : Call → Option Bytes
  | .read (.bytes bytes) => some (s.fill bytes).data
  | _ => none

def Call.bytesRead : Call → Option Bytes
  | .read (.bytes bytes) => some bytes
  | _ => none

/-- `data` is clear in `read_some`. -/
def Cleared (s : CSession) : Prop := s.position = .reading → s.data = List.replicate maxLength 0

/-- Whatever was read, the loop comes back to `read_some` by its beginning only. -/
theorem cleared_step {s t : CSession} {call : Call} (_ : Cleared s)
    (hstep : serverStep s call = some t) : Cleared t := by
  obtain ⟨r, hr, rfl⟩ := Option.map_eq_some_iff.mp hstep
  intro hreading
  cases call with
  | read result =>
      cases result with
      | bytes bytes =>
          obtain ⟨-, -, -, rfl⟩ := CSession.read_cases hr
          cases hreading
      | eof =>
          obtain ⟨-, rfl⟩ := CSession.eof_cases hr
          cases hreading
      | error =>
          unfold CSession.step at hr
          dsimp only at hr
          split at hr
          · obtain rfl := Option.some.inj hr
            cases hreading
          · cases hr
  | write count =>
      obtain ⟨length, done, -, -, -, rfl⟩ := CSession.write_cases hr
      cases hreading
  | writeFails =>
      unfold CSession.step at hr
      dsimp only at hr
      split at hr
      · split at hr
        · obtain rfl := Option.some.inj hr
          cases hreading
        · cases hr
      all_goals cases hr
  | returns =>
      obtain ⟨length, -, rfl⟩ := CSession.returns_cases hr
      rfl

theorem printed_of_cleared {s t : CSession} {call : Call} (h : Cleared s)
    (hstep : serverStep s call = some t) :
    s.printed call = call.bytesRead.map (filled maxLength) := by
  obtain ⟨r, hr, rfl⟩ := Option.map_eq_some_iff.mp hstep
  unfold CSession.printed Call.bytesRead
  split
  · obtain ⟨hposition, -⟩ := CSession.read_cases hr
    rw [CSession.fill, h hposition]
    rfl
  · rfl

theorem length_bytesRead {s t : CSession} {call : Call} {bytes : Bytes}
    (hstep : serverStep s call = some t) (hread : call.bytesRead = some bytes) :
    bytes.length ≤ maxLength := by
  obtain ⟨r, hr, rfl⟩ := Option.map_eq_some_iff.mp hstep
  unfold Call.bytesRead at hread
  split at hread
  · obtain rfl := Option.some.inj hread
    exact (CSession.read_cases hr).2.2.1
  · cases hread

theorem prints_iff (calls : List Call) :
    Machine.Along serverStep (fun s call => ∀ data ∈ s.printed call, PrintsInside maxLength data)
        .enter calls
      ↔ Machine.Along serverStep
        (fun _ call => ∀ bytes ∈ call.bytesRead, LeavesNul maxLength bytes) .enter calls :=
  along_prints_iff serverStep CSession.printed Call.bytesRead cleared_step printed_of_cleared
    length_bytesRead (fun _ => rfl) calls

end Sync

/-! ## All of them -/

/-- In every run of every one of the servers' sessions the prints stay inside the array
exactly if each read leaves a NUL in it. -/
theorem prints_inside_iff (self : HalfDuplex.Capture) (cs : List HalfDuplex.Completion)
    (Node : Type) [Duplex.MessageNode Node] (es : List Duplex.Event) (calls : List Sync.Call) :
    (Machine.Along (HalfDuplex.step self)
          (fun s c => ∀ data ∈ s.printed c, PrintsInside HalfDuplex.maxLength data) .started cs
        ↔ Machine.Along (HalfDuplex.step self)
          (fun _ c => ∀ bytes ∈ c.bytesRead, LeavesNul HalfDuplex.maxLength bytes) .started cs)
      ∧ (Machine.Along Duplex.step (fun (s : Duplex.CSession Node) e => ∀ data ∈ s.printed e,
            PrintsInside Duplex.maxLength data) .started es
          ↔ Machine.Along Duplex.step (fun (_ : Duplex.CSession Node) e => ∀ bytes ∈ e.bytesRead,
            LeavesNul Duplex.maxLength bytes) .started es)
      ∧ (Machine.Along Sync.serverStep
            (fun s call => ∀ data ∈ s.printed call, PrintsInside Sync.maxLength data) .enter calls
          ↔ Machine.Along Sync.serverStep
            (fun _ call => ∀ bytes ∈ call.bytesRead, LeavesNul Sync.maxLength bytes)
            .enter calls) :=
  ⟨HalfDuplex.prints_iff self cs, Duplex.prints_iff es, Sync.prints_iff calls⟩

/-- A read of `max_length` bytes, none of them NUL, as the first of a session. -/
theorem prints_beyond :
    ¬ Machine.Along (HalfDuplex.step .shared)
        (fun s c => ∀ data ∈ s.printed c, PrintsInside HalfDuplex.maxLength data) .started
        [.readDone 0 false (List.replicate 1024 65)]
      ∧ ¬ Machine.Along Duplex.step
        (fun (s : Duplex.CSession Duplex.FullDuplex.MsgNode) e => ∀ data ∈ s.printed e,
          PrintsInside Duplex.maxLength data) .started
        [.completion (.readDone false (List.replicate 1024 65) 0 none)]
      ∧ ¬ Machine.Along Sync.serverStep
        (fun s call => ∀ data ∈ s.printed call, PrintsInside Sync.maxLength data) .enter
        [.read (.bytes (List.replicate 1024 65))] := by
  have hlength : (List.replicate 1024 (65 : Byte)).length = 1024 := List.length_replicate
  have hfull : ¬ LeavesNul 1024 (List.replicate 1024 65) := by
    rintro (hlt | hmem)
    · omega
    · cases (List.mem_replicate.mp hmem).2
  generalize List.replicate 1024 (65 : Byte) = bytes at hlength hfull ⊢
  have hne : bytes ≠ [] := by
    rintro rfl
    cases hlength
  refine ⟨?_, ?_, ?_⟩
  · rw [HalfDuplex.prints_iff]
    have hguard : bytes.length ≤ HalfDuplex.maxLength ∧ (false = true ↔ bytes = []) :=
      ⟨Nat.le_of_eq hlength, by simp [hne]⟩
    exact not_along_prints (congrArg (Option.map Prod.fst) (if_pos hguard)) rfl hfull
  · rw [Duplex.prints_iff]
    have hguard : 0 < 1 ∧ bytes.length ≤ Duplex.maxLength ∧ (false = true ↔ bytes = []) :=
      ⟨Nat.one_pos, Nat.le_of_eq hlength, by simp [hne]⟩
    exact not_along_prints (congrArg (Option.map Prod.fst) (if_pos hguard)) rfl hfull
  · rw [Sync.prints_iff]
    have hguard : Sync.CSession.enter.position = .reading ∧ bytes ≠ []
        ∧ bytes.length ≤ Sync.maxLength := ⟨rfl, hne, Nat.le_of_eq hlength⟩
    exact not_along_prints (congrArg (Option.map Prod.fst) (if_pos hguard)) rfl hfull

end CppNet
