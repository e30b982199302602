import CppNet.Http.Callbacks
import CppNet.Lib.Machine
import Mathlib.Logic.Function.Basic

/-!
# The HTTP server and its timeouts

`CServer` of `beast/http_server`: one accept after the other, each connection
with its own read, write and timer. A connection is guarded if a wait on
`deadline_` is outstanding whenever a read or a write is, or the socket has been
closed by an earlier one.

`CheckDeadline` is called by the read callback, behind `HandleReq`. From then on
a connection is guarded: the wait is armed in the callback that starts the
write, and cancelled in the callback that ends it. Before that, while the
request is being read, nothing is armed (`guarded_iff`).
-/

namespace CppNet.Http

/-- `connection` is what each connection object holds, `created` the objects made so
far, `accepts` the number of outstanding `async_accept`s. -/
structure CServer (U : Type) where
  logic : LogicSystem
  connection : U → Connection
  created : List U
  accepts : Nat

/-- How the accept callback runs: with an error, up to its end with a connection made
and started, or into its `catch` before `self->Start()`. -/
inductive Outcome (U : Type)
  | failed
  | connected (u : U)
  | threw
deriving Repr, DecidableEq

/-- What happens at the server: the outstanding accept completes; the read of a
connection completes, with a request or with an error; its write completes, with or
without an error; a wait on its timer expires; or the callback of a cancelled wait runs,
without an error if the wait had expired before it was cancelled. -/
inductive Event (U : Type)
  | accept (outcome : Outcome U)
  | readDone (u : U) (request : Option Request)
  | writeDone (u : U)
  | expire (u : U)
  | cancelled (u : U) (error : Bool)
deriving Repr, DecidableEq

/-- The step accepts a connection. -/
def Event.Connects {U : Type} : Event U → Prop
  | .accept (.connected _) => True
  | _ => False

namespace CServer

variable {U : Type} [DecidableEq U]

def start (s : CServer U) : CServer U := { s with accepts := s.accepts + 1 }

/-- The callback of the accept. `make_shared` returns a temporary, which goes when `Start`
has returned. -/
def acceptCallback (s : CServer U) : Outcome U → CServer U
  | .failed => s.start
  | .connected u =>
      start { s with
        connection := Function.update s.connection u Connection.new.hold.start.release
        created := u :: s.created }
  | .threw => s

/-- The server after its constructor. -/
def new (logic : LogicSystem) : CServer U where
  logic := logic
  connection := fun _ => .new
  created := []
  accepts := 0

def set (s : CServer U) (u : U) (c : Connection) : CServer U :=
  { s with connection := Function.update s.connection u c }

/-- Once the socket is closed reads can only fail. The process is gone if an assert
fails, so there is no next state then. A callback that has run takes its copy of `self`
with it. -/
def step (s : CServer U) : Event U → Option (CServer U)
  | .accept outcome =>
      if 0 < s.accepts ∧ ∀ u ∈ s.created, outcome ≠ .connected u then
        some (acceptCallback { s with accepts := s.accepts - 1 } outcome)
      else none
  | .readDone u request =>
      let c := s.connection u
      if 0 < c.reads ∧ (c.closed = true → request = none) then
        match Connection.readCallback s.logic { c with reads := c.reads - 1 } request with
        | .ok (logic, c) => some { s.set u c.release with logic }
        | .error _ => none
      else none
  | .writeDone u =>
      let c := s.connection u
      if c.writes = [] then none
      else some (s.set u (Connection.writeCallback { c with writes := c.writes.tail }).release)
  | .expire u =>
      let c := s.connection u
      if 0 < c.waits then
        some (s.set u (Connection.deadlineCallback { c with waits := c.waits - 1 } false).release)
      else none
  | .cancelled u error =>
      let c := s.connection u
      if 0 < c.cancelled then
        some (s.set u
          (Connection.deadlineCallback { c with cancelled := c.cancelled - 1 } error).release)
      else none

/-! ### What a step does -/

variable {s t : CServer U}

theorem accept_cases {outcome : Outcome U} (h : s.step (.accept outcome) = some t) :
    0 < s.accepts ∧ (∀ u ∈ s.created, outcome ≠ .connected u)
      ∧ t = acceptCallback { s with accepts := s.accepts - 1 } outcome := by
  simp only [step] at h
  split at h
  · rename_i hguard
    exact ⟨hguard.1, hguard.2, (Option.some.inj h).symm⟩
  · cases h

theorem readDone_cases {u : U} {request : Option Request}
    (h : s.step (.readDone u request) = some t) :
    0 < (s.connection u).reads ∧ ((s.connection u).closed = true → request = none)
      ∧ ∃ logic c, Connection.readCallback s.logic
            { s.connection u with reads := (s.connection u).reads - 1 } request = .ok (logic, c)
          ∧ t = { s.set u c.release with logic } := by
  simp only [step] at h
  split at h
  · rename_i hguard
    split at h
    · rename_i logic c hcallback
      exact ⟨hguard.1, hguard.2, logic, c, hcallback, (Option.some.inj h).symm⟩
    · cases h
  · cases h

theorem writeDone_cases {u : U} (h : s.step (.writeDone u) = some t) :
    (s.connection u).writes ≠ []
      ∧ t = s.set u (Connection.writeCallback
          { s.connection u with writes := (s.connection u).writes.tail }).release := by
  simp only [step] at h
  split at h
  · cases h
  · rename_i hne
    exact ⟨hne, (Option.some.inj h).symm⟩

theorem expire_cases {u : U} (h : s.step (.expire u) = some t) :
    0 < (s.connection u).waits
      ∧ t = s.set u (Connection.deadlineCallback
          { s.connection u with waits := (s.connection u).waits - 1 } false).release := by
  simp only [step] at h
  split at h
  · rename_i hwait
    exact ⟨hwait, (Option.some.inj h).symm⟩
  · cases h

theorem cancelled_cases {u : U} {error : Bool} (h : s.step (.cancelled u error) = some t) :
    0 < (s.connection u).cancelled
      ∧ t = s.set u (Connection.deadlineCallback
          { s.connection u with cancelled := (s.connection u).cancelled - 1 } error).release := by
  simp only [step] at h
  split at h
  · rename_i hcancelled
    exact ⟨hcancelled, (Option.some.inj h).symm⟩
  · cases h

end CServer

/-! ## Stages of a connection -/

/-- If a read or a write is outstanding, so is a wait on the timer, unless the timer has
closed the socket. -/
def Guarded (c : Connection) : Prop :=
  0 < c.reads ∨ c.writes ≠ [] → 0 < c.waits ∨ c.closed = true

instance : DecidablePred Guarded := fun _ => inferInstanceAs (Decidable (_ → _))

/-- The request is being read and no timer is armed, or it has been read, one write at
most is outstanding, and it is guarded. -/
inductive Stage (c : Connection) : Prop
  | reading (hreads : c.reads = 1) (hwrites : c.writes = []) (hwaits : c.waits = 0)
      (hcancelled : c.cancelled = 0) (hopen : c.closed = false)
  | answered (hreads : c.reads = 0) (hone : c.writes.length ≤ 1)
      (hguarded : c.writes ≠ [] → 0 < c.waits ∨ c.closed = true)

theorem stage_start : Stage Connection.new.hold.start.release := .reading rfl rfl rfl rfl rfl

/-- Who holds the connection has no part in it. -/
theorem Stage.release {c : Connection} (h : Stage c) : Stage c.release := by
  cases h with
  | reading hreads hwrites hwaits hcancelled hopen => exact .reading hreads hwrites hwaits hcancelled hopen
  | answered hreads hone hguarded => exact .answered hreads hone hguarded

theorem Stage.guarded_iff_not_reading {c : Connection} (h : Stage c) :
    Guarded c ↔ c.reads = 0 := by
  cases h with
  | reading hreads hwrites hwaits hcancelled hopen => simp [Guarded, hreads, hwaits, hopen]
  | answered hreads hone hguarded => simpa [Guarded, hreads] using hguarded

/-- The read callback starts a write only where it arms the timer. -/
theorem stage_readDone {logic logic' : LogicSystem} {c c' : Connection}
    {request : Option Request} (h : Stage c) (hread : 0 < c.reads)
    (hcallback : Connection.readCallback logic { c with reads := c.reads - 1 } request
      = .ok (logic', c')) : Stage c' := by
  cases h with
  | answered hreads hone hguarded => omega
  | reading hreads hwrites hwaits hcancelled hopen =>
      have hnone : c.reads - 1 = 0 := by omega
      obtain ⟨http, rfl | rfl | ⟨response, rfl⟩⟩ := readCallback_cases hcallback
      · exact .answered hnone (by simp [hwrites]) fun hne => (hne hwrites).elim
      · exact .answered hnone (by simp [Connection.checkDeadline, Connection.hold, hwrites])
          fun _ => .inl (Nat.succ_pos _)
      · refine .answered hnone ?_ fun _ => .inl (Nat.succ_pos _)
        simp [Connection.checkDeadline, Connection.asyncWrite, Connection.hold, hwrites]

/-- The write callback cancels the waits when nothing is left to guard. -/
theorem stage_writeDone {c : Connection} (h : Stage c) (hne : c.writes ≠ []) :
    Stage (Connection.writeCallback { c with writes := c.writes.tail }) := by
  cases h with
  | reading hreads hwrites hwaits hcancelled hopen => exact (hne hwrites).elim
  | answered hreads hone hguarded =>
      have hnone : c.writes.tail = [] := by
        rw [← List.length_eq_zero_iff, List.length_tail]
        omega
      refine .answered hreads ?_ fun htail => (htail hnone).elim
      simp [Connection.writeCallback, hnone]

theorem stage_expire {c : Connection} (h : Stage c) (hwait : 0 < c.waits) :
    Stage (Connection.deadlineCallback { c with waits := c.waits - 1 } false) := by
  cases h with
  | reading hreads hwrites hwaits hcancelled hopen => omega
  | answered hreads hone hguarded => exact .answered hreads hone fun _ => .inr rfl

/-- A cancelled wait that had expired closes the socket late. -/
theorem stage_cancelled {c : Connection} (h : Stage c) (hcancelled : 0 < c.cancelled)
    (error : Bool) :
    Stage (Connection.deadlineCallback { c with cancelled := c.cancelled - 1 } error) := by
  cases h with
  | reading hreads hwrites hwaits hnone hopen => omega
  | answered hreads hone hguarded =>
      cases error with
      | true => exact .answered hreads hone hguarded
      | false => exact .answered hreads hone fun _ => .inr rfl

/-! ## Runs -/

section Runs

variable {U : Type} [DecidableEq U]

/-- Every connection object is in one of the stages. -/
def Staged (s : CServer U) : Prop := ∀ u ∈ s.created, Stage (s.connection u)

theorem staged_set {s : CServer U} (h : Staged s) {u : U} {c : Connection}
    (hc : Stage (s.connection u) → Stage c) : Staged (s.set u c) := by
  refine (Function.forall_update_iff _ fun v (x : Connection) =>
    v ∈ s.created → Stage x).mpr ?_
  exact ⟨fun hu => hc (h u hu), fun v _ => h v⟩

theorem staged_accept {s : CServer U} (h : Staged s) (outcome : Outcome U) :
    Staged (s.acceptCallback outcome) := by
  cases outcome with
  | failed => exact h
  | threw => exact h
  | connected u =>
      refine (Function.forall_update_iff _ fun v (x : Connection) =>
        v ∈ u :: s.created → Stage x).mpr ?_
      exact ⟨fun _ => stage_start, fun v hne hv => h v ((List.mem_cons.mp hv).resolve_left hne)⟩

theorem staged_step {s t : CServer U} {e : Event U} (h : Staged s)
    (hstep : s.step e = some t) : Staged t := by
  cases e with
  | accept outcome =>
      obtain ⟨-, -, rfl⟩ := CServer.accept_cases hstep
      exact staged_accept (s := { s with accepts := s.accepts - 1 }) h outcome
  | readDone u request =>
      obtain ⟨hread, -, logic, c, hcallback, rfl⟩ := CServer.readDone_cases hstep
      exact staged_set h fun hstage => (stage_readDone hstage hread hcallback).release
  | writeDone u =>
      obtain ⟨hne, rfl⟩ := CServer.writeDone_cases hstep
      exact staged_set h fun hstage => (stage_writeDone hstage hne).release
  | expire u =>
      obtain ⟨hwait, rfl⟩ := CServer.expire_cases hstep
      exact staged_set h fun hstage => (stage_expire hstage hwait).release
  | cancelled u error =>
      obtain ⟨hcancelled, rfl⟩ := CServer.cancelled_cases hstep
      exact staged_set h fun hstage => (stage_cancelled hstage hcancelled error).release

/-- In every reachable state a connection is guarded exactly if its request is not being
read any more. -/
theorem guarded_unless_reading (logic : LogicSystem) (es : List (Event U)) :
    Machine.Throughout CServer.step
      (fun s => ∀ u ∈ s.created, Guarded (s.connection u) ↔ (s.connection u).reads = 0)
      (CServer.new logic).start es := by
  have hstaged : Machine.Throughout CServer.step Staged (CServer.new logic).start es := by
    refine Machine.throughout_of_step staged_step ?_ es
    intro u hu
    cases hu
  exact hstaged.mono fun s h u hu => (h u hu).guarded_iff_not_reading

/-- No connection has been made. -/
structure Unused (s : CServer U) : Prop where
  created : s.created = []
  connection : ∀ u, s.connection u = Connection.new

theorem unused_step {s t : CServer U} {e : Event U} (h : Unused s) (hstep : s.step e = some t) :
    (¬ e.Connects ∧ Unused t)
      ∨ (e.Connects ∧ ∃ u ∈ t.created, t.connection u = Connection.new.start) := by
  cases e with
  | accept outcome =>
      obtain ⟨-, -, rfl⟩ := CServer.accept_cases hstep
      cases outcome with
      | failed => exact .inl ⟨fun hno => hno, h.created, h.connection⟩
      | threw => exact .inl ⟨fun hno => hno, h.created, h.connection⟩
      | connected u =>
          refine .inr ⟨trivial, u, List.mem_cons_self .., ?_⟩
          exact Function.update_self u Connection.new.hold.start.release s.connection
  | readDone u request =>
      have hread := (CServer.readDone_cases hstep).1
      rw [h.connection] at hread
      cases hread
  | writeDone u =>
      have hne := (CServer.writeDone_cases hstep).1
      rw [h.connection] at hne
      exact absurd rfl hne
  | expire u =>
      have hwait := (CServer.expire_cases hstep).1
      rw [h.connection] at hwait
      cases hwait
  | cancelled u error =>
      have hcancelled := (CServer.cancelled_cases hstep).1
      rw [h.connection] at hcancelled
      cases hcancelled

/-- Every connection is guarded throughout a run exactly if the run accepts none. -/
theorem guarded_iff (logic : LogicSystem) (es : List (Event U)) :
    Machine.Throughout CServer.step (fun s => ∀ u ∈ s.created, Guarded (s.connection u))
        (CServer.new logic).start es
      ↔ Machine.Along CServer.step (fun _ e => ¬ e.Connects) (CServer.new logic).start es := by
  refine Machine.throughout_iff_along (I := Unused) ?_ ?_ ?_ ⟨rfl, fun _ => rfl⟩
  · intro s h u hu
    rw [h.created] at hu
    cases hu
  · intro s e t h hno hstep
    rcases unused_step h hstep with ⟨-, hunused⟩ | ⟨hconnects, -⟩
    · exact hunused
    · exact (hno hconnects).elim
  · intro s e t h hconnects hstep hguarded
    rcases unused_step h hstep with ⟨hno, -⟩ | ⟨-, u, hu, hstart⟩
    · exact hconnects hno
    · have hwait := hguarded u hu
      rw [hstart] at hwait
      exact absurd hwait (by decide)

/-- A client connects and sends nothing. -/
theorem guarded_silent :
    ¬ Machine.Throughout CServer.step (fun s => ∀ u ∈ s.created, Guarded (s.connection u))
      (CServer.new (.ofRegistrations [])).start [.accept (.connected 0)] := by
  decide

end Runs

end CppNet.Http
