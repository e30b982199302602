import CppNet.Duplex.Model
import CppNet.Lib.Acceptor

/-!
# The full-duplex server and the lives of its sessions

`CServer` of `03_full_duplex_server` and `04_sticky_packs`. A session is owned
by the map `sessions_`, or, before it is accepted, by the callback of the
outstanding accept. The callbacks of a session own nothing: they capture `this`.

As long as no completion meets a destroyed session, the events of the server
that belong to an accepted session are a run of that session's own machine
(`exec_session`), so what holds of one session alone holds of each.

A read and a write of one session are outstanding at the same time, and the
first of them to fail erases the session from the map. The other one then
belongs to a destroyed session; its callback is still invoked, with an error
(`dangling`). So the sessions are safe (`Safe`) exactly in the runs where an
operation fails only when it is the last one of its session (`lifetime_iff`).

The map is kept as the list of its keys: the value of a key is the session with
that uuid.
-/

namespace CppNet.Duplex

/-- `sessions` are the uuids in `sessions_`, `accepting` that of the session the
outstanding accept captures, `session` what each session object holds, destroyed
or not. -/
structure CServer (U Node : Type) where
  accepting : U
  sessions : List U := []
  session : U → CSession Node := fun _ => {}
  created : List U
  dangling : Bool := false

inductive ServerEvent (U : Type)
  | accept (error : Bool) (next : U)
  | completion (u : U) (c : Completion)
deriving Repr, DecidableEq

/-- A completion with an error. -/
def Completion.fails : Completion → Bool
  | .readDone error .. | .writeDone _ error => error
  | .transfer _ => false

namespace CServer

variable {U Node : Type} [DecidableEq U]

/-- The session object is alive between callbacks. -/
def Owned (s : CServer U Node) (u : U) : Prop := u ∈ s.sessions ∨ u = s.accepting

instance (s : CServer U Node) (u : U) : Decidable (s.Owned u) :=
  inferInstanceAs (Decidable (_ ∨ _))

def clearSession (s : CServer U Node) (uuid : U) : CServer U Node :=
  { s with sessions := s.sessions.filter fun u => u ≠ uuid }

/-- `next` is the uuid of the new session. -/
def startAccept (s : CServer U Node) (next : U) : CServer U Node :=
  { s with
    accepting := next
    session := Function.update s.session next {}
    created := next :: s.created }

variable [MessageNode Node]

def handleAccept (s : CServer U Node) (error : Bool) (next : U) : CServer U Node :=
  let newSession := s.accepting
  let s :=
    if error then s
    else
      { s with
        session := Function.update s.session newSession (s.session newSession).start
        sessions := s.sessions.insert newSession }
  s.startAccept next

/-- The server after its constructor, which starts the first accept. -/
def init (u : U) : CServer U Node := { accepting := u, created := [u] }

/-- A completion reaches the session `u`. -/
def deliver (s : CServer U Node) (u : U) (c : Completion) : Option (CServer U Node) :=
  match (s.session u).complete c with
  | none => none
  | some (session, clears) =>
      if s.Owned u then
        let s := { s with session := Function.update s.session u session }
        some (if clears then s.clearSession u else s)
      else
        -- the socket is gone with the session; its operations can only fail
        if c.fails then some { s with dangling := true } else none

def step (s : CServer U Node) : ServerEvent U → Option (CServer U Node)
  | .accept error next =>
      if s.dangling = true ∨ next ∈ s.created then none else some (s.handleAccept error next)
  | .completion u c =>
      if s.dangling = true ∨ (s.session u).broken = true then none else s.deliver u c

end CServer

/-! ## What a completion does to the operations of a session -/

def CSession.outstanding {Node : Type} (s : CSession Node) : Nat := s.reads + s.writes.length

section Complete

variable {Node : Type} [MessageNode Node] {s : CSession Node} {c : Completion}
  {r : CSession Node × Bool}

theorem outstanding_pos (h : s.complete c = some r) : 0 < s.outstanding := by
  unfold CSession.outstanding
  cases c with
  | readDone error bytes uninitialised window =>
      have hreads := CSession.reads_pos h
      omega
  | transfer x =>
      obtain ⟨t, ht, -⟩ := Option.map_eq_some_iff.mp h
      obtain ⟨op, -, hop, -⟩ := CSession.transfer_cases ht
      have := List.length_pos_of_mem (List.mem_of_getElem? hop)
      omega
  | writeDone index error =>
      obtain ⟨op, hop, -⟩ := CSession.writeDone_cases h
      have := List.length_pos_of_mem (List.mem_of_getElem? hop)
      omega

/-- A failed completion uses up its operation and calls `ClearSession`. -/
theorem complete_of_fails (hfails : c.fails = true) (h : s.complete c = some r) :
    r.2 = true ∧ r.1.outstanding + 1 = s.outstanding := by
  cases c with
  | readDone error bytes uninitialised window =>
      obtain rfl : error = true := hfails
      have hreads := CSession.reads_pos h
      obtain ⟨-, rfl⟩ := CSession.readFailed_cases h
      refine ⟨rfl, ?_⟩
      show s.reads - 1 + s.writes.length + 1 = s.reads + s.writes.length
      omega
  | transfer x => cases hfails
  | writeDone index error =>
      obtain rfl : error = true := hfails
      obtain ⟨op, hop, -, rfl⟩ := CSession.writeDone_cases h
      have hlt : index < s.writes.length := (List.getElem?_eq_some_iff.mp hop).1
      refine ⟨rfl, ?_⟩
      show s.reads + (s.writes.eraseIdx index).length + 1 = s.reads + s.writes.length
      rw [List.length_eraseIdx_of_lt hlt]
      omega

/-- A completion that does not fail leaves the session in the map. -/
theorem complete_of_succeeds (hfails : c.fails = false) (h : s.complete c = some r) :
    r.2 = false := by
  cases c with
  | readDone error bytes uninitialised window =>
      obtain rfl : error = false := hfails
      obtain ⟨t, -, -, rfl⟩ := CSession.readDone_cases h
      rfl
  | transfer x =>
      obtain ⟨t, -, rfl⟩ := Option.map_eq_some_iff.mp h
      rfl
  | writeDone index error =>
      obtain rfl : error = false := hfails
      obtain ⟨op, -, -, rfl⟩ := CSession.writeDone_cases h
      simp only [CSession.handleWrite, Bool.false_eq_true, if_false]
      split
      · rfl
      · split <;> rfl

end Complete

section Sessions

variable {U Node : Type} [DecidableEq U]

/-! ## What an accept does -/

/-- An accept starts the session that waited, unless it failed, and makes the next one. -/
theorem CServer.session_handleAccept (s : CServer U Node) (error : Bool) (next : U) :
    (s.handleAccept error next).session
      = Acceptor.round CSession.start {} s.session error s.accepting next := by
  cases error <;> rfl

theorem CServer.mem_sessions_handleAccept {s : CServer U Node} {error : Bool} {next u : U} :
    u ∈ (s.handleAccept error next).sessions
      ↔ u ∈ s.sessions ∨ error = false ∧ u = s.accepting := by
  cases error with
  | true => simp [CServer.handleAccept, CServer.startAccept]
  | false => simp [CServer.handleAccept, CServer.startAccept, or_comm]

theorem CServer.created_handleAccept (s : CServer U Node) (error : Bool) (next : U) :
    (s.handleAccept error next).created = next :: s.created := by
  cases error <;> rfl

/-! ## What a delivered completion does -/

/-- The session `u` is alive and takes a step to `r`. -/
structure Takes (s t : CServer U Node) (u : U) (r : CSession Node × Bool) : Prop where
  owned : s.Owned u
  session : t.session = Function.update s.session u r.1
  sessions : t.sessions = if r.2 then s.sessions.filter (fun v => v ≠ u) else s.sessions
  accepting : t.accepting = s.accepting
  created : t.created = s.created
  dangling : t.dangling = s.dangling

theorem deliver_cases [MessageNode Node] {s t : CServer U Node} {u : U} {c : Completion}
    (hstep : s.deliver u c = some t) :
    ∃ r, (s.session u).complete c = some r
      ∧ (Takes s t u r ∨ ¬ s.Owned u ∧ t.dangling = true) := by
  unfold CServer.deliver at hstep
  split at hstep
  · cases hstep
  rename_i session clears hr
  refine ⟨(session, clears), hr, ?_⟩
  split at hstep
  · rename_i howned
    obtain rfl := Option.some.inj hstep
    left
    cases clears <;> exact ⟨howned, rfl, rfl, rfl, rfl, rfl⟩
  · rename_i howned
    split at hstep
    · obtain rfl := Option.some.inj hstep
      exact .inr ⟨howned, rfl⟩
    · cases hstep

theorem CServer.step_cases [MessageNode Node] {s t : CServer U Node} {e : ServerEvent U}
    (hstep : CServer.step s e = some t) :
    (∃ error next, e = .accept error next ∧ next ∉ s.created ∧ t = s.handleAccept error next)
      ∨ ∃ u c, e = .completion u c ∧ (s.session u).broken = false
        ∧ s.deliver u c = some t := by
  cases e with
  | accept error next =>
      simp only [CServer.step] at hstep
      split at hstep
      · cases hstep
      · rename_i hfresh
        exact .inl ⟨error, next, rfl, fun hnext => hfresh (.inr hnext),
          (Option.some.inj hstep).symm⟩
  | completion u c =>
      simp only [CServer.step] at hstep
      split at hstep
      · cases hstep
      · rename_i hguard
        exact .inr ⟨u, c, rfl, by simpa using fun hbroken => hguard (.inr hbroken), hstep⟩

/-! ## The sessions of a server run by themselves -/

/-- What an event of the server is to the session `u`. -/
def eventOf (u : U) : ServerEvent U → Option Event
  | .accept .. => none
  | .completion v c => if v = u then some (.completion c) else none

variable [MessageNode Node]

/-- A session that has been accepted takes the steps of its own machine. -/
theorem step_session {s t : CServer U Node} {e : ServerEvent U}
    (hstep : CServer.step s e = some t) (halive : t.dangling = false) {u : U}
    (hcreated : u ∈ s.created) (hu : u ≠ s.accepting) :
    Machine.exec step (s.session u) (eventOf u e).toList = some (t.session u)
      ∧ u ∈ t.created ∧ u ≠ t.accepting := by
  rcases CServer.step_cases hstep with
    ⟨error, next, rfl, hfresh, rfl⟩ | ⟨v, c, rfl, hsound, hdeliver⟩
  · have hnext : u ≠ next := by
      rintro rfl
      exact hfresh hcreated
    refine ⟨?_, ?_, hnext⟩
    · rw [CServer.session_handleAccept, Acceptor.round_other hnext fun _ => hu]
      rfl
    · rw [CServer.created_handleAccept]
      exact List.mem_cons_of_mem _ hcreated
  · obtain ⟨r, hr, htakes | ⟨-, hdangling⟩⟩ := deliver_cases hdeliver
    · rw [htakes.session, htakes.created, htakes.accepting]
      refine ⟨?_, hcreated, hu⟩
      by_cases hv : v = u
      · subst hv
        rw [Function.update_self, eventOf, if_pos rfl]
        simp only [Option.toList_some, Machine.exec, step, hsound, hr, Option.map_some]
        rfl
      · rw [Function.update_of_ne (Ne.symm hv), eventOf, if_neg hv]
        rfl
    · rw [halive] at hdangling
      cases hdangling

theorem not_dangling_of_exec {s t : CServer U Node} {es : List (ServerEvent U)}
    (hrun : Machine.exec CServer.step s es = some t) (halive : t.dangling = false) :
    s.dangling = false := by
  cases es with
  | nil =>
      obtain rfl := Option.some.inj hrun
      exact halive
  | cons e es =>
      obtain ⟨r, hr, -⟩ := Machine.exec_cons_eq_some.mp hrun
      rw [← Bool.not_eq_true]
      intro hdangling
      cases e <;> simp [CServer.step, hdangling] at hr

/-- The run of an accepted session inside a run of the server is a run of the
session's own machine. -/
theorem exec_session {s t : CServer U Node} {es : List (ServerEvent U)}
    (hrun : Machine.exec CServer.step s es = some t) (halive : t.dangling = false) {u : U}
    (hcreated : u ∈ s.created) (hu : u ≠ s.accepting) :
    Machine.exec step (s.session u) (es.filterMap (eventOf u)) = some (t.session u) := by
  induction es generalizing s with
  | nil =>
      obtain rfl := Option.some.inj hrun
      rfl
  | cons e es ih =>
      obtain ⟨r, hr, hrest⟩ := Machine.exec_cons_eq_some.mp hrun
      have halive' : r.dangling = false := not_dangling_of_exec hrest halive
      obtain ⟨hfirst, hcreated', hu'⟩ := step_session hr halive' hcreated hu
      exact Machine.exec_filterMap_cons hfirst (ih hrest hcreated' hu')

end Sessions

/-! ## Lifetime -/

section Lifetime

variable {U Node : Type}

/-- No completion has reached a destroyed session, and none is on its way. -/
structure Safe (s : CServer U Node) : Prop where
  alive : s.dangling = false
  owned : ∀ u, 0 < (s.session u).outstanding → s.Owned u

/-- Safe, and nothing is outstanding for the session that waits to be accepted. -/
structure Settled (s : CServer U Node) : Prop where
  safe : Safe s
  waiting : (s.session s.accepting).outstanding = 0

/-- If the step delivers an error, it does so to the only operation of the
session. -/
def LastFailure (s : CServer U Node) : ServerEvent U → Prop
  | .accept .. => True
  | .completion u c => c.fails = true → (s.session u).outstanding = 1

theorem settled_init (u : U) : Settled (CServer.init u : CServer U Node) where
  safe := ⟨rfl, fun _ h => absurd h (Nat.lt_irrefl 0)⟩
  waiting := rfl

theorem Settled.mem_sessions {s : CServer U Node} (h : Settled s) {u : U}
    (hop : 0 < (s.session u).outstanding) : u ∈ s.sessions ∧ u ≠ s.accepting := by
  have hne : u ≠ s.accepting := by
    rintro rfl
    rw [h.waiting] at hop
    exact Nat.lt_irrefl 0 hop
  exact ⟨(h.safe.owned u hop).resolve_right hne, hne⟩

variable [DecidableEq U]

theorem settled_accept {s : CServer U Node} (h : Settled s) (error : Bool) (next : U) :
    Settled (s.handleAccept error next) := by
  have hidle : ∀ u, u ∉ (s.handleAccept error next).sessions →
      ((s.handleAccept error next).session u).outstanding = 0 := by
    intro u hu
    rw [CServer.session_handleAccept]
    rw [CServer.mem_sessions_handleAccept, not_or] at hu
    refine Acceptor.round_of_new (P := fun x : CSession Node => x.outstanding = 0) rfl
      (fun herror heq => hu.2 ⟨herror, heq⟩) ?_
    exact Nat.eq_zero_of_not_pos fun hop => hu.1 (h.mem_sessions hop).1
  refine ⟨⟨?_, fun u hop => .inl ?_⟩, ?_⟩
  · cases error <;> exact h.safe.alive
  · refine Classical.byContradiction fun hu => ?_
    rw [hidle u hu] at hop
    exact Nat.lt_irrefl 0 hop
  · show ((s.handleAccept error next).session next).outstanding = 0
    rw [CServer.session_handleAccept, Acceptor.round_next]
    rfl

variable [MessageNode Node]

/-- In a settled state a completion reaches a session of the map. -/
theorem Settled.takes {s t : CServer U Node} (h : Settled s) {u : U} {c : Completion}
    (hstep : s.deliver u c = some t) :
    ∃ r, (s.session u).complete c = some r ∧ Takes s t u r
      ∧ u ∈ s.sessions ∧ u ≠ s.accepting := by
  obtain ⟨r, hr, htakes | ⟨hlost, -⟩⟩ := deliver_cases hstep
  · exact ⟨r, hr, htakes, h.mem_sessions (outstanding_pos hr)⟩
  · exact (hlost (.inl (h.mem_sessions (outstanding_pos hr)).1)).elim

theorem settled_deliver {s t : CServer U Node} (h : Settled s) {u : U} {c : Completion}
    (hlast : c.fails = true → (s.session u).outstanding = 1)
    (hstep : s.deliver u c = some t) : Settled t := by
  obtain ⟨r, hr, htakes, hmem, hne⟩ := h.takes hstep
  refine ⟨⟨htakes.dangling.trans h.safe.alive, fun v hop => ?_⟩, ?_⟩
  · left
    rw [htakes.session] at hop
    by_cases hv : v = u
    · subst hv
      rw [Function.update_self] at hop
      cases hfails : c.fails with
      | true =>
          have hleft := (complete_of_fails hfails hr).2
          have hone := hlast hfails
          omega
      | false =>
          rw [htakes.sessions, complete_of_succeeds hfails hr]
          exact hmem
    · rw [Function.update_of_ne hv] at hop
      have hold := (h.mem_sessions hop).1
      rw [htakes.sessions]
      split
      · exact List.mem_filter.mpr ⟨hold, decide_eq_true hv⟩
      · exact hold
  · rw [htakes.accepting, htakes.session, Function.update_of_ne hne.symm]
    exact h.waiting

/-- A failure that leaves an operation outstanding strands it. -/
theorem not_safe_deliver {s t : CServer U Node} (h : Settled s) {u : U} {c : Completion}
    (hfails : c.fails = true) (hmore : (s.session u).outstanding ≠ 1)
    (hstep : s.deliver u c = some t) : ¬ Safe t := by
  obtain ⟨r, hr, htakes, -, hne⟩ := h.takes hstep
  obtain ⟨hclears, hleft⟩ := complete_of_fails hfails hr
  intro hsafe
  have howned := hsafe.owned u (by rw [htakes.session, Function.update_self]; omega)
  rcases howned with hin | haccept
  · rw [htakes.sessions, if_pos hclears] at hin
    exact of_decide_eq_true (List.mem_filter.mp hin).2 rfl
  · exact hne (haccept.trans htakes.accepting)

/-- No completion meets a destroyed session exactly in the runs where an operation
fails only when nothing else of its session is outstanding. -/
theorem lifetime_iff (u : U) (es : List (ServerEvent U)) :
    Machine.Throughout CServer.step Safe (CServer.init u : CServer U Node) es ↔
      Machine.Along CServer.step LastFailure (CServer.init u : CServer U Node) es := by
  refine Machine.throughout_iff_along Settled.safe ?_ ?_ (settled_init u)
  · intro s e t h hlast hstep
    rcases CServer.step_cases hstep with ⟨error, next, rfl, -, rfl⟩ | ⟨v, c, rfl, -, hdeliver⟩
    · exact settled_accept h error next
    · exact settled_deliver h hlast hdeliver
  · intro s e t h hlast hstep
    rcases CServer.step_cases hstep with ⟨error, next, rfl, -, -⟩ | ⟨v, c, rfl, -, hdeliver⟩
    · exact (hlast trivial).elim
    · obtain ⟨hfails, hmore⟩ := Classical.not_imp.mp hlast
      exact not_safe_deliver h hfails hmore hdeliver

end Lifetime

/-- The echo of `"A"` fails while the session reads on; the read then reports its
error to a session that is gone. -/
theorem lifetime_write_error :
    ¬ Machine.Throughout CServer.step Safe (CServer.init 0 : CServer Nat FullDuplex.MsgNode)
      [.accept false 1, .completion 0 (.readDone false [65] 0 none),
        .completion 0 (.writeDone 0 true), .completion 0 (.readDone true [] 0 none)] := by
  intro h
  have hdangling : (Machine.exec CServer.step (CServer.init 0 : CServer Nat FullDuplex.MsgNode)
      [.accept false 1, .completion 0 (.readDone false [65] 0 none),
        .completion 0 (.writeDone 0 true), .completion 0 (.readDone true [] 0 none)]).map
      CServer.dangling = some true := by decide
  obtain ⟨t, hrun, ht⟩ := Option.map_eq_some_iff.mp hdangling
  have halive := (h.last hrun).alive
  rw [ht] at halive
  cases halive

end CppNet.Duplex
