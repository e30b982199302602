import CppNet.Duplex.Server

/-!
# The map of the full-duplex servers

`sessions_` is filled by `HandleAccept` and emptied by `ClearSession`, which two
callbacks of a session call by its uuid. It holds exactly the sessions that were
accepted and of which no operation has failed yet, in every run of both servers
(`map_registered`): none is forgotten, none is cleared by another one, and none stays behind.

Each session in the map has one read outstanding. Whether it has a write outstanding can
be told from its queue, so `HandleWrite` pops no empty queue. How long the writes are,
and what they send, has no part in this, and neither has the `MsgNode`.
-/

namespace CppNet.Duplex

variable {U Node : Type}

/-! ## A session without failures -/

/-- One read is outstanding, and a write exactly if the queue is not empty. -/
structure Busy (s : CSession Node) : Prop where
  sound : s.broken = false
  reads : s.reads = 1
  writes : s.writes.length = if s.sendQueue = [] then 0 else 1

theorem busy_start : Busy (CSession.start {} : CSession Node) := ⟨rfl, rfl, rfl⟩

section Complete

variable [MessageNode Node] {s t : CSession Node}

/-- `Send` starts a write exactly if the queue was empty. -/
theorem send_counts (hwrites : s.writes.length = if s.sendQueue = [] then 0 else 1)
    (msg : Ptr Node) (n uninitialised : Int) :
    (s.send msg n uninitialised).broken = s.broken
      ∧ (s.send msg n uninitialised).reads = s.reads
      ∧ (s.send msg n uninitialised).sendQueue ≠ []
      ∧ (s.send msg n uninitialised).writes.length = 1 := by
  by_cases hqueue : s.sendQueue = []
  · rw [if_pos hqueue] at hwrites
    rw [CSession.send_of_idle hqueue]
    refine ⟨rfl, rfl, List.cons_ne_nil _ _, ?_⟩
    rw [CSession.asyncWrite, List.length_append, List.length_singleton]
    exact congrArg (· + 1) hwrites
  · rw [if_neg hqueue] at hwrites
    rw [CSession.send_of_pending hqueue]
    exact ⟨rfl, rfl, by simp, hwrites⟩

/-- A completed write leaves none outstanding, or the one for the next node. -/
theorem busy_writeDone (h : Busy s) {index : Nat} {r : CSession Node × Bool}
    (hdone : s.complete (.writeDone index false) = some r) : Busy r.1 := by
  obtain ⟨op, hop, -, rfl⟩ := CSession.writeDone_cases hdone
  have hlt : index < s.writes.length := (List.getElem?_eq_some_iff.mp hop).1
  have hwrites := h.writes
  cases hqueue : s.sendQueue with
  | nil =>
      rw [if_pos hqueue] at hwrites
      omega
  | cons node rest =>
      rw [if_neg (by simp [hqueue])] at hwrites
      have hnone : s.writes.eraseIdx index = [] := by
        rw [← List.length_eq_zero_iff, List.length_eraseIdx_of_lt hlt]
        omega
      simp only [CSession.handleWrite, Bool.false_eq_true, if_false, hnone]
      cases rest with
      | nil => exact ⟨h.sound, h.reads, rfl⟩
      | cons next rest => exact ⟨h.sound, h.reads, rfl⟩

theorem busy_complete (h : Busy s) {c : Completion} (hok : c.fails = false)
    {r : CSession Node × Bool} (hr : s.complete c = some r) : Busy r.1 := by
  cases c with
  | readDone error bytes uninitialised window =>
      obtain rfl : error = false := hok
      obtain ⟨t, -, hwindow, rfl⟩ := CSession.readDone_cases hr
      have hmoved := CSession.inWindow_moved hwindow
      obtain ⟨hbroken, hreads, hne, hone⟩ := send_counts (s := s.fill bytes) h.writes .data
        (toInt bytes.length) uninitialised
      refine ⟨?_, ?_, ?_⟩
      · exact (hmoved.broken.trans hbroken).trans h.sound
      · show t.reads + 1 = 1
        rw [hmoved.reads, hreads]
        show s.reads - 1 + 1 = 1
        rw [h.reads]
      · show t.writes.length = if t.sendQueue = [] then 0 else 1
        rw [if_neg (by rw [hmoved.sendQueue]; exact hne), hmoved.writes_length, hone]
  | transfer x =>
      obtain ⟨t, hx, rfl⟩ := Option.map_eq_some_iff.mp hr
      have hmoved := CSession.transfer_moved hx
      refine ⟨hmoved.broken.trans h.sound, hmoved.reads.trans h.reads, ?_⟩
      rw [hmoved.writes_length, hmoved.sendQueue]
      exact h.writes
  | writeDone index error =>
      obtain rfl : error = false := hok
      exact busy_writeDone h hr

end Complete

/-! ## The register -/

/-- The sessions that were accepted, and those with an operation that failed. -/
structure Register (U : Type) where
  accepted : List U := []
  failed : List U := []
deriving Repr, DecidableEq

def enroll (s : CServer U Node) (e : ServerEvent U) (_ : CServer U Node) (r : Register U) :
    Register U :=
  match e with
  | .accept error _ => if error then r else { r with accepted := s.accepting :: r.accepted }
  | .completion u c => if c.fails then { r with failed := u :: r.failed } else r

/-- The map holds what was accepted and has not failed, and these sessions are busy. -/
structure Registered (s : CServer U Node) (r : Register U) : Prop where
  mem_iff : ∀ u, u ∈ s.sessions ↔ u ∈ r.accepted ∧ u ∉ r.failed
  busy : ∀ u ∈ s.sessions, Busy (s.session u)

/-- Moreover the session that waits is new, like all there will be, and no uuid comes
twice. -/
structure Enrolled (s : CServer U Node) (r : Register U) : Prop where
  registered : Registered s r
  waiting : s.session s.accepting = {} ∧ s.accepting ∉ r.accepted ∧ s.accepting ∉ r.failed
  fresh : ∀ u ∉ s.created, s.session u = {}
  made : ∀ u, u ∈ r.accepted ∨ u ∈ r.failed ∨ u = s.accepting → u ∈ s.created

theorem enrolled_init (u : U) : Enrolled (CServer.init u : CServer U Node) {} where
  registered := ⟨by simp [CServer.init], by simp [CServer.init]⟩
  waiting := ⟨rfl, by simp, by simp⟩
  fresh := fun _ _ => rfl
  made := by
    rintro v (hv | hv | rfl)
    · cases hv
    · cases hv
    · exact List.mem_cons_self ..

variable {s t : CServer U Node} {r : Register U} {u : U}

/-- What a session that is gone reports has no effect on the map. -/
theorem enrolled_dangles (h : Enrolled s r) (hu : u ∉ s.sessions) (hne : u ≠ s.accepting)
    (hcreated : u ∈ s.created) :
    Enrolled { s with dangling := true } { r with failed := u :: r.failed } := by
  refine ⟨⟨fun v => ?_, h.registered.busy⟩, ?_, h.fresh, ?_⟩
  · rw [List.mem_cons, not_or]
    constructor
    · intro hv
      obtain ⟨haccepted, hok⟩ := (h.registered.mem_iff v).mp hv
      exact ⟨haccepted, fun heq => hu (heq ▸ hv), hok⟩
    · exact fun hv => (h.registered.mem_iff v).mpr ⟨hv.1, hv.2.2⟩
  · rw [List.mem_cons, not_or]
    exact ⟨h.waiting.1, h.waiting.2.1, hne.symm, h.waiting.2.2⟩
  · rintro v (hv | hv | heq)
    · exact h.made v (.inl hv)
    · rcases List.mem_cons.mp hv with rfl | hold
      · exact hcreated
      · exact h.made v (.inr (.inl hold))
    · exact h.made v (.inr (.inr heq))

variable [DecidableEq U]

theorem enrolled_accept [MessageNode Node] (h : Enrolled s r) (error : Bool) {next : U} (hfresh : next ∉ s.created) :
    Enrolled (s.handleAccept error next)
      (enroll s (.accept error next) (s.handleAccept error next) r) := by
  have hnext : next ∉ r.accepted ∧ next ∉ r.failed ∧ s.accepting ≠ next :=
    ⟨fun hmem => hfresh (h.made next (.inl hmem)),
      fun hmem => hfresh (h.made next (.inr (.inl hmem))),
      fun heq => hfresh (h.made next (.inr (.inr heq.symm)))⟩
  have haccepting : (s.handleAccept error next).accepting = next := by cases error <;> rfl
  have haccepted : ∀ u, u ∈ (enroll s (.accept error next) (s.handleAccept error next) r).accepted
      ↔ u ∈ r.accepted ∨ error = false ∧ u = s.accepting := by
    intro u
    cases error with
    | true => simp [enroll]
    | false => simp [enroll, or_comm]
  have hfailed : (enroll s (.accept error next) (s.handleAccept error next) r).failed
      = r.failed := by cases error <;> rfl
  refine ⟨⟨fun u => ?_, fun u hu => ?_⟩, ⟨?_, ?_, ?_⟩, fun u hu => ?_, ?_⟩
  · rw [CServer.mem_sessions_handleAccept, haccepted, hfailed, h.registered.mem_iff]
    constructor
    · rintro (⟨hold, hok⟩ | ⟨herror, rfl⟩)
      · exact ⟨.inl hold, hok⟩
      · exact ⟨.inr ⟨herror, rfl⟩, h.waiting.2.2⟩
    · rintro ⟨hold | hnew, hok⟩
      · exact .inl ⟨hold, hok⟩
      · exact .inr hnew
  · rw [CServer.session_handleAccept]
    rcases CServer.mem_sessions_handleAccept.mp hu with hold | ⟨rfl, rfl⟩
    · have hmem := ((h.registered.mem_iff u).mp hold).1
      have hne : u ≠ next := fun heq => hnext.1 (heq ▸ hmem)
      have hwaiting : u ≠ s.accepting := fun heq => h.waiting.2.1 (heq ▸ hmem)
      rw [Acceptor.round_other hne fun _ => hwaiting]
      exact h.registered.busy u hold
    · rw [Acceptor.round_waiting hnext.2.2, h.waiting.1]
      exact busy_start
  · rw [haccepting, CServer.session_handleAccept, Acceptor.round_next]
  · rw [haccepting, haccepted]
    rintro (hold | ⟨-, heq⟩)
    · exact hnext.1 hold
    · exact hnext.2.2 heq.symm
  · rw [haccepting, hfailed]
    exact hnext.2.1
  · rw [CServer.created_handleAccept, List.mem_cons, not_or] at hu
    have hwaiting : u ≠ s.accepting := fun heq => hu.2 (h.made u (.inr (.inr heq)))
    rw [CServer.session_handleAccept, Acceptor.round_other hu.1 fun _ => hwaiting]
    exact h.fresh u hu.2
  · intro u hu
    rw [haccepted, hfailed, haccepting] at hu
    rw [CServer.created_handleAccept]
    rcases hu with (hold | ⟨-, rfl⟩) | hold | rfl
    · exact List.mem_cons_of_mem _ (h.made u (.inl hold))
    · exact List.mem_cons_of_mem _ (h.made _ (.inr (.inr rfl)))
    · exact List.mem_cons_of_mem _ (h.made u (.inr (.inl hold)))
    · exact List.mem_cons_self ..

variable [MessageNode Node] {c : Completion}

theorem complete_new (c : Completion) : ({} : CSession Node).complete c = none := by
  refine Option.eq_none_iff_forall_ne_some.mpr fun x hx => ?_
  exact absurd (outstanding_pos hx) (Nat.lt_irrefl 0)

/-- A completion reaches a session of the map, or one that is neither there nor waiting; it
has failed then, and changes nothing. -/
theorem Enrolled.deliver_cases (h : Enrolled s r) (hstep : s.deliver u c = some t) :
    (∃ x, (s.session u).complete c = some x ∧ Takes s t u x ∧ u ∈ s.sessions)
      ∨ (u ∉ s.sessions ∧ u ≠ s.accepting ∧ u ∈ s.created ∧ c.fails = true
        ∧ t = { s with dangling := true }) := by
  have hnew : s.session u ≠ {} := by
    intro hnew
    rw [CServer.deliver, hnew, complete_new] at hstep
    cases hstep
  have hwaiting : u ≠ s.accepting := fun heq => hnew (heq ▸ h.waiting.1)
  have hcreated : u ∈ s.created :=
    Classical.byContradiction fun hu => hnew (h.fresh u hu)
  unfold CServer.deliver at hstep
  split at hstep
  · cases hstep
  rename_i session clears hx
  split at hstep
  · rename_i howned
    obtain rfl := Option.some.inj hstep
    refine .inl ⟨(session, clears), hx, ?_, howned.resolve_right hwaiting⟩
    cases clears <;> exact ⟨howned, rfl, rfl, rfl, rfl, rfl⟩
  · rename_i howned
    split at hstep
    · rename_i hfails
      exact .inr ⟨fun hu => howned (.inl hu), hwaiting, hcreated, hfails,
        (Option.some.inj hstep).symm⟩
    · cases hstep

/-- A session goes on. -/
theorem enrolled_goes_on (h : Enrolled s r) {x : CSession Node × Bool}
    (hx : (s.session u).complete c = some x) (htakes : Takes s t u x) (hu : u ∈ s.sessions)
    (hok : c.fails = false) : Enrolled t r := by
  have hclears := complete_of_succeeds hok hx
  have hsessions : t.sessions = s.sessions := by rw [htakes.sessions, hclears]; rfl
  have haccepted := ((h.registered.mem_iff u).mp hu).1
  refine ⟨⟨?_, fun v hv => ?_⟩, ?_, fun v hv => ?_, ?_⟩
  · rw [hsessions]
    exact h.registered.mem_iff
  · rw [hsessions] at hv
    rw [htakes.session]
    by_cases hvu : v = u
    · subst hvu
      rw [Function.update_self]
      exact busy_complete (h.registered.busy v hv) hok hx
    · rw [Function.update_of_ne hvu]
      exact h.registered.busy v hv
  · have hne : s.accepting ≠ u := fun heq => h.waiting.2.1 (heq ▸ haccepted)
    rw [htakes.accepting, htakes.session, Function.update_of_ne hne]
    exact h.waiting
  · rw [htakes.created] at hv
    have hne : v ≠ u := fun heq => hv (heq ▸ h.made u (.inl haccepted))
    rw [htakes.session, Function.update_of_ne hne]
    exact h.fresh v hv
  · rw [htakes.created, htakes.accepting]
    exact h.made

/-- A session of the map fails and is cleared. -/
theorem enrolled_clears (h : Enrolled s r) {x : CSession Node × Bool}
    (hx : (s.session u).complete c = some x) (htakes : Takes s t u x) (hu : u ∈ s.sessions)
    (hfails : c.fails = true) : Enrolled t { r with failed := u :: r.failed } := by
  have hclears := (complete_of_fails hfails hx).1
  have hsessions : ∀ v, v ∈ t.sessions ↔ v ∈ s.sessions ∧ v ≠ u := by
    intro v
    rw [htakes.sessions, if_pos hclears, List.mem_filter, decide_eq_true_eq]
  have haccepted := ((h.registered.mem_iff u).mp hu).1
  have hne : s.accepting ≠ u := fun heq => h.waiting.2.1 (heq ▸ haccepted)
  refine ⟨⟨fun v => ?_, fun v hv => ?_⟩, ?_, fun v hv => ?_, ?_⟩
  · rw [hsessions, h.registered.mem_iff, List.mem_cons, not_or]
    exact ⟨fun hv => ⟨hv.1.1, hv.2, hv.1.2⟩, fun hv => ⟨⟨hv.1, hv.2.2⟩, hv.2.1⟩⟩
  · obtain ⟨hv, hvu⟩ := (hsessions v).mp hv
    rw [htakes.session, Function.update_of_ne hvu]
    exact h.registered.busy v hv
  · rw [htakes.accepting, htakes.session, Function.update_of_ne hne, List.mem_cons, not_or]
    exact ⟨h.waiting.1, h.waiting.2.1, hne, h.waiting.2.2⟩
  · rw [htakes.created] at hv
    have hvu : v ≠ u := fun heq => hv (heq ▸ h.made u (.inl haccepted))
    rw [htakes.session, Function.update_of_ne hvu]
    exact h.fresh v hv
  · rw [htakes.created, htakes.accepting]
    rintro v (hv | hv | heq)
    · exact h.made v (.inl hv)
    · rcases List.mem_cons.mp hv with rfl | hold
      · exact h.made _ (.inl haccepted)
      · exact h.made v (.inr (.inl hold))
    · exact h.made v (.inr (.inr heq))

theorem enrolled_step {x y : CServer U Node × Register U} {e : ServerEvent U}
    (h : Enrolled x.1 x.2) (hstep : Machine.record CServer.step enroll x e = some y) :
    Enrolled y.1 y.2 := by
  obtain ⟨s, r⟩ := x
  obtain ⟨t, ht, rfl⟩ := Machine.record_eq_some.mp hstep
  dsimp only at h ht ⊢
  rcases CServer.step_cases ht with ⟨error, next, rfl, hfresh, rfl⟩ | ⟨u, c, rfl, -, hdeliver⟩
  · exact enrolled_accept h error hfresh
  · rcases h.deliver_cases hdeliver with
      ⟨x, hx, htakes, hu⟩ | ⟨hu, hne, hcreated, hfails, rfl⟩
    · cases hfails : c.fails with
      | false =>
          simp only [enroll, hfails, Bool.false_eq_true, if_false]
          exact enrolled_goes_on h hx htakes hu hfails
      | true =>
          simp only [enroll, hfails, if_true]
          exact enrolled_clears h hx htakes hu hfails
    · simp only [enroll, hfails, if_true]
      exact enrolled_dangles h hu hne hcreated

/-- In every run the map of a full-duplex server holds exactly the sessions that were
accepted and of which no operation has failed. A run ends with the first callback of a
session that is gone, since nothing is known of the program behind it; up to that state,
and in it, the map is as said. -/
theorem map_registered (u : U) (es : List (ServerEvent U)) :
    Machine.Throughout (Machine.record CServer.step enroll)
      (fun x : CServer U Node × Register U => Registered x.1 x.2) (CServer.init u, {}) es :=
  (Machine.throughout_of_step (I := fun x : CServer U Node × Register U => Enrolled x.1 x.2)
    enrolled_step (enrolled_init u) es).mono fun _ h => h.registered

end CppNet.Duplex
