import CppNet.Http.Server

/-!
# The lifetime of an HTTP connection

Nobody keeps a connection but its callbacks. `make_shared` hands its `shared_ptr` to
`Start`, and from then on every operation has a copy of `self` in its callback: the read,
the write, and the wait on the timer, which `cancel` ends without running its callback at
once. So the use count is the number of callbacks that are still to run (`Counted`). A
callback finds its connection alive, and the last one takes it along: no callback runs on
an object that is gone, and none is left behind.

The read callback starts no other read, and no callback starts an operation that was
started before. So at most three callbacks run for a connection, whatever the others do:
the one of its read, the one of its write and the one of its timer (`three_callbacks`).
Nothing but an operation that does not complete keeps it alive.
-/

namespace CppNet.Http

/-- The callbacks that are still to run for the connection. -/
def outstanding (c : Connection) : Nat := c.reads + c.writes.length + c.waits + c.cancelled

/-- Each of them has a copy of `self`, and nobody else has one. -/
def Counted (c : Connection) : Prop := c.selves = outstanding c

/-- The callbacks that may still run for the connection. -/
def potential (c : Connection) : Nat := outstanding c + 2 * c.reads

/-! ## Callbacks -/

/-- What a callback does for the connection it runs for: it was outstanding, it uses up its
part of the potential, and it keeps the count. -/
structure Runs (c c' : Connection) : Prop where
  outstanding : 0 < outstanding c
  potential : potential c' < potential c
  counted : Counted c → Counted c'

/-- The operations the read callback starts are one write and one wait at most, each with its
copy of `self`. -/
theorem readCallback_counts {logic logic' : LogicSystem} {c c' : Connection}
    {request : Option Request}
    (hcallback : Connection.readCallback logic c request = .ok (logic', c')) :
    c'.reads = c.reads ∧ ∃ n ≤ 2, outstanding c' = outstanding c + n ∧ c'.selves = c.selves + n := by
  obtain ⟨http, rfl | rfl | ⟨response, rfl⟩⟩ := readCallback_cases hcallback
  · exact ⟨rfl, 0, Nat.zero_le _, rfl, rfl⟩
  · refine ⟨rfl, 1, by omega, ?_, rfl⟩
    simp only [outstanding, Connection.checkDeadline, Connection.hold]
    omega
  · refine ⟨rfl, 2, Nat.le_refl _, ?_, rfl⟩
    simp only [outstanding, Connection.checkDeadline, Connection.asyncWrite, Connection.hold,
      List.length_append, List.length_singleton]
    omega

/-- A callback that starts `n` operations in place of its own; for each of them reads have
become fewer. -/
theorem runs_of_counts {c c' : Connection} {n : Nat} (hpos : 0 < outstanding c)
    (hselves : c'.selves = c.selves + n) (hcount : outstanding c' + 1 = outstanding c + n)
    (hreads : n + 2 * c'.reads ≤ 2 * c.reads) : Runs c c'.release := by
  have hout : outstanding c'.release = outstanding c' := rfl
  refine ⟨hpos, ?_, fun hcounted => ?_⟩
  · rw [potential, potential, hout]
    show _ + 2 * c'.reads < _
    omega
  · rw [Counted] at hcounted
    rw [Counted, hout]
    show c'.selves - 1 = _
    omega

theorem runs_readDone {logic logic' : LogicSystem} {c c' : Connection} {request : Option Request}
    (hread : 0 < c.reads)
    (hcallback : Connection.readCallback logic { c with reads := c.reads - 1 } request
      = .ok (logic', c')) : Runs c c'.release := by
  obtain ⟨hreads, n, hle, hcount, hselves⟩ := readCallback_counts hcallback
  have hone : outstanding { c with reads := c.reads - 1 } + 1 = outstanding c := by
    simp only [outstanding]
    omega
  dsimp only at hreads hselves
  exact runs_of_counts (by omega) hselves (by omega) (by omega)

/-- The waits are cancelled, and their callbacks are still to run. -/
theorem runs_writeDone {c : Connection} (hne : c.writes ≠ []) :
    Runs c (Connection.writeCallback { c with writes := c.writes.tail }).release := by
  have hpos : 0 < c.writes.length := List.length_pos_iff.mpr hne
  have hone : outstanding (Connection.writeCallback { c with writes := c.writes.tail }) + 1
      = outstanding c := by
    simp only [outstanding, Connection.writeCallback, List.length_tail]
    omega
  exact runs_of_counts (n := 0) (by omega) rfl hone (Nat.le_of_eq (Nat.zero_add _))

theorem runs_expire {c : Connection} (hwait : 0 < c.waits) :
    Runs c (Connection.deadlineCallback { c with waits := c.waits - 1 } false).release := by
  have hone : outstanding (Connection.deadlineCallback { c with waits := c.waits - 1 } false) + 1
      = outstanding c := by
    simp only [outstanding, Connection.deadlineCallback, Bool.false_eq_true, if_false]
    omega
  exact runs_of_counts (n := 0) (by omega) rfl hone (Nat.le_of_eq (Nat.zero_add _))

theorem runs_cancelled {c : Connection} (hcancelled : 0 < c.cancelled) (error : Bool) :
    Runs c (Connection.deadlineCallback { c with cancelled := c.cancelled - 1 } error).release := by
  have hone : outstanding { c with cancelled := c.cancelled - 1 } + 1 = outstanding c := by
    simp only [outstanding]
    omega
  cases error with
  | true => exact runs_of_counts (n := 0) (by omega) rfl hone (Nat.le_of_eq (Nat.zero_add _))
  | false => exact runs_of_counts (n := 0) (by omega) rfl hone (Nat.le_of_eq (Nat.zero_add _))

section Runs

variable {U : Type} {s t : CServer U}

/-- What was not made is as the constructor of the server left it, and the use counts are
those of the callbacks. -/
structure Accounted (s : CServer U) : Prop where
  unmade : ∀ u ∉ s.created, s.connection u = .new
  counted : ∀ u, Counted (s.connection u)

theorem Accounted.made (h : Accounted s) {u : U} (hpos : 0 < outstanding (s.connection u)) :
    u ∈ s.created := by
  refine Classical.byContradiction fun hu => ?_
  rw [h.unmade u hu] at hpos
  exact absurd hpos (Nat.lt_irrefl 0)

variable [DecidableEq U]

/-- The callback runs for the connection `u`. -/
def Event.concerns (u : U) : Event U → Bool
  | .accept _ => false
  | .readDone v _ | .writeDone v | .expire v | .cancelled v _ => v = u

/-- A callback of a connection makes none, and leaves the others as they are. -/
theorem callback_cases {u : U} {e : Event U} (hconcerns : e.concerns u = true)
    (hstep : s.step e = some t) :
    t.created = s.created ∧ (∀ v, v ≠ u → t.connection v = s.connection v)
      ∧ Runs (s.connection u) (t.connection u) := by
  have hset : ∀ {c : Connection}, Runs (s.connection u) c →
      (∀ v, v ≠ u → (s.set u c).connection v = s.connection v)
        ∧ Runs (s.connection u) ((s.set u c).connection u) := by
    intro c hc
    refine ⟨fun v hv => Function.update_of_ne hv _ _, ?_⟩
    simp only [CServer.set, Function.update_self]
    exact hc
  cases e with
  | accept outcome => cases hconcerns
  | readDone v request =>
      obtain rfl : v = u := of_decide_eq_true hconcerns
      obtain ⟨hread, -, logic, c, hcallback, rfl⟩ := CServer.readDone_cases hstep
      exact ⟨rfl, hset (runs_readDone hread hcallback)⟩
  | writeDone v =>
      obtain rfl : v = u := of_decide_eq_true hconcerns
      obtain ⟨hne, rfl⟩ := CServer.writeDone_cases hstep
      exact ⟨rfl, hset (runs_writeDone hne)⟩
  | expire v =>
      obtain rfl : v = u := of_decide_eq_true hconcerns
      obtain ⟨hwait, rfl⟩ := CServer.expire_cases hstep
      exact ⟨rfl, hset (runs_expire hwait)⟩
  | cancelled v error =>
      obtain rfl : v = u := of_decide_eq_true hconcerns
      obtain ⟨hcancelled, rfl⟩ := CServer.cancelled_cases hstep
      exact ⟨rfl, hset (runs_cancelled hcancelled error)⟩

/-- The callback of an accept makes a new connection, or changes none. -/
theorem accept_connection {outcome : Outcome U} (hstep : s.step (.accept outcome) = some t) :
    (t.created = s.created ∧ t.connection = s.connection)
      ∨ ∃ u ∉ s.created, t.created = u :: s.created
        ∧ t.connection = Function.update s.connection u Connection.new.hold.start.release := by
  obtain ⟨-, hnew, rfl⟩ := CServer.accept_cases hstep
  cases outcome with
  | failed => exact .inl ⟨rfl, rfl⟩
  | threw => exact .inl ⟨rfl, rfl⟩
  | connected u => exact .inr ⟨u, fun hu => hnew u hu rfl, rfl, rfl⟩

/-- Every other event is a callback of some connection. -/
theorem Event.accept_or_concerns (e : Event U) :
    (∃ outcome, e = .accept outcome) ∨ ∃ u, e.concerns u = true := by
  cases e with
  | accept outcome => exact .inl ⟨outcome, rfl⟩
  | readDone u request => exact .inr ⟨u, decide_eq_true rfl⟩
  | writeDone u => exact .inr ⟨u, decide_eq_true rfl⟩
  | expire u => exact .inr ⟨u, decide_eq_true rfl⟩
  | cancelled u error => exact .inr ⟨u, decide_eq_true rfl⟩

/-! ## Runs -/

/-- A connection that is still to be made has its three callbacks before it. -/
def remaining (u : U) (s : CServer U) : Nat :=
  if u ∈ s.created then potential (s.connection u) else 3

theorem accounted_step {e : Event U} (h : Accounted s) (hstep : s.step e = some t) :
    Accounted t := by
  rcases e.accept_or_concerns with ⟨outcome, rfl⟩ | ⟨u, hconcerns⟩
  · rcases accept_connection hstep with ⟨hcreated, hsame⟩ | ⟨u, -, hcreated, hnew⟩
    · exact ⟨hcreated ▸ hsame ▸ h.unmade, hsame ▸ h.counted⟩
    · refine ⟨fun v hv => ?_, fun v => ?_⟩
      · rw [hcreated, List.mem_cons, not_or] at hv
        rw [hnew, Function.update_of_ne hv.1]
        exact h.unmade v hv.2
      · rw [hnew]
        by_cases hvu : v = u
        · rw [hvu, Function.update_self]
          rfl
        · rw [Function.update_of_ne hvu]
          exact h.counted v
  · obtain ⟨hcreated, hother, hruns⟩ := callback_cases hconcerns hstep
    refine ⟨fun v hv => ?_, fun v => ?_⟩
    · rw [hcreated] at hv
      rw [hother v fun hvu => hv (hvu ▸ h.made hruns.outstanding)]
      exact h.unmade v hv
    · by_cases hvu : v = u
      · rw [hvu]
        exact hruns.counted (h.counted u)
      · rw [hother v hvu]
        exact h.counted v

theorem remaining_lt {u : U} {e : Event U} (h : Accounted s) (hconcerns : e.concerns u = true)
    (hstep : s.step e = some t) : remaining u t < remaining u s := by
  obtain ⟨hcreated, -, hruns⟩ := callback_cases hconcerns hstep
  have hu : u ∈ s.created := h.made hruns.outstanding
  rw [remaining, remaining, hcreated, if_pos hu, if_pos hu]
  exact hruns.potential

theorem remaining_le {u : U} {e : Event U} (hconcerns : e.concerns u = false)
    (hstep : s.step e = some t) : remaining u t ≤ remaining u s := by
  rcases e.accept_or_concerns with ⟨outcome, rfl⟩ | ⟨v, hv⟩
  · rcases accept_connection hstep with ⟨hcreated, hsame⟩ | ⟨v, hv, hcreated, hnew⟩
    · rw [remaining, remaining, hcreated, hsame]
    · rw [remaining, remaining, hcreated, hnew]
      by_cases huv : u = v
      · subst huv
        rw [if_pos (List.mem_cons_self ..), if_neg hv, Function.update_self]
        exact Nat.le_refl 3
      · simp only [List.mem_cons, huv, false_or, Function.update_of_ne huv, Nat.le_refl]
  · have hne : u ≠ v := by
      rintro rfl
      rw [hv] at hconcerns
      cases hconcerns
    obtain ⟨hcreated, hother, -⟩ := callback_cases hv hstep
    rw [remaining, remaining, hcreated, hother u hne]

/-- Each callback that is outstanding can run, though the read may have to fail. -/
theorem outstanding_eq_zero_iff (s : CServer U) (u : U) :
    outstanding (s.connection u) = 0
      ↔ ∀ e : Event U, e.concerns u = true → s.step e = none := by
  constructor
  · intro h e hconcerns
    refine Option.eq_none_iff_forall_ne_some.mpr fun t hstep => ?_
    have hpos := (callback_cases hconcerns hstep).2.2.outstanding
    omega
  · intro h
    have hreads : (s.connection u).reads = 0 := by
      refine Nat.eq_zero_of_not_pos fun hread => ?_
      have hnone := h (.readDone u none) (decide_eq_true rfl)
      have hguard : 0 < (s.connection u).reads
          ∧ ((s.connection u).closed = true → (none : Option Request) = none) :=
        ⟨hread, fun _ => rfl⟩
      have hsome : s.step (.readDone u none) = some _ := (if_pos hguard).trans rfl
      rw [hsome] at hnone
      cases hnone
    have hwrites : (s.connection u).writes = [] := by
      refine Classical.byContradiction fun hne => ?_
      have hnone := h (.writeDone u) (decide_eq_true rfl)
      simp only [CServer.step, if_neg hne] at hnone
      cases hnone
    have hwaits : (s.connection u).waits = 0 := by
      refine Nat.eq_zero_of_not_pos fun hwait => ?_
      have hnone := h (.expire u) (decide_eq_true rfl)
      simp only [CServer.step, if_pos hwait] at hnone
      cases hnone
    have hcancelled : (s.connection u).cancelled = 0 := by
      refine Nat.eq_zero_of_not_pos fun hpos => ?_
      have hnone := h (.cancelled u true) (decide_eq_true rfl)
      simp only [CServer.step, if_pos hpos] at hnone
      cases hnone
    rw [outstanding, hreads, hwrites, hwaits, hcancelled]
    rfl

/-- The object was made, and the last `shared_ptr` to it is gone. -/
def Destroyed (s : CServer U) (u : U) : Prop := u ∈ s.created ∧ (s.connection u).selves = 0

/-- In every run at most three callbacks run for a connection, those that are still to run
counted; each of them finds it alive; and it is destroyed as soon as none can run any more,
and not before. -/
theorem three_callbacks (logic : LogicSystem) {es : List (Event U)}
    (hrun : Machine.exec CServer.step (CServer.new logic).start es = some t) (u : U) :
    es.countP (Event.concerns u) + remaining u t ≤ 3
      ∧ Machine.Along CServer.step
          (fun s e => e.concerns u = true → 0 < (s.connection u).selves)
          (CServer.new logic).start es
      ∧ (Destroyed t u
        ↔ u ∈ t.created ∧ ∀ e : Event U, e.concerns u = true → t.step e = none) := by
  have hstart : Accounted (CServer.new (U := U) logic).start := ⟨fun _ _ => rfl, fun _ => rfl⟩
  have haccounted : Machine.Throughout CServer.step Accounted (CServer.new logic).start es :=
    Machine.throughout_of_step accounted_step hstart es
  refine ⟨?_, ?_, ?_⟩
  · exact Machine.exec_countP_le (remaining u) remaining_lt (fun _ => remaining_le) accounted_step
      hstart hrun
  · refine haccounted.along fun h hstep hconcerns => ?_
    rw [h.counted u]
    exact (callback_cases hconcerns hstep).2.2.outstanding
  · rw [Destroyed, (haccounted.last hrun).counted u, outstanding_eq_zero_iff]

/-- A request that is answered. The callback of the wait that the write cancels is the last
one, and the connection is gone when it has run. -/
theorem three_callbacks_get :
    let es : List (Event Nat) := [.accept (.connected 0),
      .readDone 0 (some { method := .get, target := [] }), .writeDone 0, .cancelled 0 true]
    ∃ t, Machine.exec CServer.step (CServer.new (.ofRegistrations [])).start es = some t
      ∧ Destroyed t 0
      ∧ es.countP (Event.concerns 0) + remaining 0 t ≤ 3
      ∧ Machine.Along CServer.step
          (fun s e => e.concerns 0 = true → 0 < (s.connection 0).selves)
          (CServer.new (.ofRegistrations [])).start es
      ∧ ∀ e : Event Nat, e.concerns 0 = true → t.step e = none := by
  intro es
  obtain ⟨t, hrun, hdestroyed⟩ : ∃ t,
      Machine.exec CServer.step (CServer.new (.ofRegistrations [])).start es = some t
        ∧ Destroyed t 0 := ⟨_, rfl, by decide, rfl⟩
  obtain ⟨hcount, halive, hlast⟩ := three_callbacks (.ofRegistrations []) hrun 0
  exact ⟨t, hrun, hdestroyed, hcount, halive, (hlast.mp hdestroyed).2⟩

end Runs

end CppNet.Http
