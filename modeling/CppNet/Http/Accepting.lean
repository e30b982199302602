import CppNet.Http.Server

/-!
# The acceptor of the HTTP server

`Start` arms one accept, and nothing but the callback of that accept arms the
next. It does so on its way out after an error and at its end, but not in its
`catch`. One accept is outstanding until a callback gets there, and none from
then on (`accepting_iff`, `deaf`).
-/

namespace CppNet.Http

/-- The accept completes. -/
def Event.Accepts {U : Type} (e : Event U) : Prop := ∃ outcome, e = .accept outcome

/-- The accept completes, and its callback runs into the `catch`. -/
def Event.Throws {U : Type} (e : Event U) : Prop := e = .accept .threw

variable {U : Type} [DecidableEq U]

/-- Exactly one `async_accept` is outstanding. -/
def Armed (s : CServer U) : Prop := s.accepts = 1

instance : DecidablePred (Armed (U := U)) := fun s => inferInstanceAs (Decidable (s.accepts = 1))

/-! ## Steps -/

/-- The reads, writes and timers of the connections leave the acceptor alone. -/
theorem accepts_of_not_accepts {s t : CServer U} {e : Event U} (hno : ¬ e.Accepts)
    (hstep : s.step e = some t) : t.accepts = s.accepts := by
  cases e with
  | accept outcome => exact absurd ⟨outcome, rfl⟩ hno
  | readDone u request =>
      obtain ⟨-, -, logic, c, -, rfl⟩ := CServer.readDone_cases hstep
      rfl
  | writeDone u =>
      obtain ⟨-, rfl⟩ := CServer.writeDone_cases hstep
      rfl
  | expire u =>
      obtain ⟨-, rfl⟩ := CServer.expire_cases hstep
      rfl
  | cancelled u error =>
      obtain ⟨-, rfl⟩ := CServer.cancelled_cases hstep
      rfl

/-- The callback arms an accept for the one that has completed, unless it throws. -/
theorem accepts_callback {s t : CServer U} {outcome : Outcome U}
    (hstep : s.step (.accept outcome) = some t) :
    0 < s.accepts ∧ (outcome ≠ .threw → t.accepts = s.accepts)
      ∧ (outcome = .threw → t.accepts + 1 = s.accepts) := by
  obtain ⟨hpos, -, rfl⟩ := CServer.accept_cases hstep
  have hback : s.accepts - 1 + 1 = s.accepts := Nat.sub_add_cancel hpos
  refine ⟨hpos, ?_, ?_⟩
  · intro hne
    cases outcome with
    | failed => exact hback
    | connected u => exact hback
    | threw => exact absurd rfl hne
  · rintro rfl
    exact hback

theorem armed_step {s t : CServer U} {e : Event U} (h : Armed s) (hno : ¬ e.Throws)
    (hstep : s.step e = some t) : Armed t := by
  by_cases haccepts : e.Accepts
  · obtain ⟨outcome, rfl⟩ := haccepts
    have hne : outcome ≠ .threw := fun hthrew => hno (congrArg Event.accept hthrew)
    exact ((accepts_callback hstep).2.1 hne).trans h
  · exact (accepts_of_not_accepts haccepts hstep).trans h

/-- A callback that throws takes the only accept with it. -/
theorem accepts_of_throws {s t : CServer U} {e : Event U} (h : Armed s) (hthrows : e.Throws)
    (hstep : s.step e = some t) : t.accepts = 0 := by
  rw [hthrows] at hstep
  exact Nat.succ.inj (((accepts_callback hstep).2.2 rfl).trans h)

/-- Only an outstanding accept can complete. -/
theorem not_accepts_of_none {s t : CServer U} {e : Event U} (h : s.accepts = 0)
    (hstep : s.step e = some t) : ¬ e.Accepts := by
  rintro ⟨outcome, rfl⟩
  have hpos := (accepts_callback hstep).1
  omega

theorem none_step {s t : CServer U} {e : Event U} (h : s.accepts = 0)
    (hstep : s.step e = some t) : t.accepts = 0 :=
  (accepts_of_not_accepts (not_accepts_of_none h hstep) hstep).trans h

/-! ## Runs -/

/-- A server without an outstanding accept goes on with the connections it has, and
never accepts another. -/
theorem deaf {s : CServer U} (h : s.accepts = 0) (es : List (Event U)) :
    Machine.Throughout CServer.step (fun t => t.accepts = 0) s es
      ∧ Machine.Along CServer.step (fun _ e => ¬ e.Accepts) s es := by
  have hnone : Machine.Throughout CServer.step (fun t => t.accepts = 0) s es :=
    Machine.throughout_of_step none_step h es
  exact ⟨hnone, hnone.along not_accepts_of_none⟩

/-- One accept is outstanding throughout a run exactly if none of its accept callbacks
throws. -/
theorem accepting_iff (logic : LogicSystem) (es : List (Event U)) :
    Machine.Throughout CServer.step Armed (CServer.new logic).start es
      ↔ Machine.Along CServer.step (fun _ e => ¬ e.Throws) (CServer.new logic).start es := by
  refine Machine.throughout_iff_along (I := Armed) id armed_step ?_ rfl
  intro s e t h hthrows hstep harmed
  have hnone := accepts_of_throws h (not_not.mp hthrows) hstep
  rw [Armed, hnone] at harmed
  cases harmed

/-- The first connection cannot be set up. -/
theorem accepting_lost :
    ¬ Machine.Throughout CServer.step Armed (CServer.new (U := Nat) (.ofRegistrations [])).start
      [.accept .threw] := by
  decide

end CppNet.Http
