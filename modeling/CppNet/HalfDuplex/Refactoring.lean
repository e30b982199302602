import Mathlib.Data.List.InsertIdx
import CppNet.HalfDuplex.RawServer
import CppNet.HalfDuplex.SharedServer

/-!
# From raw pointers to shared sessions

`02_good_echo_server` is `01_bad_echo_server` with the sessions in a map and shared
pointers in the callbacks. With an accessible base the change is a refactoring: the two
servers take the same steps, the map holds the sessions that the other server has accepted
and not deleted, and every session has the same bytes in `data_` and on its socket. With
the base of the source this holds of every run in which no callback has thrown
(`same_service`).

What a callback captures is all that the sessions differ in, so they are compared without
it (`Agree`).
-/

namespace CppNet.HalfDuplex

/-! ## Sessions -/

/-- An operation without what its callback captures. -/
def Op.shape : Op → Option (Nat × Nat)
  | .read _ => none
  | .write _ size done => some (size, done)

structure Agree (x y : CSession) : Prop where
  data : x.data = y.data
  received : x.received = y.received
  wire : x.wire = y.wire
  ops : x.ops.map Op.shape = y.ops.map Op.shape

theorem Agree.refl (x : CSession) : Agree x x := ⟨rfl, rfl, rfl, rfl⟩

section Complete

variable {x y : CSession} {self self' : Capture}

/-- The operations at an index are both reads, or writes that have come equally far. -/
theorem Agree.op_cases (h : Agree x y) (index : Nat) :
    (x.ops[index]? = none ∧ y.ops[index]? = none)
      ∨ (∃ a b, x.ops[index]? = some (.read a) ∧ y.ops[index]? = some (.read b))
      ∨ ∃ a b size done, x.ops[index]? = some (.write a size done)
        ∧ y.ops[index]? = some (.write b size done) := by
  have hmap := congrArg (fun l : List (Option (Nat × Nat)) => l[index]?) h.ops
  simp only [List.getElem?_map] at hmap
  cases hx : x.ops[index]? with
  | none =>
      rw [hx] at hmap
      exact .inl ⟨rfl, Option.map_eq_none_iff.mp hmap.symm⟩
  | some op =>
      rw [hx] at hmap
      obtain ⟨op', hy, hshape⟩ := Option.map_eq_some_iff.mp hmap.symm
      rw [hy]
      cases op with
      | read a =>
          cases op' with
          | read b => exact .inr (.inl ⟨a, b, rfl, rfl⟩)
          | write b size done => cases hshape
      | write a size done =>
          cases op' with
          | read b => cases hshape
          | write b size' done' =>
              cases hshape
              exact .inr (.inr ⟨a, b, size, done, rfl, rfl⟩)

theorem Agree.asyncReadSome (h : Agree x y) :
    Agree (x.asyncReadSome self) (y.asyncReadSome self') where
  data := h.data
  received := h.received
  wire := h.wire
  ops := by
    simp only [CSession.asyncReadSome, List.map_append, h.ops]
    rfl

theorem Agree.asyncWrite (h : Agree x y) (size : Nat) :
    Agree (x.asyncWrite size self) (y.asyncWrite size self') where
  data := h.data
  received := h.received
  wire := h.wire
  ops := by
    simp only [CSession.asyncWrite, List.map_append, h.ops]
    rfl

theorem Agree.eraseIdx (h : Agree x y) (index : Nat) :
    Agree { x with ops := x.ops.eraseIdx index } { y with ops := y.ops.eraseIdx index } where
  data := h.data
  received := h.received
  wire := h.wire
  ops := by rw [← List.eraseIdx_map, ← List.eraseIdx_map, h.ops]

theorem Agree.fill (h : Agree x y) (bytes : Bytes) : Agree (x.fill bytes) (y.fill bytes) where
  data := by rw [CSession.fill, CSession.fill, h.data]
  received := by rw [CSession.fill, CSession.fill, h.received]
  wire := h.wire
  ops := h.ops

/-- A completion does the same to both. -/
theorem Agree.complete (h : Agree x y) (c : Completion) :
    Option.Rel (fun r q => Agree r.1 q.1 ∧ r.2 = q.2) (x.complete self c) (y.complete self' c) := by
  cases c with
  | readDone index error bytes =>
      rcases h.op_cases index with ⟨hx, hy⟩ | ⟨a, b, hx, hy⟩ | ⟨a, b, size, done, hx, hy⟩
      · simp only [CSession.complete, hx, hy]
        exact .none
      · simp only [CSession.complete, hx, hy]
        refine Machine.rel_guard Iff.rfl fun _ => ?_
        cases error with
        | true => exact ⟨(h.fill bytes).eraseIdx index, rfl⟩
        | false => exact ⟨((h.fill bytes).eraseIdx index).asyncWrite bytes.length, rfl⟩
      · simp only [CSession.complete, hx, hy]
        exact .none
  | transfer index count =>
      rcases h.op_cases index with ⟨hx, hy⟩ | ⟨a, b, hx, hy⟩ | ⟨a, b, size, done, hx, hy⟩
      · simp only [CSession.complete, hx, hy]
        exact .none
      · simp only [CSession.complete, hx, hy]
        exact .none
      · simp only [CSession.complete, hx, hy]
        refine Machine.rel_guard Iff.rfl fun _ => ⟨⟨h.data, h.received, ?_, ?_⟩, rfl⟩
        · rw [h.wire, h.data]
        · simp only [List.map_set, h.ops, Op.shape]
  | writeDone index error =>
      rcases h.op_cases index with ⟨hx, hy⟩ | ⟨a, b, hx, hy⟩ | ⟨a, b, size, done, hx, hy⟩
      · simp only [CSession.complete, hx, hy]
        exact .none
      · simp only [CSession.complete, hx, hy]
        exact .none
      · simp only [CSession.complete, hx, hy]
        refine Machine.rel_guard Iff.rfl fun _ => ?_
        have herase := h.eraseIdx index
        cases error with
        | true => exact ⟨herase, rfl⟩
        | false => exact ⟨Agree.asyncReadSome ⟨rfl, herase.received, herase.wire, herase.ops⟩, rfl⟩

end Complete

/-! ## Servers -/

section Servers

variable {U : Type}

/-- The map holds what was accepted and not deleted, and the sessions agree. -/
structure Alike (r : RawServer.CServer U) (s : SharedServer.CServer U) : Prop where
  accepting : r.accepting = s.accepting
  created : r.created = s.created
  mem_iff : ∀ u, u ∈ s.sessions ↔ u ∈ r.accepted ∧ u ∉ r.deleted
  session : ∀ u, Agree (r.session u) (s.session u)

/-- Moreover no pointer dangles in either server. -/
structure Paired (r : RawServer.CServer U) (s : SharedServer.CServer U) : Prop where
  alike : Alike r s
  raw : RawServer.Settled r
  shared : SharedServer.Settled s
  thrown : s.thrown = false

theorem paired_init (u : U) : Paired (.init u) (.init u) where
  alike := ⟨rfl, rfl, by simp [RawServer.CServer.init, SharedServer.CServer.init],
    fun _ => .refl _⟩
  raw := RawServer.settled_init u
  shared := SharedServer.settled_init u
  thrown := rfl

variable [DecidableEq U] {r : RawServer.CServer U} {s : SharedServer.CServer U}

theorem alike_accept (h : Paired r s) (error : Bool) (next : U) :
    Alike (r.handleAccept error next) (s.handleAccept error next) := by
  refine ⟨?_, ?_, fun u => ?_, fun u => ?_⟩
  · cases error <;> rfl
  · rw [RawServer.CServer.created_handleAccept, SharedServer.CServer.created_handleAccept,
      h.alike.created]
  · rw [SharedServer.CServer.mem_sessions_handleAccept,
      RawServer.CServer.mem_accepted_handleAccept, RawServer.CServer.mem_deleted_handleAccept,
      h.alike.mem_iff, ← h.alike.accepting]
    obtain ⟨hnotAccepted, hnotDeleted⟩ := h.raw.waiting
    cases error with
    | true =>
        simp only [true_and, Bool.true_eq_false, false_and, or_false, not_or]
        constructor
        · rintro ⟨haccepted, hlive⟩
          exact ⟨haccepted, hlive, fun heq => hnotAccepted (heq ▸ haccepted)⟩
        · exact fun hu => ⟨hu.1, hu.2.1⟩
    | false =>
        simp only [true_and, Bool.false_eq_true, false_and, or_false]
        constructor
        · rintro (⟨haccepted, hlive⟩ | rfl)
          · exact ⟨.inl haccepted, hlive⟩
          · exact ⟨.inr rfl, hnotDeleted⟩
        · rintro ⟨haccepted | rfl, hlive⟩
          · exact .inl ⟨haccepted, hlive⟩
          · exact .inr rfl
  · rw [RawServer.CServer.session_handleAccept, SharedServer.CServer.session_handleAccept,
      ← h.alike.accepting]
    by_cases hnext : u = next
    · rw [hnext, Acceptor.round_next, Acceptor.round_next]
      exact .refl _
    by_cases hstarts : error = false ∧ u = r.accepting
    · obtain ⟨rfl, rfl⟩ := hstarts
      rw [Acceptor.round_waiting hnext, Acceptor.round_waiting hnext]
      exact (h.alike.session _).asyncReadSome
    · rw [Acceptor.round_other hnext fun herror heq => hstarts ⟨herror, heq⟩,
        Acceptor.round_other hnext fun herror heq => hstarts ⟨herror, heq⟩]
      exact h.alike.session u

/-- What completes for a session completes at both servers. -/
theorem deliver_alike (h : Paired r s) (u : U) (c : Completion) :
    Option.Rel Alike (r.deliver u c) (s.deliver .isPublic u c) := by
  have hsame : Option.Rel _ ((r.session u).complete .raw c) ((s.session u).complete .shared c) :=
    (h.alike.session u).complete c
  unfold RawServer.CServer.deliver SharedServer.CServer.deliver
  generalize hx : (r.session u).complete .raw c = x at hsame
  generalize hy : (s.session u).complete .shared c = y at hsame
  cases hsame with
  | none => exact .none
  | some hagree =>
      rename_i x y
      obtain ⟨session, deletes⟩ := x
      obtain ⟨session', clears⟩ := y
      obtain ⟨hagree, rfl⟩ := hagree
      have hlive := (h.raw.live_of_complete hx).2
      have howned : s.Owned u := .inl (h.shared.mem_of_complete hy)
      simp only [if_neg hlive, if_pos howned, reduceCtorEq, false_and, if_false]
      have hsession : ∀ v, Agree (Function.update r.session u session v)
          (Function.update s.session u session' v) := by
        intro v
        by_cases hv : v = u
        · subst hv
          rw [Function.update_self, Function.update_self]
          exact hagree
        · rw [Function.update_of_ne hv, Function.update_of_ne hv]
          exact h.alike.session v
      cases deletes with
      | false => exact .some ⟨h.alike.accepting, h.alike.created, h.alike.mem_iff, hsession⟩
      | true =>
          refine .some ⟨h.alike.accepting, h.alike.created, fun v => ?_, hsession⟩
          simp only [if_true, SharedServer.CServer.clearSession, RawServer.CServer.delete,
            List.mem_filter, decide_eq_true_eq, h.alike.mem_iff, List.mem_cons, not_or]
          exact ⟨fun hv => ⟨hv.1.1, hv.2, hv.1.2⟩, fun hv => ⟨⟨hv.1, hv.2.2⟩, hv.2.1⟩⟩

theorem paired_step (e : ServerEvent U) (h : Paired r s) :
    Option.Rel Paired (r.step e) (SharedServer.CServer.step .isPublic s e) := by
  have halike : Option.Rel Alike (r.step e) (SharedServer.CServer.step .isPublic s e) := by
    unfold RawServer.CServer.step SharedServer.CServer.step
    rw [h.raw.sound.alive, h.shared.lifetimes.alive, h.thrown]
    cases e with
    | accept error next =>
        simp only [h.raw.waiting.2, h.alike.created, Bool.false_eq_true, or_self, if_false]
        by_cases hfresh : next ∈ s.created
        · rw [if_pos hfresh, if_pos hfresh]
          exact .none
        · rw [if_neg hfresh, if_neg hfresh]
          exact .some (alike_accept h error next)
    | completion u c =>
        simp only [Bool.false_eq_true, or_self, if_false]
        exact deliver_alike h u c
  generalize hr : r.step e = x at halike
  generalize hs : SharedServer.CServer.step .isPublic s e = y at halike
  cases halike with
  | none => exact .none
  | some hxy =>
      obtain ⟨hsettled, hthrown⟩ := SharedServer.settled_step h.shared hs
      exact .some ⟨hxy, RawServer.settled_step h.raw hr, hsettled, hthrown.trans h.thrown⟩

end Servers

/-! ## Runs -/

section Runs

variable {U : Type} [DecidableEq U] {base : SharedServer.Base} {s t : SharedServer.CServer U}

/-- The base is to be seen in nothing but an exception. -/
theorem public_of_not_thrown {e : ServerEvent U}
    (hstep : SharedServer.CServer.step base s e = some t) (ht : t.thrown = false) :
    s.thrown = false ∧ SharedServer.CServer.step .isPublic s e = some t := by
  unfold SharedServer.CServer.step at hstep ⊢
  split at hstep
  · cases hstep
  rename_i hgoes
  rw [not_or] at hgoes
  refine ⟨Bool.eq_false_iff.mpr hgoes.2, ?_⟩
  rw [if_neg (by simp [hgoes])]
  cases e with
  | accept error next => exact hstep
  | completion u c =>
      dsimp only [SharedServer.CServer.deliver] at hstep ⊢
      split at hstep
      · cases hstep
      split at hstep
      · rename_i howned
        rw [if_pos howned]
        split at hstep
        · obtain rfl := Option.some.inj hstep
          cases ht
        · simpa using hstep
      · rename_i howned
        rw [if_neg howned]
        exact hstep

theorem exec_public {es : List (ServerEvent U)}
    (hrun : Machine.exec (SharedServer.CServer.step base) s es = some t) (ht : t.thrown = false) :
    s.thrown = false ∧ Machine.exec (SharedServer.CServer.step .isPublic) s es = some t := by
  induction es generalizing s with
  | nil =>
      obtain rfl := Option.some.inj hrun
      exact ⟨ht, rfl⟩
  | cons e es ih =>
      obtain ⟨m, hstep, hrest⟩ := Machine.exec_cons_eq_some.mp hrun
      obtain ⟨hm, hpublic⟩ := ih hrest
      obtain ⟨hs, hfirst⟩ := public_of_not_thrown hstep hm
      exact ⟨hs, Machine.exec_cons_eq_some.mpr ⟨m, hfirst, hpublic⟩⟩

/-- Whatever the base, what the server with shared sessions does until an exception the one
with raw pointers does too; and with an accessible base it does all that the other does. -/
theorem same_service (u : U) (es : List (ServerEvent U)) :
    (∀ base t, Machine.exec (SharedServer.CServer.step base) (.init u) es = some t →
        t.thrown = false →
        ∃ r, Machine.exec RawServer.CServer.step (.init u) es = some r ∧ Alike r t)
      ∧ ∀ r, Machine.exec RawServer.CServer.step (.init u) es = some r →
        ∃ t, Machine.exec (SharedServer.CServer.step .isPublic) (.init u) es = some t
          ∧ t.thrown = false ∧ Alike r t := by
  have hrel := Machine.exec_rel paired_step (paired_init u) es
  rw [List.map_id'] at hrel
  refine ⟨fun base t hrun ht => ?_, fun r hrun => ?_⟩
  · rw [(exec_public hrun ht).2] at hrel
    generalize Machine.exec RawServer.CServer.step (.init u) es = x at hrel
    cases hrel with
    | some hpaired => exact ⟨_, rfl, hpaired.alike⟩
  · rw [hrun] at hrel
    generalize Machine.exec (SharedServer.CServer.step .isPublic) (.init u) es = y at hrel
    cases hrel with
    | some hpaired => exact ⟨_, rfl, hpaired.thrown, hpaired.alike⟩

end Runs

end CppNet.HalfDuplex
