import CppNet.HalfDuplex.RawServer

/-!
# What becomes of the sessions of the raw-pointer server

Nothing but the error exits deletes a session, and the pointers to it are in the
callbacks alone. So a session that leaves them without being deleted leaks, and one
that is deleted too early is met again. Neither happens: an object that was made waits
to be accepted, or serves its client, or was deleted, and it was deleted exactly if its
accept failed or one of its operations did (`sessions_accounted`).

Sessions share no data, and what one of them has put on its socket is what it received,
whatever the accepts and the other sessions do in between.
-/

namespace CppNet.HalfDuplex.RawServer

open CServer

variable {U : Type}

/-- Deleted is exactly what failed, of what was made; and every session echoes. -/
structure Accounted (s : CServer U) : Prop where
  deleted_iff : ∀ u ∈ s.created,
    u ∈ s.deleted ↔ u ∈ s.failed ∨ u ∉ s.accepted ∧ u ≠ s.accepting
  failed : ∀ u ∈ s.failed, u ∈ s.accepted
  echoes : ∀ u, Echoes (s.session u)

/-- Moreover the session that waits is new, and what was made is waiting, accepted or
deleted. -/
structure Serving (s : CServer U) : Prop where
  settled : Settled s
  waiting : s.session s.accepting = .new
  phase : ∀ u, Phase (s.session u)
  failed : ∀ u ∈ s.failed, u ∈ s.accepted
  deleted : ∀ u ∈ s.deleted, u ∈ s.failed ∨ u ∉ s.accepted
  kept : ∀ u ∈ s.created, u ∈ s.accepted ∨ u ∈ s.deleted ∨ u = s.accepting

theorem phase_new : Phase .new := .closed rfl (List.prefix_refl _)

theorem serving_init (u : U) : Serving (init u) where
  settled := settled_init u
  waiting := rfl
  phase := fun _ => phase_new
  failed := by simp [init]
  deleted := by simp [init]
  kept := fun _ hv => .inr (.inr (List.mem_singleton.mp hv))

theorem Serving.accounted {s : CServer U} (h : Serving s) : Accounted s := by
  refine ⟨fun u hu => ⟨fun hdeleted => ?_, ?_⟩, h.failed, fun u => (h.phase u).echoes⟩
  · refine (h.deleted u hdeleted).imp_right fun hnot => ⟨hnot, ?_⟩
    rintro rfl
    exact h.settled.waiting.2 hdeleted
  · rintro (hfailed | ⟨hnot, hne⟩)
    · exact h.settled.sound.gone u hfailed
    · rcases h.kept u hu with haccepted | hdeleted | heq
      · exact (hnot haccepted).elim
      · exact hdeleted
      · exact (hne heq).elim

variable [DecidableEq U]

theorem accepting_handleAccept (s : CServer U) (error : Bool) (next : U) :
    (s.handleAccept error next).accepting = next := by
  cases error <;> rfl

theorem serving_accept {s : CServer U} (h : Serving s) (error : Bool) {next : U}
    (hfresh : next ∉ s.created) : Serving (s.handleAccept error next) := by
  have hnext := h.settled.fresh hfresh
  refine ⟨settled_accept h.settled error hfresh, ?_, fun u => ?_, ?_, ?_, ?_⟩
  · rw [accepting_handleAccept, session_handleAccept, Acceptor.round_next]
  · rw [session_handleAccept]
    by_cases hu : u = next
    · rw [hu, Acceptor.round_next]
      exact phase_new
    by_cases hstarts : error = false ∧ u = s.accepting
    · obtain ⟨rfl, rfl⟩ := hstarts
      rw [Acceptor.round_waiting hu, h.waiting]
      exact phase_started
    · rw [Acceptor.round_other hu fun herror heq => hstarts ⟨herror, heq⟩]
      exact h.phase u
  · intro u hu
    rw [failed_handleAccept] at hu
    exact mem_accepted_handleAccept.mpr (.inl (h.failed u hu))
  · intro u hu
    rw [failed_handleAccept, mem_accepted_handleAccept, not_or]
    rcases mem_deleted_handleAccept.mp hu with hold | ⟨rfl, rfl⟩
    · refine (h.deleted u hold).imp_right fun hnot => ⟨hnot, ?_⟩
      rintro ⟨-, rfl⟩
      exact h.settled.waiting.2 hold
    · exact .inr ⟨h.settled.waiting.1, fun hboth => nomatch hboth.1⟩
  · intro u hu
    rw [mem_accepted_handleAccept, mem_deleted_handleAccept, accepting_handleAccept]
    rw [created_handleAccept] at hu
    rcases List.mem_cons.mp hu with rfl | hold
    · exact .inr (.inr rfl)
    · rcases h.kept u hold with haccepted | hdeleted | rfl
      · exact .inl (.inl haccepted)
      · exact .inr (.inl (.inl hdeleted))
      · cases error with
        | true => exact .inr (.inl (.inr ⟨rfl, rfl⟩))
        | false => exact .inl (.inr ⟨rfl, rfl⟩)

/-- The session `u`, accepted and alive, takes a step to `session`. It is deleted if the
step is a failure. -/
structure Delivers (s t : CServer U) (u : U) (c : Completion) (session : CSession) : Prop where
  accepted : u ∈ s.accepted
  alive : u ∉ s.deleted
  session : t.session = Function.update s.session u session
  others : t.accepting = s.accepting ∧ t.created = s.created ∧ t.accepted = s.accepted
  failed : t.failed = if c.fails then u :: s.failed else s.failed
  deleted : t.deleted = if c.fails then u :: s.deleted else s.deleted

theorem deliver_cases {s t : CServer U} (h : Settled s) {u : U} {c : Completion}
    (hstep : s.deliver u c = some t) :
    ∃ session, step .raw (s.session u) c = some session ∧ Delivers s t u c session := by
  unfold deliver at hstep
  split at hstep
  · cases hstep
  rename_i session deletes hr
  obtain ⟨haccepted, hlive⟩ := h.live_of_complete hr
  rw [if_neg hlive] at hstep
  obtain rfl := Option.some.inj hstep
  obtain ⟨op, hop⟩ := List.length_eq_one_iff.mp (h.sound.one u haccepted hlive)
  refine ⟨session, by rw [step, hr]; rfl, ?_⟩
  rcases CSession.complete_ops hop hr with ⟨hok, hkeeps, -⟩ | ⟨hfails, hdeletes, -⟩
  · dsimp only at hkeeps
    rw [hkeeps]
    exact ⟨haccepted, hlive, rfl, ⟨rfl, rfl, rfl⟩, rfl, by rw [hok]; rfl⟩
  · dsimp only at hdeletes
    rw [hdeletes]
    exact ⟨haccepted, hlive, rfl, ⟨rfl, rfl, rfl⟩, rfl, by rw [hfails]; rfl⟩

theorem serving_deliver {s t : CServer U} (h : Serving s) {u : U} {c : Completion}
    (hstep : s.deliver u c = some t) : Serving t := by
  have hsettled := settled_deliver h.settled hstep
  obtain ⟨session, hsession, hdelivers⟩ := deliver_cases h.settled hstep
  obtain ⟨haccepting, hcreated, haccepted⟩ := hdelivers.others
  have hwaiting : s.accepting ≠ u := fun heq => h.settled.waiting.1 (heq ▸ hdelivers.accepted)
  refine ⟨hsettled, ?_, fun v => ?_, ?_, ?_, ?_⟩
  · rw [haccepting, hdelivers.session, Function.update_of_ne hwaiting]
    exact h.waiting
  · rw [hdelivers.session]
    by_cases hv : v = u
    · subst hv
      rw [Function.update_self]
      exact phase_step (h.phase v) hsession
    · rw [Function.update_of_ne hv]
      exact h.phase v
  · rw [hdelivers.failed, haccepted]
    intro v hv
    split at hv
    · rcases List.mem_cons.mp hv with rfl | hold
      · exact hdelivers.accepted
      · exact h.failed v hold
    · exact h.failed v hv
  · rw [hdelivers.deleted, hdelivers.failed, haccepted]
    intro v hv
    split at hv
    · rename_i hfails
      rw [if_pos hfails]
      rcases List.mem_cons.mp hv with rfl | hold
      · exact .inl (List.mem_cons_self ..)
      · exact (h.deleted v hold).imp_left (List.mem_cons_of_mem _)
    · rename_i hok
      rw [if_neg hok]
      exact h.deleted v hv
  · rw [hcreated, haccepted, haccepting, hdelivers.deleted]
    intro v hv
    refine (h.kept v hv).imp_right fun hrest => hrest.imp_left fun hold => ?_
    split
    · exact List.mem_cons_of_mem _ hold
    · exact hold

theorem serving_step {s t : CServer U} {e : ServerEvent U} (h : Serving s)
    (hstep : s.step e = some t) : Serving t := by
  unfold CServer.step at hstep
  split at hstep
  · cases hstep
  cases e with
  | completion u c => exact serving_deliver h hstep
  | accept error next =>
      dsimp only at hstep
      split at hstep
      · cases hstep
      rename_i hfresh
      rw [if_neg h.settled.waiting.2] at hstep
      obtain rfl := Option.some.inj hstep
      exact serving_accept h error hfresh

/-- In every run a session object is deleted exactly if its accept or one of its operations
has failed, so that none leaks; and every session echoes what it receives. -/
theorem sessions_accounted (u : U) (es : List (ServerEvent U)) :
    Machine.Throughout CServer.step Accounted (init u) es :=
  (Machine.throughout_of_step serving_step (serving_init u) es).mono fun _ h => h.accounted

end CppNet.HalfDuplex.RawServer
