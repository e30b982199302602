import CppNet.HalfDuplex.Session
import CppNet.Lib.Acceptor

/-!
# The half-duplex server with raw pointers

`CServer` of `01_bad_echo_server`. Sessions are made by `new` in `StartAccept` and
deleted in three places: by `HandleAccept` if the accept failed, by `HandleRead`
and by `HandleWrite` at their error exits. All callbacks capture bare pointers.

The comment over `CSession::Start` expects a double delete when a client
disconnects during a write. There is none: a session has one operation
outstanding at a time, so the write that fails is the last thing that can reach
it (`deleted_once`). Whether a deleted object is met again is read off a record,
since the memory of a session may be given to a later one: `deleted` has an entry
for each `delete`, and session objects are told apart by identities that do not
come twice.
-/

namespace CppNet.HalfDuplex.RawServer

/-- `accepting` is the session the outstanding accept captures, `session` what each
session object holds, deleted or not. The rest is a record: objects made, accepted
and deleted, those with a read or write that failed, and whether a completion met a
deleted one. -/
structure CServer (U : Type) where
  accepting : U
  session : U → CSession
  created : List U
  accepted : List U
  failed : List U
  deleted : List U
  dangling : Bool

namespace CServer

variable {U : Type}

def delete (s : CServer U) (u : U) : CServer U := { s with deleted := u :: s.deleted }

/-- The server after its constructor, which starts the first accept. -/
def init (u : U) : CServer U where
  accepting := u
  session := fun _ => .new
  created := [u]
  accepted := []
  failed := []
  deleted := []
  dangling := false

variable [DecidableEq U]

/-- `next` is the session made by `new`. -/
def startAccept (s : CServer U) (next : U) : CServer U :=
  { s with
    accepting := next
    session := Function.update s.session next .new
    created := next :: s.created }

def handleAccept (s : CServer U) (error : Bool) (next : U) : CServer U :=
  let newSession := s.accepting
  let s :=
    if error then s.delete newSession
    else
      { s with
        session := Function.update s.session newSession (s.session newSession).start
        accepted := newSession :: s.accepted }
  s.startAccept next

/-- A completion reaches the session `u`; the callbacks started by its handlers
capture `this`. -/
def deliver (s : CServer U) (u : U) (c : Completion) : Option (CServer U) :=
  match (s.session u).complete .raw c with
  | none => none
  | some (session, deletes) =>
      if u ∈ s.deleted then some { s with dangling := true }
      else
        let s := { s with
          session := Function.update s.session u session
          failed := if c.fails then u :: s.failed else s.failed }
        some (if deletes then s.delete u else s)

def step (s : CServer U) (e : ServerEvent U) : Option (CServer U) :=
  if s.dangling then none
  else
    match e with
    | .accept error next =>
        if next ∈ s.created then none
        else if s.accepting ∈ s.deleted then some { s with dangling := true }
        else some (s.handleAccept error next)
    | .completion u c => s.deliver u c

/-! ## What an accept does -/

/-- The session that waited is started, unless the accept failed, and the next one is
made. -/
theorem session_handleAccept (s : CServer U) (error : Bool) (next : U) :
    (s.handleAccept error next).session
      = Acceptor.round CSession.start .new s.session error s.accepting next := by
  cases error <;> rfl

theorem mem_accepted_handleAccept {s : CServer U} {error : Bool} {next u : U} :
    u ∈ (s.handleAccept error next).accepted
      ↔ u ∈ s.accepted ∨ error = false ∧ u = s.accepting := by
  cases error with
  | true => simp [handleAccept, startAccept, delete]
  | false => simp [handleAccept, startAccept, or_comm]

/-- A failed accept deletes the session that waited. -/
theorem mem_deleted_handleAccept {s : CServer U} {error : Bool} {next u : U} :
    u ∈ (s.handleAccept error next).deleted
      ↔ u ∈ s.deleted ∨ error = true ∧ u = s.accepting := by
  cases error with
  | true => simp [handleAccept, startAccept, delete, or_comm]
  | false => simp [handleAccept, startAccept]

theorem failed_handleAccept (s : CServer U) (error : Bool) (next : U) :
    (s.handleAccept error next).failed = s.failed := by
  cases error <;> rfl

theorem created_handleAccept (s : CServer U) (error : Bool) (next : U) :
    (s.handleAccept error next).created = next :: s.created := by
  cases error <;> rfl

end CServer

open CServer

variable {U : Type}

/-- No session is deleted twice and no completion meets a deleted one; an accepted
session that is not deleted has one operation outstanding, and one with a failed
operation is deleted. -/
structure Sound (s : CServer U) : Prop where
  once : s.deleted.Nodup
  alive : s.dangling = false
  one : ∀ u ∈ s.accepted, u ∉ s.deleted → (s.session u).ops.length = 1
  gone : ∀ u ∈ s.failed, u ∈ s.deleted

/-- Moreover nothing is outstanding for a session that is deleted or not accepted yet,
and no identity comes twice. -/
structure Settled (s : CServer U) : Prop where
  sound : Sound s
  rest : ∀ u, u ∉ s.accepted ∨ u ∈ s.deleted → (s.session u).ops = []
  waiting : s.accepting ∉ s.accepted ∧ s.accepting ∉ s.deleted
  made : ∀ u, u ∈ s.accepted ∨ u ∈ s.deleted ∨ u = s.accepting → u ∈ s.created

theorem settled_init (u : U) : Settled (init u) where
  sound := ⟨List.nodup_nil, rfl, by simp [init], by simp [init]⟩
  rest := fun _ _ => rfl
  waiting := by simp [init]
  made := by
    rintro v (hv | hv | rfl)
    · cases hv
    · cases hv
    · exact List.mem_cons_self ..

/-- Only a session that was accepted and is not deleted can complete anything. -/
theorem Settled.live_of_complete {s : CServer U} (h : Settled s) {u : U} {c : Completion}
    {r : CSession × Bool} (hr : (s.session u).complete .raw c = some r) :
    u ∈ s.accepted ∧ u ∉ s.deleted := by
  refine Classical.byContradiction fun hlive => ?_
  have hdead : u ∉ s.accepted ∨ u ∈ s.deleted := by
    by_cases hu : u ∈ s.accepted
    · exact .inr (not_not.mp fun hdeleted => hlive ⟨hu, hdeleted⟩)
    · exact .inl hu
  rw [CSession.complete_of_idle (h.rest u hdead)] at hr
  cases hr

theorem Settled.fresh {s : CServer U} (h : Settled s) {next : U} (hfresh : next ∉ s.created) :
    next ∉ s.accepted ∧ next ∉ s.deleted ∧ next ≠ s.accepting := by
  refine ⟨?_, ?_, ?_⟩
  · exact fun hmem => hfresh (h.made next (.inl hmem))
  · exact fun hmem => hfresh (h.made next (.inr (.inl hmem)))
  · exact fun heq => hfresh (h.made next (.inr (.inr heq)))

variable [DecidableEq U]

theorem settled_accept {s : CServer U} (h : Settled s) (error : Bool) {next : U}
    (hfresh : next ∉ s.created) : Settled (s.handleAccept error next) := by
  have hnext := h.fresh hfresh
  refine ⟨⟨?_, ?_, ?_, ?_⟩, ?_, ⟨?_, ?_⟩, ?_⟩
  · cases error with
    | true => exact List.nodup_cons.mpr ⟨h.waiting.2, h.sound.once⟩
    | false => exact h.sound.once
  · cases error <;> exact h.sound.alive
  · intro u hu hlive
    rw [mem_deleted_handleAccept, not_or] at hlive
    rw [session_handleAccept]
    rcases mem_accepted_handleAccept.mp hu with hold | ⟨rfl, rfl⟩
    · have hne : u ≠ next := fun heq => hnext.1 (heq ▸ hold)
      have hwaiting : u ≠ s.accepting := fun heq => h.waiting.1 (heq ▸ hold)
      rw [Acceptor.round_other hne fun _ => hwaiting]
      exact h.sound.one u hold hlive.1
    · rw [Acceptor.round_waiting hnext.2.2.symm, CSession.start, CSession.asyncReadSome,
        h.rest _ (.inl h.waiting.1)]
      rfl
  · intro u hu
    rw [failed_handleAccept] at hu
    exact mem_deleted_handleAccept.mpr (.inl (h.sound.gone u hu))
  · intro u hu
    rw [session_handleAccept]
    rw [mem_accepted_handleAccept, mem_deleted_handleAccept, not_or] at hu
    refine Acceptor.round_of_new (P := fun x : CSession => x.ops = []) rfl ?_ ?_
    · -- a session that starts is accepted by now, and was not deleted before
      rintro rfl rfl
      rcases hu with hnew | hdeleted | ⟨herror, -⟩
      · exact hnew.2 ⟨rfl, rfl⟩
      · exact h.waiting.2 hdeleted
      · cases herror
    · rcases hu with hnew | hdeleted | ⟨-, rfl⟩
      · exact h.rest u (.inl hnew.1)
      · exact h.rest u (.inr hdeleted)
      · exact h.rest _ (.inl h.waiting.1)
  · intro hmem
    rcases mem_accepted_handleAccept.mp hmem with hold | ⟨-, heq⟩
    · exact hnext.1 hold
    · exact hnext.2.2 heq
  · intro hmem
    rcases mem_deleted_handleAccept.mp hmem with hold | ⟨-, heq⟩
    · exact hnext.2.1 hold
    · exact hnext.2.2 heq
  · intro u hu
    rw [created_handleAccept]
    rw [mem_accepted_handleAccept, mem_deleted_handleAccept] at hu
    rcases hu with (hold | ⟨-, heq⟩) | (hold | ⟨-, heq⟩) | rfl
    · exact List.mem_cons_of_mem _ (h.made u (.inl hold))
    · exact List.mem_cons_of_mem _ (h.made u (.inr (.inr heq)))
    · exact List.mem_cons_of_mem _ (h.made u (.inr (.inl hold)))
    · exact List.mem_cons_of_mem _ (h.made u (.inr (.inr heq)))
    · exact List.mem_cons_self ..

theorem settled_deliver {s t : CServer U} (h : Settled s) {u : U} {c : Completion}
    (hstep : s.deliver u c = some t) : Settled t := by
  unfold deliver at hstep
  split at hstep
  · cases hstep
  rename_i session deletes hr
  obtain ⟨haccepted, hlive⟩ := h.live_of_complete hr
  rw [if_neg hlive] at hstep
  obtain rfl := Option.some.inj hstep
  obtain ⟨op, hop⟩ := List.length_eq_one_iff.mp (h.sound.one u haccepted hlive)
  have hother : ∀ v, v ∉ s.accepted ∨ v ∈ s.deleted → v ≠ u := by
    rintro v (hv | hv) rfl
    · exact hv haccepted
    · exact hlive hv
  have hwaiting : s.accepting ≠ u := fun heq => h.waiting.1 (heq ▸ haccepted)
  rcases CSession.complete_ops hop hr with
    ⟨hok, hkeeps, op', hop'⟩ | ⟨hfails, hdeletes, hclosed⟩
  · -- the session goes on
    dsimp only at hkeeps hop'
    rw [hok, hkeeps]
    refine ⟨⟨h.sound.once, h.sound.alive, ?_, h.sound.gone⟩, ?_, h.waiting, h.made⟩
    · refine (Function.forall_update_iff _ fun v (x : CSession) =>
        v ∈ s.accepted → v ∉ s.deleted → x.ops.length = 1).mpr ?_
      refine ⟨fun _ _ => ?_, fun v _ => h.sound.one v⟩
      rw [hop']
      rfl
    · intro v hv
      show (Function.update s.session u session v).ops = []
      rw [Function.update_of_ne (hother v hv)]
      exact h.rest v hv
  · -- the error exit deletes it, with nothing left outstanding
    dsimp only at hdeletes hclosed
    rw [hfails, hdeletes]
    refine ⟨⟨List.nodup_cons.mpr ⟨hlive, h.sound.once⟩, h.sound.alive, ?_, ?_⟩, ?_,
      ⟨h.waiting.1, ?_⟩, ?_⟩
    · intro v hv hvlive
      have heq : v ≠ u := fun heq => hvlive (heq ▸ List.mem_cons_self ..)
      show (Function.update s.session u session v).ops.length = 1
      rw [Function.update_of_ne heq]
      exact h.sound.one v hv fun hold => hvlive (List.mem_cons_of_mem _ hold)
    · intro v hv
      rcases List.mem_cons.mp hv with rfl | hold
      · exact List.mem_cons_self ..
      · exact List.mem_cons_of_mem _ (h.sound.gone v hold)
    · refine (Function.forall_update_iff _ fun v (x : CSession) =>
        v ∉ s.accepted ∨ v ∈ u :: s.deleted → x.ops = []).mpr ?_
      refine ⟨fun _ => hclosed, fun v hne hv => ?_⟩
      refine h.rest v (hv.imp_right fun hmem => ?_)
      exact (List.mem_cons.mp hmem).resolve_left hne
    · intro hmem
      rcases List.mem_cons.mp hmem with heq | hold
      · exact hwaiting heq
      · exact h.waiting.2 hold
    · rintro v (hv | hv | heq)
      · exact h.made v (.inl hv)
      · rcases List.mem_cons.mp hv with rfl | hold
        · exact h.made _ (.inl haccepted)
        · exact h.made v (.inr (.inl hold))
      · exact h.made v (.inr (.inr heq))

theorem settled_step {s t : CServer U} {e : ServerEvent U} (h : Settled s)
    (hstep : s.step e = some t) : Settled t := by
  unfold CServer.step at hstep
  split at hstep
  · cases hstep
  cases e with
  | completion u c => exact settled_deliver h hstep
  | accept error next =>
      dsimp only at hstep
      split at hstep
      · cases hstep
      rename_i hfresh
      rw [if_neg h.waiting.2] at hstep
      obtain rfl := Option.some.inj hstep
      exact settled_accept h error hfresh

/-- In every run no session is deleted twice or met after it was deleted; a live accepted
session has one operation outstanding, and a session whose read or write failed is
deleted. -/
theorem deleted_once (u : U) (es : List (ServerEvent U)) :
    Machine.Throughout CServer.step Sound (init u) es := by
  have hsettled : Machine.Throughout CServer.step Settled (init u) es :=
    Machine.throughout_of_step settled_step (settled_init u) es
  exact hsettled.mono fun _ h => h.sound

end CppNet.HalfDuplex.RawServer
