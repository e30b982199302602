import CppNet.HalfDuplex.Session
import CppNet.Lib.Acceptor

/-!
# The half-duplex server with shared sessions

`CServer` of `02_good_echo_server`. A session is owned by the map `sessions_`, by
the callback of the outstanding accept before that, and by each callback that
captures a `self_shared`. The first read of a session is started by `Start`,
whose callback captures `this` alone and calls `shared_from_this()`.

Whether that call returns depends on how `CSession` derives from
`std::enable_shared_from_this` (`Base`): `make_shared` leaves a weak pointer in
an accessible base only, and without one the call throws `bad_weak_ptr`. Given
an accessible base, every session in the map has exactly one operation
outstanding and no other session has any (`one_operation`). The class of the
source names no access, which for a `class` is private, so the first read
completion of any session throws, and boost::asio lets the exception out of
`run()` (`no_throw_iff`).

The map is kept as the list of its keys: the value of a key is the session with
that uuid.
-/

namespace CppNet.HalfDuplex.SharedServer

/-- The access of `CSession` to its base `std::enable_shared_from_this<CSession>`. -/
inductive Base
  | isPublic
  | isPrivate
deriving Repr, DecidableEq

/-- `class CSession : std::enable_shared_from_this<CSession>`. -/
def base : Base := .isPrivate

/-- `sessions` are the uuids in `sessions_`, `accepting` that of the session the
outstanding accept captures, `session` what each session object holds, destroyed
or not. `dangling`: a completion met a destroyed session. `thrown`: a callback
exited with an exception. -/
structure CServer (U : Type) where
  accepting : U
  sessions : List U
  session : U → CSession
  created : List U
  dangling : Bool
  thrown : Bool

/-- The callback of the completed operation calls `shared_from_this()`: it is the one
that captures `this` alone. -/
def promotes (s : CSession) : Completion → Bool
  | .readDone index .. => s.ops[index]?.map Op.capture == some .raw
  | .transfer .. | .writeDone .. => false

/-- The step completes a read. -/
def ReadCompletes {U : Type} : ServerEvent U → Prop
  | .completion _ (.readDone ..) => True
  | _ => False

namespace CServer

variable {U : Type} [DecidableEq U]

/-- The session object is alive between callbacks. -/
def Owned (s : CServer U) (u : U) : Prop :=
  u ∈ s.sessions ∨ u = s.accepting ∨ ∃ op ∈ (s.session u).ops, op.capture = .shared

instance (s : CServer U) (u : U) : Decidable (s.Owned u) :=
  inferInstanceAs (Decidable (_ ∨ _ ∨ _))

def clearSession (s : CServer U) (uuid : U) : CServer U :=
  { s with sessions := s.sessions.filter fun u => u ≠ uuid }

/-- `next` is the uuid of the new session. -/
def startAccept (s : CServer U) (next : U) : CServer U :=
  { s with
    accepting := next
    session := Function.update s.session next .new
    created := next :: s.created }

def handleAccept (s : CServer U) (error : Bool) (next : U) : CServer U :=
  let newSession := s.accepting
  let s :=
    if error then s
    else
      { s with
        session := Function.update s.session newSession (s.session newSession).start
        sessions := s.sessions.insert newSession }
  s.startAccept next

/-- The server after its constructor, which starts the first accept. -/
def init (u : U) : CServer U where
  accepting := u
  sessions := []
  session := fun _ => .new
  created := [u]
  dangling := false
  thrown := false

/-- A completion reaches the session `u`. The handlers capture `self_shared` for the
operations they start. -/
def deliver (base : Base) (s : CServer U) (u : U) (c : Completion) : Option (CServer U) :=
  match (s.session u).complete .shared c with
  | none => none
  | some (session, clears) =>
      if s.Owned u then
        if base = .isPrivate ∧ promotes (s.session u) c = true then
          some { s with thrown := true }
        else
          let s := { s with session := Function.update s.session u session }
          some (if clears then s.clearSession u else s)
      else some { s with dangling := true }

def step (base : Base) (s : CServer U) (e : ServerEvent U) : Option (CServer U) :=
  if s.dangling = true ∨ s.thrown = true then none
  else
    match e with
    | .accept error next =>
        if next ∈ s.created then none else some (s.handleAccept error next)
    | .completion u c => s.deliver base u c

/-! ## What a step does -/

/-- An accept starts the session that waited, unless it failed, and makes the next one. -/
theorem session_handleAccept (s : CServer U) (error : Bool) (next : U) :
    (s.handleAccept error next).session
      = Acceptor.round CSession.start .new s.session error s.accepting next := by
  cases error <;> rfl

theorem mem_sessions_handleAccept {s : CServer U} {error : Bool} {next u : U} :
    u ∈ (s.handleAccept error next).sessions
      ↔ u ∈ s.sessions ∨ error = false ∧ u = s.accepting := by
  cases error with
  | true => simp [handleAccept, startAccept]
  | false => simp [handleAccept, startAccept, or_comm]

theorem created_handleAccept (s : CServer U) (error : Bool) (next : U) :
    (s.handleAccept error next).created = next :: s.created := by
  cases error <;> rfl

/-- The session `u` is alive and takes a step to `r`. -/
structure Takes (s t : CServer U) (u : U) (r : CSession × Bool) : Prop where
  session : t.session = Function.update s.session u r.1
  sessions : t.sessions = if r.2 then s.sessions.filter (fun v => v ≠ u) else s.sessions
  accepting : t.accepting = s.accepting
  created : t.created = s.created
  dangling : t.dangling = s.dangling
  thrown : t.thrown = s.thrown

theorem step_cases {base : Base} {s t : CServer U} {e : ServerEvent U}
    (hstep : step base s e = some t) :
    (∃ error next, e = .accept error next ∧ next ∉ s.created ∧ t = s.handleAccept error next)
      ∨ ∃ u c r, e = .completion u c ∧ (s.session u).complete .shared c = some r
        ∧ (s.Owned u →
            (base = .isPrivate ∧ promotes (s.session u) c = true ∧ t.thrown = true)
            ∨ ¬ (base = .isPrivate ∧ promotes (s.session u) c = true) ∧ Takes s t u r) := by
  unfold step at hstep
  split at hstep
  · cases hstep
  cases e with
  | accept error next =>
      dsimp only at hstep
      split at hstep
      · cases hstep
      · rename_i hfresh
        exact .inl ⟨error, next, rfl, hfresh, (Option.some.inj hstep).symm⟩
  | completion u c =>
      dsimp only [deliver] at hstep
      split at hstep
      · cases hstep
      rename_i session clears hr
      refine .inr ⟨u, c, (session, clears), rfl, hr, fun howned => ?_⟩
      rw [if_pos howned] at hstep
      split at hstep
      · rename_i hthrows
        obtain rfl := Option.some.inj hstep
        exact .inl ⟨hthrows.1, hthrows.2, rfl⟩
      · rename_i hthrows
        obtain rfl := Option.some.inj hstep
        refine .inr ⟨hthrows, ?_⟩
        cases clears <;> exact ⟨rfl, rfl, rfl, rfl, rfl, rfl⟩

end CServer

open CServer (init handleAccept Takes)

variable {U : Type}

/-! ## An accessible base -/

/-- Every session in the map has one operation outstanding, no other session has any,
and no completion has met a destroyed session. -/
structure Lifetimes (s : CServer U) : Prop where
  alive : s.dangling = false
  one : ∀ u ∈ s.sessions, (s.session u).ops.length = 1
  rest : ∀ u, u ∉ s.sessions → (s.session u).ops = []

/-- Moreover the session that waits to be accepted is not in the map, and no uuid comes
twice. -/
structure Settled (s : CServer U) : Prop where
  lifetimes : Lifetimes s
  waiting : s.accepting ∉ s.sessions
  made : ∀ u, u ∈ s.sessions ∨ u = s.accepting → u ∈ s.created

theorem settled_init (u : U) : Settled (init u) where
  lifetimes := ⟨rfl, by simp [init], fun _ _ => rfl⟩
  waiting := by simp [init]
  made := by
    rintro v (hv | rfl)
    · cases hv
    · exact List.mem_cons_self ..

/-- Only a session in the map can complete anything. -/
theorem Settled.mem_of_complete {s : CServer U} (h : Settled s) {u : U} {c : Completion}
    {r : CSession × Bool} (hr : (s.session u).complete .shared c = some r) :
    u ∈ s.sessions := by
  refine Classical.byContradiction fun hu => ?_
  rw [CSession.complete_of_idle (h.lifetimes.rest u hu)] at hr
  cases hr

variable [DecidableEq U]

theorem settled_accept {s : CServer U} (h : Settled s) (error : Bool) {next : U}
    (hfresh : next ∉ s.created) : Settled (s.handleAccept error next) := by
  have hnext : next ∉ s.sessions := fun hmem => hfresh (h.made next (.inl hmem))
  have haccepting : s.accepting ≠ next := fun heq => hfresh (h.made next (.inr heq.symm))
  refine ⟨⟨?_, ?_, ?_⟩, ?_, ?_⟩
  · cases error <;> exact h.lifetimes.alive
  · intro u hu
    rw [CServer.session_handleAccept]
    rcases CServer.mem_sessions_handleAccept.mp hu with hold | ⟨rfl, rfl⟩
    · have hne : u ≠ next := fun heq => hnext (heq ▸ hold)
      have hwaiting : u ≠ s.accepting := fun heq => h.waiting (heq ▸ hold)
      rw [Acceptor.round_other hne fun _ => hwaiting]
      exact h.lifetimes.one u hold
    · rw [Acceptor.round_waiting haccepting, CSession.start, CSession.asyncReadSome,
        h.lifetimes.rest _ h.waiting]
      rfl
  · intro u hu
    rw [CServer.session_handleAccept]
    rw [CServer.mem_sessions_handleAccept, not_or] at hu
    exact Acceptor.round_of_new (P := fun x : CSession => x.ops = []) rfl
      (fun herror heq => hu.2 ⟨herror, heq⟩) (h.lifetimes.rest u hu.1)
  · intro hmem
    rcases CServer.mem_sessions_handleAccept.mp hmem with hold | ⟨-, heq⟩
    · exact hnext hold
    · exact haccepting heq.symm
  · intro u hu
    rw [CServer.created_handleAccept]
    rcases hu with hu | rfl
    · refine List.mem_cons_of_mem _ (h.made u ?_)
      exact (CServer.mem_sessions_handleAccept.mp hu).imp_right And.right
    · exact List.mem_cons_self ..

theorem settled_takes {s t : CServer U} (h : Settled s) {u : U} {c : Completion}
    {r : CSession × Bool} (hr : (s.session u).complete .shared c = some r)
    (htakes : Takes s t u r) : Settled t := by
  have hmem := h.mem_of_complete hr
  obtain ⟨op, hop⟩ := List.length_eq_one_iff.mp (h.lifetimes.one u hmem)
  have hsub : ∀ v, v ∈ t.sessions → v ∈ s.sessions := by
    intro v hv
    rw [htakes.sessions] at hv
    split at hv
    · exact (List.mem_filter.mp hv).1
    · exact hv
  refine ⟨⟨htakes.dangling.trans h.lifetimes.alive, ?_, ?_⟩, ?_, ?_⟩
  · rw [htakes.session]
    refine (Function.forall_update_iff _
      fun v (x : CSession) => v ∈ t.sessions → x.ops.length = 1).mpr ?_
    refine ⟨fun hv => ?_, fun v _ hv => ?_⟩
    · rcases CSession.complete_ops hop hr with ⟨-, -, op', hop'⟩ | ⟨-, hclears, -⟩
      · rw [hop']
        rfl
      · rw [htakes.sessions, if_pos hclears] at hv
        exact (of_decide_eq_true (List.mem_filter.mp hv).2 rfl).elim
    · exact h.lifetimes.one v (hsub v hv)
  · rw [htakes.session]
    refine (Function.forall_update_iff _
      fun v (x : CSession) => v ∉ t.sessions → x.ops = []).mpr ?_
    refine ⟨fun hv => ?_, fun v hne hv => ?_⟩
    · rcases CSession.complete_ops hop hr with ⟨-, hkeeps, -⟩ | ⟨-, -, hclosed⟩
      · rw [htakes.sessions, hkeeps] at hv
        exact (hv hmem).elim
      · exact hclosed
    · refine h.lifetimes.rest v fun hold => hv ?_
      rw [htakes.sessions]
      split
      · exact List.mem_filter.mpr ⟨hold, decide_eq_true hne⟩
      · exact hold
  · rw [htakes.accepting]
    exact fun hv => h.waiting (hsub _ hv)
  · rw [htakes.accepting, htakes.created]
    rintro v (hv | heq)
    · exact h.made v (.inl (hsub v hv))
    · exact h.made v (.inr heq)

theorem settled_step {s t : CServer U} {e : ServerEvent U} (h : Settled s)
    (hstep : CServer.step .isPublic s e = some t) : Settled t ∧ t.thrown = s.thrown := by
  rcases CServer.step_cases hstep with
    ⟨error, next, rfl, hfresh, rfl⟩ | ⟨u, c, r, rfl, hr, hdeliver⟩
  · refine ⟨settled_accept h error hfresh, ?_⟩
    cases error <;> rfl
  · rcases hdeliver (.inl (h.mem_of_complete hr)) with ⟨hbase, -, -⟩ | ⟨-, htakes⟩
    · cases hbase
    · exact ⟨settled_takes h hr htakes, htakes.thrown⟩

/-- With an accessible base, a session in the map has exactly one operation outstanding
in every reachable state, every other session has none, and no completion meets a
destroyed session. -/
theorem one_operation (u : U) (es : List (ServerEvent U)) :
    Machine.Throughout (CServer.step .isPublic) Lifetimes (init u) es := by
  have hsettled : Machine.Throughout (CServer.step .isPublic) Settled (init u) es :=
    Machine.throughout_of_step (fun h hstep => (settled_step h hstep).1) (settled_init u) es
  exact hsettled.mono fun _ h => h.lifetimes

/-- What the access specifier is for: with an accessible base no callback throws. -/
theorem no_throw_of_public (u : U) (es : List (ServerEvent U)) :
    Machine.Throughout (CServer.step .isPublic) (fun s => s.thrown = false) (init u) es := by
  have hquiet : Machine.Throughout (CServer.step .isPublic)
      (fun s => Settled s ∧ s.thrown = false) (init u) es := by
    refine Machine.throughout_of_step ?_ ⟨settled_init u, rfl⟩ es
    rintro s e t ⟨h, hquiet⟩ hstep
    obtain ⟨hsettled, hthrown⟩ := settled_step h hstep
    exact ⟨hsettled, hthrown.trans hquiet⟩
  exact hquiet.mono fun _ h => h.2

/-! ## The sessions of a server run by themselves -/

/-- What an event of the server is to the session `u`. -/
def eventOf (u : U) : ServerEvent U → Option Completion
  | .accept .. => none
  | .completion v c => if v = u then some c else none

/-- With an accessible base, the run of an accepted session inside a run of the server is
a run of the session's own machine. -/
theorem exec_session {s t : CServer U} {es : List (ServerEvent U)} (h : Settled s) {u : U}
    (hmade : u ∈ s.created) (hu : u ≠ s.accepting)
    (hrun : Machine.exec (CServer.step .isPublic) s es = some t) :
    Machine.exec (step .shared) (s.session u) (es.filterMap (eventOf u))
      = some (t.session u) := by
  refine Machine.exec_member (fun s : CServer U => s.session u) (eventOf u)
    (I := fun s => Settled s ∧ u ∈ s.created ∧ u ≠ s.accepting) ?_ ⟨h, hmade, hu⟩ hrun
  rintro s e t ⟨h, hmade, hu⟩ hstep
  obtain ⟨hsettled, -⟩ := settled_step h hstep
  rcases CServer.step_cases hstep with
    ⟨error, next, rfl, hfresh, rfl⟩ | ⟨v, c, r, rfl, hr, hdeliver⟩
  · have hnext : u ≠ next := by
      rintro rfl
      exact hfresh hmade
    refine ⟨⟨hsettled, ?_, hnext⟩, ?_⟩
    · rw [CServer.created_handleAccept]
      exact List.mem_cons_of_mem _ hmade
    · rw [CServer.session_handleAccept, Acceptor.round_other hnext fun _ => hu]
      rfl
  · rcases hdeliver (.inl (h.mem_of_complete hr)) with ⟨hbase, -, -⟩ | ⟨-, htakes⟩
    · cases hbase
    refine ⟨⟨hsettled, htakes.created ▸ hmade, htakes.accepting ▸ hu⟩, ?_⟩
    rw [htakes.session, eventOf]
    by_cases hv : v = u
    · subst hv
      rw [Function.update_self, if_pos rfl]
      simp only [Option.toList_some, Machine.exec, step, hr, Option.map_some]
      rfl
    · rw [Function.update_of_ne (Ne.symm hv), if_neg hv]
      rfl

/-! ## The base of the source -/

/-- Nothing is outstanding but first reads of sessions in the map. -/
structure Unread (s : CServer U) : Prop where
  quiet : s.thrown = false
  first : ∀ u, ∀ op ∈ (s.session u).ops, op = .read .raw ∧ u ∈ s.sessions

omit [DecidableEq U] in
theorem unread_init (u : U) : Unread (init u) where
  quiet := rfl
  first := by
    intro v op hop
    cases hop

theorem unread_accept {s : CServer U} (h : Unread s) (error : Bool) (next : U) :
    Unread (s.handleAccept error next) := by
  refine ⟨?_, fun u op hop => ?_⟩
  · cases error <;> exact h.quiet
  · rw [CServer.session_handleAccept] at hop
    rw [CServer.mem_sessions_handleAccept]
    by_cases heq : u = next
    · rw [heq, Acceptor.round_next] at hop
      cases hop
    by_cases haccepted : error = false ∧ u = s.accepting
    · obtain ⟨rfl, rfl⟩ := haccepted
      rw [Acceptor.round_waiting heq] at hop
      refine ⟨?_, .inr ⟨rfl, rfl⟩⟩
      rcases List.mem_append.mp hop with hold | hnew
      · exact (h.first _ op hold).1
      · exact List.mem_singleton.mp hnew
    · rw [Acceptor.round_other heq fun herror hu => haccepted ⟨herror, hu⟩] at hop
      exact (h.first u op hop).imp_right .inl

/-- The only thing that can complete is a first read, and its callback throws. -/
theorem Unread.throws {s t : CServer U} (h : Unread s) {e : ServerEvent U}
    (hstep : CServer.step base s e = some t) :
    (¬ ReadCompletes e ∧ Unread t) ∨ (ReadCompletes e ∧ t.thrown = true) := by
  have hwrite : ∀ {u capture size done} {index : Nat},
      (s.session u).ops[index]? ≠ some (.write capture size done) := by
    intro u capture size done index hop
    cases (h.first u _ (List.mem_of_getElem? hop)).1
  rcases CServer.step_cases hstep with
    ⟨error, next, rfl, -, rfl⟩ | ⟨u, c, r, rfl, hr, hdeliver⟩
  · exact .inl ⟨fun hread => hread, unread_accept h error next⟩
  · cases c with
    | transfer index count =>
        obtain ⟨capture, size, done, hop, -⟩ := CSession.transfer_cases hr
        exact (hwrite hop).elim
    | writeDone index error =>
        obtain ⟨capture, size, done, hop, -⟩ := CSession.writeDone_cases hr
        exact (hwrite hop).elim
    | readDone index error bytes =>
        obtain ⟨capture, hop, -⟩ := CSession.readDone_cases hr
        obtain ⟨hraw, hmem⟩ := h.first u _ (List.mem_of_getElem? hop)
        have hpromotes : promotes (s.session u) (.readDone index error bytes) = true := by
          rw [promotes, hop, hraw]
          rfl
        rcases hdeliver (.inl hmem) with ⟨-, -, hthrown⟩ | ⟨hno, -⟩
        · exact .inr ⟨trivial, hthrown⟩
        · exact (hno ⟨rfl, hpromotes⟩).elim

/-- No callback exits with an exception exactly in the runs that complete no read. -/
theorem no_throw_iff (u : U) (es : List (ServerEvent U)) :
    Machine.Throughout (CServer.step base) (fun s => s.thrown = false) (init u) es ↔
      Machine.Along (CServer.step base) (fun _ e => ¬ ReadCompletes e) (init u) es := by
  refine Machine.throughout_iff_along Unread.quiet ?_ ?_ (unread_init u)
  · intro s e t h hread hstep
    rcases h.throws hstep with ⟨-, hunread⟩ | ⟨hreads, -⟩
    · exact hunread
    · exact (hread hreads).elim
  · intro s e t h hread hstep hquiet
    rcases h.throws hstep with ⟨hno, -⟩ | ⟨-, hthrown⟩
    · exact hread hno
    · rw [hthrown] at hquiet
      cases hquiet

/-- A client connects and sends `"A"`. -/
theorem no_throw_first_read :
    ¬ Machine.Throughout (CServer.step base) (fun s => s.thrown = false) (init 0)
      [.accept false 1, .completion 0 (.readDone 0 false [65])] := by
  decide

end CppNet.HalfDuplex.SharedServer
