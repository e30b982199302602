import CppNet.HalfDuplex.Service
import CppNet.Sync.Programs

/-!
# The clients of the raw-pointer server

The client of `sync_client.cpp` connects to whatever listens on its port, and
`01_bad_echo_server` does. Its session has callbacks where `CSession` of
`sync_server.cpp` has a loop, but it stands in one call at a time too, and takes the same
ones (`session_follows`). So each of the clients of the server is served as if a thread
ran for it alone, whatever the accepts, the other clients and their connections do, and
the server stays ready for the next one (`clients_served`).
-/

namespace CppNet.HalfDuplex

/-! ## Callbacks and the loop -/

/-- The completion that a call of the loop is. A write fails while something of it is
left. -/
def CSession.completion (s : CSession) : Sync.Call → Option Completion
  | .read (.bytes bytes) => some (.readDone 0 false bytes)
  | .read .eof | .read .error => some (.readDone 0 true [])
  | .write count => some (.transfer 0 count)
  | .writeFails =>
      match s.ops with
      | .write _ size done :: _ => if done < size then some (.writeDone 0 true) else none
      | _ => none
  | .returns => some (.writeDone 0 false)

/-- A session as the server of a client. With nothing outstanding it is deleted, and its
socket is closed. -/
def program (self : Capture) : Sync.Program CSession Sync.Call where
  step s call :=
    (s.completion call).bind fun c =>
      (s.complete self c).map fun r => (r.1, r.1.wire.drop s.wire.length)
  call := id
  ended s := s.ops.isEmpty

/-- Both stand in the same call, and have the same bytes to write in it. -/
inductive Same (s : CSession) (c : Sync.CSession) : Prop
  | reading (capture : Capture) (hops : s.ops = [.read capture]) (hposition : c.position = .reading)
  | writing (capture : Capture) (length done : Nat) (hops : s.ops = [.write capture length done])
      (hposition : c.position = .writing length done)
      (hdata : s.data.take length = c.data.take length)
  | ended (hops : s.ops = []) (hposition : c.position = .ended)

theorem started_same : Same .started .enter := .reading .raw rfl rfl

section Calls

variable {s : CSession} {c : Sync.CSession} {self capture : Capture}

/-- The session and the loop after a step, with what they wrote in it. -/
def SameAfter (s : CSession) (r : CSession × Bool) (y : Sync.CSession × Bytes) : Prop :=
  Same r.1 y.1 ∧ r.1.wire.drop s.wire.length = y.2

theorem step_same_of {call : Sync.Call} {completion : Completion}
    (hcompletion : s.completion call = some completion)
    (h : Option.Rel (SameAfter s) (s.complete self completion) (c.step call)) :
    Option.Rel (fun x y => Same x.1 y.1 ∧ x.2 = y.2) ((program self).step s call)
      (c.step call) := by
  simp only [program, hcompletion, Option.bind_some]
  generalize s.complete self completion = r at h
  generalize c.step call = y at h
  cases h with
  | some hr => exact .some hr
  | none => exact .none

theorem same_of_reading (hops : s.ops = [.read capture]) (hposition : c.position = .reading)
    (call : Sync.Call) :
    Option.Rel (fun x y => Same x.1 y.1 ∧ x.2 = y.2) ((program self).step s call)
      (c.step call) := by
  cases call with
  | read result =>
      cases result with
      | bytes bytes =>
          refine step_same_of rfl ?_
          simp only [CSession.complete, hops, List.getElem?_cons_zero, Sync.CSession.step]
          refine Machine.rel_guard ?_ fun _ => ⟨?_, ?_⟩
          · simp [hposition, maxLength, Sync.maxLength, and_comm]
          · exact .writing self bytes.length 0 rfl rfl (List.take_left.trans List.take_left.symm)
          · exact List.drop_length ..
      | eof | error =>
          refine step_same_of rfl ?_
          simp only [CSession.complete, hops, List.getElem?_cons_zero, Sync.CSession.step]
          refine Machine.rel_guard ?_ fun _ => ⟨?_, ?_⟩
          · simp [hposition]
          · exact .ended rfl rfl
          · exact List.drop_length ..
  | write count =>
      refine step_same_of rfl ?_
      simp only [CSession.complete, hops, List.getElem?_cons_zero, Sync.CSession.step, hposition]
      exact .none
  | writeFails =>
      simp only [program, CSession.completion, hops, Sync.CSession.step, hposition]
      exact .none
  | returns =>
      refine step_same_of rfl ?_
      simp only [CSession.complete, hops, List.getElem?_cons_zero, Sync.CSession.step, hposition]
      exact .none

theorem same_of_writing {length done : Nat} (hops : s.ops = [.write capture length done])
    (hposition : c.position = .writing length done) (hdata : s.data.take length = c.data.take length)
    (call : Sync.Call) :
    Option.Rel (fun x y => Same x.1 y.1 ∧ x.2 = y.2) ((program self).step s call)
      (c.step call) := by
  cases call with
  | read result =>
      cases result with
      | bytes bytes =>
          refine step_same_of rfl ?_
          simp only [CSession.complete, hops, List.getElem?_cons_zero, Sync.CSession.step, hposition]
          exact .none
      | eof | error =>
          refine step_same_of rfl ?_
          simp only [CSession.complete, hops, List.getElem?_cons_zero, Sync.CSession.step, hposition]
          exact .none
  | write count =>
      refine step_same_of rfl ?_
      simp only [CSession.complete, hops, List.getElem?_cons_zero, Sync.CSession.step, hposition]
      refine Machine.rel_guard Iff.rfl fun hcount => ⟨?_, ?_⟩
      · exact .writing capture length (done + count) rfl rfl hdata
      · exact List.drop_left.trans (Pipeline.take_drop_of_take hcount.2 hdata)
  | writeFails =>
      by_cases hlt : done < length
      · have hcompletion : s.completion .writeFails = some (.writeDone 0 true) := by
          simp only [CSession.completion, hops, if_pos hlt]
        refine step_same_of hcompletion ?_
        simp only [CSession.complete, hops, List.getElem?_cons_zero, Sync.CSession.step, hposition]
        refine Machine.rel_guard ?_ fun _ => ⟨?_, ?_⟩
        · simp [hlt]
        · exact .ended rfl rfl
        · exact List.drop_length ..
      · simp only [program, CSession.completion, hops, if_neg hlt, Sync.CSession.step, hposition]
        exact .none
  | returns =>
      refine step_same_of rfl ?_
      simp only [CSession.complete, hops, List.getElem?_cons_zero, Sync.CSession.step, hposition]
      refine Machine.rel_guard ?_ fun _ => ⟨?_, ?_⟩
      · simp
      · exact .reading self rfl rfl
      · exact List.drop_length ..

theorem same_of_ended (hops : s.ops = []) (hposition : c.position = .ended) (call : Sync.Call) :
    Option.Rel (fun x y => Same x.1 y.1 ∧ x.2 = y.2) ((program self).step s call)
      (c.step call) := by
  have hstep : c.step call = none := by
    cases call with
    | read result => cases result <;> simp [Sync.CSession.step, hposition]
    | write count => simp only [Sync.CSession.step, hposition]
    | writeFails => simp only [Sync.CSession.step, hposition]
    | returns => simp only [Sync.CSession.step, hposition]
  rw [hstep]
  have hnone : (program self).step s call = none := by
    refine Option.bind_eq_none_iff.mpr fun completion _ => ?_
    rw [CSession.complete_of_idle hops]
    rfl
  rw [hnone]
  exact .none

theorem session_follows (self : Capture) : (program self).Follows Same where
  step := by
    intro s c call h
    cases h with
    | reading capture hops hposition => exact same_of_reading hops hposition call
    | writing capture length done hops hposition hdata =>
        exact same_of_writing hops hposition hdata call
    | ended hops hposition => exact same_of_ended hops hposition call
  ended := by
    intro s c h
    show s.ops.isEmpty = decide (c.position = .ended)
    cases h with
    | reading capture hops hposition => rw [hops, hposition]; rfl
    | writing capture length done hops hposition hdata =>
        rw [hops, hposition]
        exact (decide_eq_false (by simp)).symm
    | ended hops hposition => rw [hops, hposition]; rfl
  surjective := Function.surjective_id

end Calls

namespace RawServer

open CServer
open Sync (Entered Peer Pair PairEvent)

/-! ## The server and its clients -/

/-- The clients are kept by the session that serves them, from its accept on. -/
structure Network (U : Type) where
  server : CServer U
  client : U → Option (Entered × Peer)

/-- The outstanding accept completes, with a client or with an error; or a session and its
client go on. -/
inductive NetworkEvent (U : Type)
  | accept (entered : Option Entered) (next : U)
  | goes (u : U) (e : PairEvent Sync.Call)
deriving Repr, DecidableEq

namespace Network

variable {U : Type}

def init (u : U) : Network U where
  server := CServer.init u
  client := fun _ => none

variable [DecidableEq U]

def setPeer (n : Network U) (u : U) (entered : Entered) (peer : Peer) : Network U :=
  { n with client := Function.update n.client u (some (entered, peer)) }

def step (n : Network U) : NetworkEvent U → Option (Network U)
  | .accept none next => (n.server.step (.accept true next)).map fun server => { n with server }
  | .accept (some entered) next =>
      (n.server.step (.accept false next)).bind fun server =>
        (Sync.Client.start entered.memory entered.line).toOption.map fun client =>
          setPeer { n with server } n.server.accepting entered { client }
  | .goes u e =>
      (n.client u).bind fun (entered, peer) =>
        match e with
        | .peer e => (peer.step (u ∈ n.server.deleted) e).map (n.setPeer u entered)
        | .server call =>
            ((n.server.session u).completion call).bind fun c =>
              (n.server.step (.completion u c)).bind fun server =>
                let piece := (server.session u).wire.drop (n.server.session u).wire.length
                (peer.serve call piece).map (setPeer { n with server } u entered)
        | .breaks => peer.breaks.map (n.setPeer u entered)

@[simp] theorem setPeer_client (n : Network U) (u : U) (entered : Entered) (peer : Peer) :
    (n.setPeer u entered peer).client = Function.update n.client u (some (entered, peer)) := rfl

@[simp] theorem setPeer_server (n : Network U) (u : U) (entered : Entered) (peer : Peer) :
    (n.setPeer u entered peer).server = n.server := rfl

/-- What has happened to each session and its client. -/
def note (_ : Network U) (e : NetworkEvent U) (_ : Network U)
    (log : U → List (PairEvent Sync.Call)) : U → List (PairEvent Sync.Call) :=
  match e with
  | .accept .. => log
  | .goes u e => Function.update log u (log u ++ [e])

end Network

/-! ## A session and its client by themselves -/

section Steps

variable {U : Type} [DecidableEq U] {s : CServer U} {n : Network U} {u : U}

/-- An accepted session is deleted as soon as nothing is outstanding for it. -/
theorem Serving.deleted_eq (h : Serving s) (hu : u ∈ s.accepted) :
    decide (u ∈ s.deleted) = (program .raw).ended (s.session u) := by
  show _ = (s.session u).ops.isEmpty
  by_cases hdeleted : u ∈ s.deleted
  · rw [decide_eq_true hdeleted, h.settled.rest u (.inr hdeleted)]
    rfl
  · obtain ⟨op, hop⟩ := List.length_eq_one_iff.mp (h.settled.sound.one u hu hdeleted)
    rw [decide_eq_false hdeleted, hop]
    rfl

/-- What completes for a session completes at the server. -/
theorem Serving.completion (h : Serving s) (u : U) (c : Completion) :
    Option.Rel (fun t r => Delivers s t u c r.1 ∧ Serving t) (s.step (.completion u c))
      ((s.session u).complete .raw c) := by
  have hstep : s.step (.completion u c) = s.deliver u c := by
    unfold CServer.step
    rw [h.settled.sound.alive]
    rfl
  rw [hstep]
  cases hr : (s.session u).complete .raw c with
  | none =>
      rw [CServer.deliver, hr]
      exact .none
  | some r =>
      obtain ⟨t, ht⟩ : ∃ t, s.deliver u c = some t := by
        simp only [CServer.deliver, hr, if_neg (h.settled.live_of_complete hr).2]
        exact ⟨_, rfl⟩
      obtain ⟨session, hsession, hdelivers⟩ := deliver_cases h.settled ht
      rw [HalfDuplex.step, hr] at hsession
      obtain rfl := Option.some.inj hsession
      rw [ht]
      exact .some ⟨hdelivers, serving_deliver h ht⟩

/-- The network after a step of the session `u` and its client, to `x`. -/
structure Moves (n m : Network U) (u : U) (entered : Entered) (x : Pair CSession) : Prop where
  client : m.client = Function.update n.client u (some (entered, x.peer))
  session : m.server.session = Function.update n.server.session u x.server
  serving : Serving m.server
  others : m.server.accepting = n.server.accepting ∧ m.server.created = n.server.created
    ∧ m.server.accepted = n.server.accepted

theorem moves_peer (h : Serving n.server) (entered : Entered) (peer : Peer) :
    Moves n (n.setPeer u entered peer) u entered ⟨peer, n.server.session u⟩ :=
  ⟨rfl, (Function.update_eq_self u n.server.session).symm, h, rfl, rfl, rfl⟩

/-- A session and its client do in the network what they do alone. -/
theorem goes_same (h : Serving n.server) {entered : Entered} {peer : Peer}
    (hclient : n.client u = some (entered, peer)) (hu : u ∈ n.server.accepted)
    (e : PairEvent Sync.Call) :
    Option.Rel (fun m x => Moves n m u entered x) (n.step (.goes u e))
      ((program .raw).pairStep ⟨peer, n.server.session u⟩ e) := by
  simp only [Network.step, hclient, Option.bind_some]
  cases e with
  | peer e =>
      simp only [Sync.Program.pairStep, h.deleted_eq hu]
      exact Machine.rel_map_self _ fun peer => moves_peer h entered peer
  | server call =>
      simp only [Sync.Program.pairStep, program, Option.bind_assoc, Option.bind_map]
      refine Machine.rel_bind_self _ fun c => ?_
      refine Machine.rel_bind (h.completion u c) fun {t r} htr => ?_
      have hsession : t.session u = r.1 := by rw [htr.1.session, Function.update_self]
      simp only [hsession, Function.comp_apply, id_eq]
      exact Machine.rel_map_self _ fun peer => ⟨rfl, htr.1.session, htr.2, htr.1.others⟩
  | breaks => exact Machine.rel_map_self _ fun peer => moves_peer h entered peer

/-- An accept that completes starts the session that waited, unless it failed. -/
theorem Serving.accept_cases (h : Serving s) {error : Bool} {next : U} {t : CServer U}
    (hstep : s.step (.accept error next) = some t) :
    next ∉ s.created ∧ t = s.handleAccept error next := by
  unfold CServer.step at hstep
  rw [h.settled.sound.alive] at hstep
  dsimp only at hstep
  rw [if_neg (by simp)] at hstep
  split at hstep
  · cases hstep
  · rename_i hfresh
    rw [if_neg h.settled.waiting.2] at hstep
    exact ⟨hfresh, (Option.some.inj hstep).symm⟩

/-- An accept leaves the sessions of the other clients alone. -/
theorem Serving.session_of_accept (h : Serving s) (hu : u ∈ s.accepted) {error : Bool} {next : U}
    (hfresh : next ∉ s.created) : (s.handleAccept error next).session u = s.session u := by
  have hnext : u ≠ next := fun heq => hfresh (heq ▸ h.settled.made u (.inl hu))
  have hwaiting : u ≠ s.accepting := fun heq => h.settled.waiting.1 (heq ▸ hu)
  rw [session_handleAccept, Acceptor.round_other hnext fun _ => hwaiting]

end Steps

/-! ## Runs of the network -/

section Runs

variable {U : Type} {n : Network U} {log : U → List (PairEvent Sync.Call)}

/-- A client and its session have run alone since the accept, and for others nothing has
happened. -/
structure Online (n : Network U) (log : U → List (PairEvent Sync.Call)) : Prop where
  serving : Serving n.server
  quiet : ∀ u, n.client u = none → log u = []
  accepted : ∀ u entered peer, n.client u = some (entered, peer) → u ∈ n.server.accepted
  alone : ∀ u entered peer, n.client u = some (entered, peer) →
    ∃ client, Sync.Client.start entered.memory entered.line = .ok client
      ∧ Machine.exec (program .raw).pairStep { peer := { client }, server := .started } (log u)
        = some ⟨peer, n.server.session u⟩

theorem online_init (u : U) : Online (Network.init u) fun _ => [] where
  serving := serving_init u
  quiet := fun _ _ => rfl
  accepted := by
    intro v entered peer hclient
    cases hclient
  alone := by
    intro v entered peer hclient
    cases hclient

variable [DecidableEq U]

theorem online_accept_error (h : Online n log) {next : U} (hfresh : next ∉ n.server.created) :
    Online { n with server := n.server.handleAccept true next } log := by
  refine ⟨serving_accept h.serving true hfresh, h.quiet, ?_, ?_⟩
  · intro u entered peer hclient
    exact mem_accepted_handleAccept.mpr (.inl (h.accepted u entered peer hclient))
  · intro u entered peer hclient
    have hu := h.accepted u entered peer hclient
    rw [h.serving.session_of_accept hu hfresh]
    exact h.alone u entered peer hclient

theorem online_accept (h : Online n log) {next : U} (hfresh : next ∉ n.server.created)
    {entered : Entered} {client : Sync.Client}
    (hstart : Sync.Client.start entered.memory entered.line = .ok client) :
    Online (Network.setPeer { n with server := n.server.handleAccept false next }
      n.server.accepting entered { client }) log := by
  have hnone : n.client n.server.accepting = none := by
    refine Option.eq_none_iff_forall_ne_some.mpr fun x hx => ?_
    exact h.serving.settled.waiting.1 (h.accepted _ x.1 x.2 hx)
  have hnext := (h.serving.settled.fresh hfresh).2.2
  refine ⟨serving_accept h.serving false hfresh, ?_, ?_, ?_⟩
  · intro u hu
    refine h.quiet u ?_
    by_cases heq : u = n.server.accepting
    · rw [heq, hnone]
    · rwa [Network.setPeer_client, Function.update_of_ne heq] at hu
  · intro u entered' peer' hclient
    refine mem_accepted_handleAccept.mpr ?_
    by_cases heq : u = n.server.accepting
    · exact .inr ⟨rfl, heq⟩
    · rw [Network.setPeer_client, Function.update_of_ne heq] at hclient
      exact .inl (h.accepted u entered' peer' hclient)
  · intro u entered' peer' hclient
    by_cases heq : u = n.server.accepting
    · subst heq
      rw [Network.setPeer_client, Function.update_self] at hclient
      cases hclient
      refine ⟨client, hstart, ?_⟩
      rw [h.quiet _ hnone]
      simp only [Network.setPeer_server, session_handleAccept,
        Acceptor.round_waiting fun heq => hnext heq.symm, h.serving.waiting]
      rfl
    · rw [Network.setPeer_client, Function.update_of_ne heq] at hclient
      have hu := h.accepted u entered' peer' hclient
      simp only [Network.setPeer_server, h.serving.session_of_accept hu hfresh]
      exact h.alone u entered' peer' hclient

theorem online_goes (h : Online n log) {m : Network U} {u : U} {e : PairEvent Sync.Call}
    (hstep : n.step (.goes u e) = some m) :
    Online m (Function.update log u (log u ++ [e])) := by
  obtain ⟨⟨entered, peer⟩, hclient, -⟩ := Option.bind_eq_some_iff.mp hstep
  have hu := h.accepted u entered peer hclient
  have hsame := goes_same h.serving hclient hu e
  rw [hstep] at hsame
  generalize hx : (program .raw).pairStep _ e = y at hsame
  cases hsame with
  | some hmoves =>
      rename_i x
      obtain ⟨-, -, haccepted⟩ := hmoves.others
      refine ⟨hmoves.serving, ?_, ?_, ?_⟩
      · intro v hv
        rw [hmoves.client] at hv
        by_cases hvu : v = u
        · subst hvu
          rw [Function.update_self] at hv
          cases hv
        · rw [Function.update_of_ne hvu] at hv ⊢
          exact h.quiet v hv
      · intro v entered' peer' hv
        rw [haccepted]
        by_cases hvu : v = u
        · exact hvu ▸ hu
        · rw [hmoves.client, Function.update_of_ne hvu] at hv
          exact h.accepted v entered' peer' hv
      · intro v entered' peer' hv
        rw [hmoves.client] at hv
        by_cases hvu : v = u
        · subst hvu
          rw [Function.update_self] at hv
          cases hv
          obtain ⟨client, hstart, hrun⟩ := h.alone v _ _ hclient
          refine ⟨client, hstart, ?_⟩
          rw [Function.update_self, hmoves.session, Function.update_self]
          exact Machine.exec_append.mpr ⟨_, hrun, Machine.exec_cons_eq_some.mpr ⟨x, hx, rfl⟩⟩
        · rw [Function.update_of_ne hvu] at hv
          rw [Function.update_of_ne hvu, hmoves.session, Function.update_of_ne hvu]
          exact h.alone v entered' peer' hv

theorem online_step {x y : Network U × (U → List (PairEvent Sync.Call))} {e : NetworkEvent U}
    (h : Online x.1 x.2) (hstep : Machine.record Network.step Network.note x e = some y) :
    Online y.1 y.2 := by
  obtain ⟨n, log⟩ := x
  obtain ⟨m, hm, rfl⟩ := Machine.record_eq_some.mp hstep
  dsimp only at h hm ⊢
  cases e with
  | goes u e => exact online_goes h hm
  | accept entered next =>
      cases entered with
      | none =>
          obtain ⟨t, ht, rfl⟩ := Option.map_eq_some_iff.mp hm
          obtain ⟨hfresh, rfl⟩ := h.serving.accept_cases ht
          exact online_accept_error h hfresh
      | some entered =>
          obtain ⟨t, ht, hrest⟩ := Option.bind_eq_some_iff.mp hm
          obtain ⟨client, hstart, rfl⟩ := Option.map_eq_some_iff.mp hrest
          obtain ⟨hfresh, rfl⟩ := h.serving.accept_cases ht
          exact online_accept h hfresh (toOption_eq_some hstart)

/-- Every client is served, none is kept waiting, and the server takes the next one. -/
structure ServesAll (n : Network U) (log : U → List (PairEvent Sync.Call)) : Prop where
  serves : ∀ u entered peer, n.client u = some (entered, peer) →
    (program .raw).Serves entered.line (log u) ⟨peer, n.server.session u⟩
  goes_on : ∀ u entered peer, n.client u = some (entered, peer) →
    peer.client.stage = .exited ∧ u ∈ n.server.deleted
      ∨ ∃ e, e ≠ .breaks ∧ (n.step (.goes u e)).isSome
  ready : ∀ entered, ∀ next ∉ n.server.created, (n.step (.accept (some entered) next)).isSome

theorem Online.servesAll (h : Online n log) : ServesAll n log := by
  have hserves : ∀ u entered peer, n.client u = some (entered, peer) →
      (program .raw).Serves entered.line (log u) ⟨peer, n.server.session u⟩ := by
    intro u entered peer hclient
    obtain ⟨client, hstart, hrun⟩ := h.alone u entered peer hclient
    exact (session_follows .raw).serves started_same hstart hrun
  refine ⟨hserves, ?_, ?_⟩
  · intro u entered peer hclient
    have hu := h.accepted u entered peer hclient
    rcases (hserves u entered peer hclient).goes_on with ⟨hclient', hended⟩ | ⟨e, hne, hgo⟩
    · rw [← h.serving.deleted_eq hu] at hended
      exact .inl ⟨hclient', of_decide_eq_true hended⟩
    · refine .inr ⟨e, hne, ?_⟩
      rw [Machine.rel_isSome (goes_same h.serving hclient hu e)]
      exact hgo
  · intro entered next hfresh
    have hstep : n.server.step (.accept false next) = some (n.server.handleAccept false next) := by
      unfold CServer.step
      rw [h.serving.settled.sound.alive]
      exact (if_neg hfresh).trans (if_neg h.serving.settled.waiting.2)
    simp only [Network.step, hstep, Option.bind_some, Option.isSome_map]
    exact Sync.Client.start_isSome entered

/-- In every run of the network, however its clients, its sessions and their connections
take turns, each client is served. -/
theorem clients_served (u : U) (es : List (NetworkEvent U)) :
    Machine.Throughout (Machine.record Network.step Network.note) (fun x => ServesAll x.1 x.2)
      (Network.init u, fun _ => []) es :=
  (Machine.throughout_of_step
    (I := fun x : Network U × (U → List (PairEvent Sync.Call)) => Online x.1 x.2)
    online_step (online_init u) es).mono fun _ h => h.servesAll

end Runs

end RawServer

end CppNet.HalfDuplex
