import CppNet.Sync.Failures

/-!
# Other servers for the client

The servers of the repository listen on the same port, and any of them may be the one
that the client of `sync_client.cpp` finds there. Here the server is a program of which
one only knows that it goes in step with `CSession` (`Program.Follows`): that it can take
the same calls and writes the same bytes in them. A client and such a server do what the
two of `Link` do (`pair_same`), so what was shown of these holds of them
(`Program.Follows.serves`).
-/

namespace CppNet.Sync

open Pipeline (Channel)

/-! ## A client and its server -/

/-- What a client starts with: the memory of its array and the line that is typed. -/
structure Entered where
  memory : Bytes
  line : Bytes
deriving Repr, DecidableEq

/-- There is no line that a client does not start with. -/
theorem Client.start_isSome (entered : Entered) :
    (Client.start entered.memory entered.line).toOption.isSome := by
  obtain ⟨s, hstart, -⟩ := start_typed entered.memory entered.line
  obtain ⟨client, hclient, -⟩ := map_eq_ok.mp hstart
  rw [hclient]
  rfl

/-- A program that serves one client. `call` is what an event of it is to TCP, and `ended`
says that it has closed its socket. -/
structure Program (σ κ : Type) where
  step : σ → κ → Option (σ × Bytes)
  call : κ → Call
  ended : σ → Bool

/-- A client and its connection. -/
structure Peer where
  client : Client
  toServer : Channel Byte := {}
  toClient : Channel Byte := {}
  broken : Bool := false
deriving Repr, DecidableEq

inductive PeerEvent
  | client (call : Call)
  | toServer (count : Nat)
  | toClient (count : Nat)
deriving Repr, DecidableEq

def PeerEvent.toEvent : PeerEvent → Event
  | .client call => .client call
  | .toServer count => .toServer count
  | .toClient count => .toClient count

namespace Peer

/-- The client goes on, or TCP delivers; `closed` says that the server has closed its
socket. -/
def step (p : Peer) (closed : Bool) : PeerEvent → Option Peer
  | .client call =>
      (p.client.step call).bind fun (client, piece) =>
        if p.broken then
          (brokenTransport p.toClient call).map fun toClient => { p with client, toClient }
        else
          (transport p.toClient closed call).map fun toClient =>
            { p with client, toClient, toServer := p.toServer.send piece }
  | .toServer count =>
      if p.broken then none
      else (p.toServer.deliver count).map fun toServer => { p with toServer }
  | .toClient count =>
      if p.broken then none
      else (p.toClient.deliver count).map fun toClient => { p with toClient }

/-- What TCP has for a call of the server, in which it writes `piece`. -/
def serve (p : Peer) (call : Call) (piece : Bytes) : Option Peer :=
  if p.broken then (brokenTransport p.toServer call).map fun toServer => { p with toServer }
  else
    (transport p.toServer (p.client.stage = .exited) call).map fun toServer =>
      { p with toServer, toClient := p.toClient.send piece }

/-- The connection breaks. -/
def breaks (p : Peer) : Option Peer :=
  if p.broken then none
  else
    some { p with
      toServer := { p.toServer with flight := [] }
      toClient := { p.toClient with flight := [] }
      broken := true }

end Peer

structure Pair (σ : Type) where
  peer : Peer
  server : σ
deriving Repr, DecidableEq

inductive PairEvent (κ : Type)
  | peer (e : PeerEvent)
  | server (k : κ)
  | breaks
deriving Repr, DecidableEq

namespace Program

variable {σ κ : Type} (P : Program σ κ)

def pairStep (x : Pair σ) : PairEvent κ → Option (Pair σ)
  | .peer e => (x.peer.step (P.ended x.server) e).map fun peer => { x with peer }
  | .server k =>
      (P.step x.server k).bind fun (server, piece) =>
        (x.peer.serve (P.call k) piece).map fun peer => { peer, server }
  | .breaks => x.peer.breaks.map fun peer => { x with peer }

/-- What is true of a client and its server at the end of every run over `es`, if the line
`typed` was sent. -/
structure Serves (line : Bytes) (es : List (PairEvent κ)) (x : Pair σ) : Prop where
  safe : x.peer.client.Safe (typed line) x.peer.broken
  ends : es.length ≤ 12 * (typed line).length + 5
  goes_on : (x.peer.client.stage = .exited ∧ P.ended x.server = true)
    ∨ ∃ e, e ≠ .breaks ∧ (P.pairStep x e).isSome

/-! ## In step with `CSession` -/

/-- The program takes the calls that `CSession` takes, and writes the same in them. -/
structure Follows (R : σ → CSession → Prop) : Prop where
  step : ∀ {s c} k, R s c →
    Option.Rel (fun x y => R x.1 y.1 ∧ x.2 = y.2) (P.step s k) (c.step (P.call k))
  ended : ∀ {s c}, R s c → P.ended s = decide (c.position = .ended)
  surjective : Function.Surjective P.call

/-- The event of the connected system. -/
def erase : PairEvent κ → LinkEvent
  | .peer e => .goes e.toEvent
  | .server k => .goes (.server (P.call k))
  | .breaks => .breaks

end Program

section Same

variable {σ κ : Type} {P : Program σ κ} {R : σ → CSession → Prop}

theorem Program.Follows.exists_erase (h : P.Follows R) (e : Event) :
    ∃ e' : PairEvent κ, P.erase e' = .goes e ∧ e' ≠ .breaks := by
  cases e with
  | client call => exact ⟨.peer (.client call), rfl, by simp⟩
  | server call =>
      obtain ⟨k, rfl⟩ := h.surjective call
      exact ⟨.server k, rfl, by simp⟩
  | toServer count => exact ⟨.peer (.toServer count), rfl, by simp⟩
  | toClient count => exact ⟨.peer (.toClient count), rfl, by simp⟩

structure Peer.Same (p : Peer) (s : System) : Prop where
  client : p.client = s.client
  toServer : p.toServer = s.toServer
  toClient : p.toClient = s.toClient

structure Pair.Same (R : σ → CSession → Prop) (x : Pair σ) (l : Link) : Prop where
  peer : x.peer.Same l.system
  broken : x.peer.broken = l.broken
  server : R x.server l.system.server

theorem peer_same {p : Peer} {s : System} (h : p.Same s) {closed : Bool}
    (hclosed : closed = decide (s.server.position = .ended)) (e : PeerEvent) :
    Option.Rel (fun q t => q.Same t ∧ q.broken = p.broken ∧ t.server = s.server)
      (p.step closed e)
      (if p.broken then brokenStep s e.toEvent else Sync.step s e.toEvent) := by
  obtain ⟨client, toServer, toClient, broken⟩ := p
  obtain ⟨client', c, toServer', toClient'⟩ := s
  obtain ⟨rfl, rfl, rfl⟩ := h
  subst hclosed
  cases broken with
  | true =>
      cases e with
      | client call =>
          refine Machine.rel_bind_self _ fun r => ?_
          exact Machine.rel_map_self _ fun ch => ⟨⟨rfl, rfl, rfl⟩, rfl, rfl⟩
      | toServer count | toClient count => exact .none
  | false =>
      cases e with
      | client call =>
          refine Machine.rel_bind_self _ fun r => ?_
          exact Machine.rel_map_self _ fun ch => ⟨⟨rfl, rfl, rfl⟩, rfl, rfl⟩
      | toServer count | toClient count =>
          exact Machine.rel_map_self _ fun ch => ⟨⟨rfl, rfl, rfl⟩, rfl, rfl⟩

theorem serve_same {p : Peer} {s : System} (h : p.Same s) (call : Call) {server : CSession}
    {piece : Bytes} (hcall : s.server.step call = some (server, piece)) :
    Option.Rel (fun q t => q.Same t ∧ q.broken = p.broken ∧ t.server = server)
      (p.serve call piece)
      (if p.broken then brokenStep s (.server call) else Sync.step s (.server call)) := by
  obtain ⟨client, toServer, toClient, broken⟩ := p
  obtain ⟨client', c, toServer', toClient'⟩ := s
  obtain ⟨rfl, rfl, rfl⟩ := h
  dsimp only at hcall
  cases broken with
  | true =>
      simp only [Peer.serve, brokenStep, hcall, if_true, Option.bind_some]
      exact Machine.rel_map_self _ fun ch => ⟨⟨rfl, rfl, rfl⟩, rfl, rfl⟩
  | false =>
      simp only [Peer.serve, Sync.step, hcall, Bool.false_eq_true, if_false, Option.bind_some]
      exact Machine.rel_map_self _ fun ch => ⟨⟨rfl, rfl, rfl⟩, rfl, rfl⟩

/-- A client with a server that follows `CSession` does what it does with `CSession`. -/
theorem pair_same (h : P.Follows R) {x : Pair σ} {l : Link} (e : PairEvent κ)
    (hsame : x.Same R l) : Option.Rel (Pair.Same R) (P.pairStep x e) (l.step (P.erase e)) := by
  obtain ⟨s, broken⟩ := l
  obtain ⟨hpeer, rfl, hserver⟩ := hsame
  have hlink : ∀ e, Link.step ⟨s, x.peer.broken⟩ (.goes e)
      = (if x.peer.broken then brokenStep s e else Sync.step s e).map fun system =>
        ⟨system, x.peer.broken⟩ := by
    intro e
    cases hbroken : x.peer.broken <;> simp [Link.step]
  cases e with
  | peer e =>
      rw [Program.erase, hlink]
      refine Machine.rel_map (peer_same hpeer (h.ended hserver) e) fun hqt => ?_
      exact ⟨hqt.1, hqt.2.1, hqt.2.2 ▸ hserver⟩
  | server k =>
      rw [Program.erase, hlink]
      have hstep := h.step k hserver
      simp only [Program.pairStep]
      generalize hp : P.step x.server k = r at hstep
      generalize hc : s.server.step (P.call k) = r' at hstep
      cases hstep with
      | none =>
          have hnone : (if x.peer.broken then brokenStep s (.server (P.call k))
              else Sync.step s (.server (P.call k))) = none := by
            cases x.peer.broken <;> simp [brokenStep, Sync.step, hc]
          rw [hnone]
          exact .none
      | some hr =>
          obtain ⟨hr, hpiece⟩ := hr
          rename_i r r'
          obtain ⟨server, piece⟩ := r'
          obtain rfl : r.2 = piece := hpiece
          refine Machine.rel_map (serve_same hpeer (P.call k) hc) fun hqt => ?_
          exact ⟨hqt.1, hqt.2.1, hqt.2.2 ▸ hr⟩
  | breaks =>
      obtain ⟨⟨client, toServer, toClient, broken⟩, server⟩ := x
      obtain ⟨client', c, toServer', toClient'⟩ := s
      obtain ⟨rfl, rfl, rfl⟩ := hpeer
      cases broken with
      | true => exact .none
      | false => exact .some ⟨⟨rfl, rfl, rfl⟩, rfl, hserver⟩

/-- A server that follows `CSession` serves its client, whatever line is typed and whenever
the connection breaks. -/
theorem Program.Follows.serves (h : P.Follows R) {server : σ} (hserver : R server .enter)
    {memory line : Bytes} {client : Client} (hstart : Client.start memory line = .ok client)
    {es : List (PairEvent κ)} {x : Pair σ}
    (hrun : Machine.exec P.pairStep { peer := { client }, server } es = some x) :
    P.Serves line es x := by
  have hsame : Pair.Same R { peer := { client }, server } { system := { client } } :=
    ⟨⟨rfl, rfl, rfl⟩, rfl, hserver⟩
  have hrel := Machine.exec_rel (pair_same h) hsame es
  rw [hrun] at hrel
  generalize hl : Machine.exec Link.step _ _ = r at hrel
  cases hrel with
  | some hx =>
      rename_i l
      have hserves := Link.serves_of_start (map_eq_ok.mpr ⟨client, hstart, rfl⟩) hl
      refine ⟨?_, ?_, ?_⟩
      · rw [hx.peer.client, hx.broken]
        exact hserves.safe
      · have hends := hserves.ends
        rwa [List.length_map] at hends
      · rcases hserves.goes_on with ⟨hclient, hposition⟩ | ⟨e, hgo⟩
        · refine .inl ⟨hx.peer.client ▸ hclient, ?_⟩
          rw [h.ended hx.server]
          exact decide_eq_true hposition
        · obtain ⟨e', herase, hne⟩ := h.exists_erase e
          refine .inr ⟨e', hne, ?_⟩
          rw [Machine.rel_isSome (pair_same h e' hx), herase]
          exact hgo

end Same

end CppNet.Sync
