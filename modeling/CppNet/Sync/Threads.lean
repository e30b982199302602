import CppNet.Lib.Fleet
import CppNet.Sync.Blocking

/-!
# A thread for each connection

`CServer` of `sync_server.cpp` accepts one client after the other and gives each a
thread with a `CSession` of its own; `server` of `blocking_tcp_echo_server.cpp` does the
same with its `session`. The threads share no data, so the server with its clients is a
fleet of connected pairs, and however the threads, the clients and TCP take turns, each
client is served as if it were the only one: no other client, and no connection that
breaks, keeps it waiting or gets into its reply (`serves_all`, `blocking_serves_all`).
-/

namespace CppNet.Sync

/-! ## `sync_server.cpp` -/

/-- A client connects, and the thread of its session starts. -/
def connect (entered : Entered) : Option Link :=
  (System.start entered.memory entered.line).toOption.map fun system => { system }

/-- The loop accepts a client, or one of the threads and clients goes on. -/
def CServer.step :
    List (Entered × Link) → Fleet.Event Entered LinkEvent → Option (List (Entered × Link)) :=
  Fleet.step connect Link.step

/-- Every client of the server is served. -/
theorem serves_all {clients : List (Entered × Link)} {es : List (Fleet.Event Entered LinkEvent)}
    (hrun : Machine.exec CServer.step [] es = some clients) {k : Nat} {entered : Entered}
    {l : Link} (hk : clients[k]? = some (entered, l)) :
    l.Serves entered.line (es.filterMap (Fleet.eventOf k))
      ∧ (Finished l.system ∨ ∃ e, (CServer.step clients (.member k (.goes e))).isSome) := by
  obtain ⟨l₀, hconnect, hmember⟩ := Fleet.exec_of_member hrun hk
  obtain ⟨s, hstart, rfl⟩ := Option.map_eq_some_iff.mp hconnect
  have hserves := Link.serves_of_start (toOption_eq_some hstart) hmember
  refine ⟨hserves, hserves.goes_on.imp_right ?_⟩
  rintro ⟨e, hgo⟩
  exact ⟨e, Fleet.member_goes_on hk hgo⟩

/-- Two clients, of which the first sends its line and the connection of the second
breaks. -/
theorem serves_all_two :
    let es : List (Fleet.Event Entered LinkEvent) := [.join ⟨[], [72]⟩, .join ⟨[], [105]⟩,
      .member 0 (.goes (.client (.write 1))), .member 1 .breaks]
    let first : System := { client := { request := [72, 0], requestLength := 1, sent := 1 },
                            toServer := { flight := [72] } }
    let second : Link := { system := { client := { request := [105, 0], requestLength := 1 } },
                           broken := true }
    let clients := [(⟨[], [72]⟩, { system := first }), (⟨[], [105]⟩, second)]
    Machine.exec CServer.step [] es = some clients
      ∧ second.Serves [105] (es.filterMap (Fleet.eventOf 1))
      ∧ (Finished second.system
        ∨ ∃ e, (CServer.step clients (.member 1 (.goes e))).isSome) :=
  ⟨rfl, serves_all (k := 1) (show Machine.exec CServer.step [] [.join ⟨[], [72]⟩,
    .join ⟨[], [105]⟩, .member 0 (.goes (.client (.write 1))), .member 1 .breaks] = some _
    from rfl) rfl⟩

/-! ## `blocking_tcp_echo_server.cpp` -/

namespace Blocking

/-- A client connects, and the thread of its session starts, on a stack of its own. -/
def connect (entered : Entered × (Nat → Byte)) : Option (Pair Session) :=
  (Client.start entered.1.memory entered.1.line).toOption.map fun client =>
    { peer := { client }, server := .enter entered.2 }

/-- The loop accepts a client, or one of the detached threads and clients goes on. -/
def server.step : List ((Entered × (Nat → Byte)) × Pair Session) →
    Fleet.Event (Entered × (Nat → Byte)) (PairEvent (Call × (Nat → Byte))) →
    Option (List ((Entered × (Nat → Byte)) × Pair Session)) :=
  Fleet.step connect program.pairStep

/-- Every client of the server is served, whatever its thread finds on the stack. -/
theorem blocking_serves_all {clients : List ((Entered × (Nat → Byte)) × Pair Session)}
    {es : List (Fleet.Event (Entered × (Nat → Byte)) (PairEvent (Call × (Nat → Byte))))}
    (hrun : Machine.exec server.step [] es = some clients) {k : Nat}
    {entered : Entered × (Nat → Byte)} {x : Pair Session} (hk : clients[k]? = some (entered, x)) :
    program.Serves entered.1.line (es.filterMap (Fleet.eventOf k)) x
      ∧ (x.peer.client.stage = .exited ∧ x.server.position = .ended
        ∨ ∃ e, e ≠ .breaks ∧ (server.step clients (.member k e)).isSome) := by
  obtain ⟨x₀, hconnect, hmember⟩ := Fleet.exec_of_member hrun hk
  obtain ⟨client, hstart, rfl⟩ := Option.map_eq_some_iff.mp hconnect
  have hserves := session_follows.serves (enter_same entered.2) (toOption_eq_some hstart) hmember
  refine ⟨hserves, hserves.goes_on.imp (fun hdone => ⟨hdone.1, of_decide_eq_true hdone.2⟩) ?_⟩
  rintro ⟨e, hne, hgo⟩
  exact ⟨e, hne, Fleet.member_goes_on hk hgo⟩

/-- A client whose connection breaks, of a server whose stack holds the letter Z. -/
theorem blocking_serves_all_one :
    let stack : Nat → Byte := fun _ => 90
    let cut : Pair Session := {
      peer := { client := { request := [72, 0], requestLength := 1 }, broken := true }
      server := .enter stack }
    Machine.exec server.step [] [.join (⟨[], [72]⟩, stack), .member 0 .breaks]
        = some [((⟨[], [72]⟩, stack), cut)]
      ∧ program.Serves [72] [.breaks] cut
      ∧ (cut.peer.client.stage = .exited ∧ cut.server.position = .ended
        ∨ ∃ e, e ≠ .breaks
          ∧ (server.step [((⟨[], [72]⟩, stack), cut)] (.member 0 e)).isSome) :=
  ⟨rfl, blocking_serves_all (k := 0) (show Machine.exec server.step []
    [.join (⟨[], [72]⟩, fun _ => 90), .member 0 .breaks] = some _ from rfl) rfl⟩

end Blocking

end CppNet.Sync
