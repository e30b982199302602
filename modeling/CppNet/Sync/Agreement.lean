import CppNet.Sync.Model

/-!
# Agreement of the blocking client and server

The client counts the bytes of the reply, the server echoes whatever `read_some` came
back with, and TCP cuts and delays both directions as it likes. A byte of the line is
at any time in one of seven places: still to be sent, on its way, waiting for the
server, still to be echoed, on its way back, waiting for the client, or read. These
places are a pipeline, and each step of the system is a move of it or a return from a
call (`system_refines_pipeline`). So the reply is a prefix of the line, it is the line
once `read` has returned, and as long as it is not, some byte is on its way
(`agreement`).

Nor can the system stop elsewhere or go on for ever: a state in which no step is
possible is one where both programs have ended, and after `12 * line.length + 4` steps
no further one is possible (`completes`).
-/

namespace CppNet.Sync

open Pipeline (Move take_drop_split take_drop_ne_nil)

/-! ## The places of the bytes -/

def System.row (s : System) : List Bytes :=
  [s.client.reply, s.toClient.arrived, s.toClient.flight, s.server.unwritten,
    s.toServer.arrived, s.toServer.flight, s.client.unsent]

/-- The returns from calls the client has before it. -/
def Stage.rank : Stage → Nat
  | .writing => 3
  | .reading => 2
  | .replied => 1
  | .exited => 0

/-- The returns from calls the server has before it if it reads nothing more. -/
def Position.rank : Position → Nat
  | .writing .. => 2
  | .reading => 1
  | .ended => 0

def System.rank (s : System) : Nat := s.client.stage.rank + s.server.position.rank

/-- A piece moves, perhaps into a call of the server; or a call returns. -/
inductive Progress (s t : System) : Prop
  | moves (hmove : Move s.row t.row) (hrank : t.rank ≤ s.rank + 1)
  | returns (hrow : t.row = s.row) (hrank : t.rank < s.rank)

/-! ## The two programs -/

/-- The client has its line in the array, has sent it if it reads, and has read as much if
it has the reply. -/
structure Client.Sound (line : Bytes) (c : Client) : Prop where
  requestLength : c.requestLength = line.length
  request : c.requestLength ≤ c.request.length
  sent_le : c.sent ≤ c.requestLength
  sent : c.stage ≠ .writing → c.sent = c.requestLength
  reply : c.stage = .replied ∨ c.stage = .exited → c.reply.length = c.requestLength

structure CSession.Sound (s : CSession) : Prop where
  data : s.data.length = maxLength
  position : ∀ length done, s.position = .writing length done →
    done ≤ length ∧ length ≤ maxLength

/-- The two are sound, and the server does not end before the client. -/
structure Sound (line : Bytes) (s : System) : Prop where
  client : s.client.Sound line
  server : s.server.Sound
  ended : s.server.position = .ended → s.client.stage = .exited

section Programs

variable {line : Bytes} {c d : Client} {s t : CSession} {piece : Bytes}

theorem client_write (h : c.Sound line) {count : Nat}
    (hstep : c.step (.write count) = some (d, piece)) :
    d.Sound line ∧ d.reply = c.reply ∧ d.stage = c.stage ∧ c.unsent = piece ++ d.unsent
      ∧ piece ≠ [] := by
  obtain ⟨hstage, hpos, hcount, hr⟩ := Client.write_cases hstep
  cases hr
  refine ⟨⟨h.requestLength, h.request, hcount, fun hne => (hne hstage).elim, fun hout => ?_⟩,
    rfl, rfl, take_drop_split hcount, take_drop_ne_nil hpos (Nat.le_trans hcount h.request)⟩
  dsimp only at hout
  rw [hstage] at hout
  rcases hout with hout | hout <;> cases hout

/-- The client may go on to its next call. -/
theorem Client.Sound.next (h : c.Sound line) (hsent : c.sent = c.requestLength) {stage : Stage}
    (hreply : stage = .replied ∨ stage = .exited → c.reply.length = c.requestLength) :
    Client.Sound line { c with stage } :=
  ⟨h.requestLength, h.request, h.sent_le, fun _ => hsent, hreply⟩

theorem client_returns (h : c.Sound line) (hstep : c.step .returns = some (d, piece)) :
    d.Sound line ∧ d.reply = c.reply ∧ d.unsent = c.unsent ∧ d.stage.rank < c.stage.rank
      ∧ c.stage ≠ .exited ∧ piece = [] := by
  rcases Client.returns_cases hstep with ⟨hstage, hsent, hr⟩ | ⟨hstage, hreply, hr⟩ | ⟨hstage, hr⟩
  · cases hr
    refine ⟨h.next hsent (by simp), rfl, rfl, ?_, ?_, rfl⟩
    · rw [hstage]
      exact Nat.lt_add_one 2
    · simp [hstage]
  · cases hr
    refine ⟨h.next (h.sent (by simp [hstage])) fun _ => hreply, rfl, rfl, ?_, ?_, rfl⟩
    · rw [hstage]
      exact Nat.lt_add_one 1
    · simp [hstage]
  · cases hr
    have hreply := h.reply (.inl hstage)
    refine ⟨h.next (h.sent (by simp [hstage])) fun _ => hreply, rfl, rfl, ?_, ?_, rfl⟩
    · rw [hstage]
      exact Nat.lt_add_one 0
    · simp [hstage]

theorem client_read (h : c.Sound line) {bytes : Bytes}
    (hstep : c.step (.read (.bytes bytes)) = some (d, piece)) :
    d.Sound line ∧ d.reply = c.reply ++ bytes ∧ d.stage = c.stage ∧ d.unsent = c.unsent
      ∧ bytes ≠ [] ∧ piece = [] := by
  obtain ⟨hstage, hne, hlength, hr⟩ := Client.read_cases hstep
  cases hr
  refine ⟨⟨h.requestLength, h.request, h.sent_le, h.sent, fun hout => ?_⟩, rfl, rfl, rfl, hne, rfl⟩
  dsimp only at hout
  rw [hstage] at hout
  rcases hout with hout | hout <;> cases hout

theorem server_write (h : s.Sound) {count : Nat}
    (hstep : s.step (.write count) = some (t, piece)) :
    t.Sound ∧ t.position.rank = s.position.rank ∧ t.position ≠ .ended
      ∧ s.unwritten = piece ++ t.unwritten ∧ piece ≠ [] := by
  obtain ⟨length, done, hposition, hpos, hcount, hr⟩ := CSession.write_cases hstep
  cases hr
  have hlength := (h.position length done hposition).2
  refine ⟨⟨h.data, ?_⟩, ?_, by simp, ?_, ?_⟩
  · rintro length' done' heq
    cases heq
    exact ⟨hcount, hlength⟩
  · rw [hposition]
    rfl
  · rw [CSession.unwritten, hposition]
    exact take_drop_split hcount
  · exact take_drop_ne_nil hpos (by rw [h.data]; omega)

theorem server_read (h : s.Sound) {bytes : Bytes}
    (hstep : s.step (.read (.bytes bytes)) = some (t, piece)) :
    t.Sound ∧ t.position.rank = s.position.rank + 1 ∧ t.position ≠ .ended ∧ s.unwritten = []
      ∧ t.unwritten = bytes ∧ bytes ≠ [] ∧ piece = [] := by
  obtain ⟨hposition, hne, hlength, hr⟩ := CSession.read_cases hstep
  cases hr
  refine ⟨⟨?_, ?_⟩, ?_, by simp [CSession.fill], ?_, ?_, hne, rfl⟩
  · have hdata := h.data
    simp only [CSession.fill, List.length_append, List.length_drop]
    omega
  · rintro length' done' heq
    cases heq
    exact ⟨Nat.zero_le _, hlength⟩
  · rw [hposition]
    rfl
  · rw [CSession.unwritten, hposition]
  · exact List.take_left

theorem server_returns (hstep : s.step .returns = some (t, piece)) :
    t = .enter ∧ t.position.rank < s.position.rank ∧ s.unwritten = [] ∧ piece = [] := by
  obtain ⟨length, hposition, hr⟩ := CSession.returns_cases hstep
  cases hr
  refine ⟨rfl, ?_, ?_, rfl⟩
  · rw [hposition]
    exact Nat.lt_add_one 1
  · rw [CSession.unwritten, hposition]
    simp

theorem enter_sound : CSession.enter.Sound :=
  ⟨List.length_replicate, by simp [CSession.enter]⟩

end Programs

/-! ## Steps of the system -/

section Steps

variable {line : Bytes} {s t : System}

theorem client_step (h : Sound line s) {call : Call}
    (hstep : step s (.client call) = some t) : Sound line t ∧ Progress s t := by
  obtain ⟨hclient, hserver, hended⟩ := h
  obtain ⟨⟨client, piece⟩, hcall, hstep⟩ := Option.bind_eq_some_iff.mp hstep
  obtain ⟨toClient, htransport, rfl⟩ := Option.map_eq_some_iff.mp hstep
  rcases transport_cases htransport with ⟨bytes, rfl, hreceive⟩ | ⟨rfl, hclosed, -, -⟩
    | ⟨⟨count, rfl⟩, rfl⟩ | ⟨rfl, rfl⟩
  · obtain ⟨hclient', hreply, hstage, hunsent, hne, rfl⟩ := client_read hclient hcall
    obtain ⟨harrived, hflight⟩ := Pipeline.Channel.receive_cases hreceive
    refine ⟨⟨hclient', hserver, fun h => hstage.trans (hended h)⟩, .moves ?_ ?_⟩
    · simp only [System.row, Pipeline.Channel.send_nil, hreply, harrived, hflight, hunsent]
      exact .here _ _ _ _ hne
    · simp only [System.rank, hstage]
      omega
  · -- the server ends after the client, which has stopped reading by then
    have hexited := hended (of_decide_eq_true hclosed)
    rw [Client.eof_cases hcall] at hexited
    cases hexited
  · obtain ⟨hclient', hreply, hstage, hunsent, hne⟩ := client_write hclient hcall
    refine ⟨⟨hclient', hserver, fun h => hstage.trans (hended h)⟩, .moves ?_ ?_⟩
    · simp only [System.row, Pipeline.Channel.send, hreply, hunsent]
      exact .there _ (.there _ (.there _ (.there _ (.there _ (.here _ _ _ _ hne)))))
    · simp only [System.rank, hstage]
      omega
  · obtain ⟨hclient', hreply, hunsent, hrank, hgoing, rfl⟩ := client_returns hclient hcall
    refine ⟨⟨hclient', hserver, fun h => (hgoing (hended h)).elim⟩, .returns ?_ ?_⟩
    · simp only [System.row, Pipeline.Channel.send_nil, hreply, hunsent]
    · simp only [System.rank]
      omega

theorem server_step (h : Sound line s) {call : Call}
    (hstep : step s (.server call) = some t) : Sound line t ∧ Progress s t := by
  obtain ⟨hclient, hserver, hended⟩ := h
  obtain ⟨⟨server, piece⟩, hcall, hstep⟩ := Option.bind_eq_some_iff.mp hstep
  obtain ⟨toServer, htransport, rfl⟩ := Option.map_eq_some_iff.mp hstep
  rcases transport_cases htransport with ⟨bytes, rfl, hreceive⟩ | ⟨rfl, hclosed, -, rfl⟩
    | ⟨⟨count, rfl⟩, rfl⟩ | ⟨rfl, rfl⟩
  · obtain ⟨hserver', hrank, hgoing, hnone, hunwritten, hne, rfl⟩ := server_read hserver hcall
    obtain ⟨harrived, hflight⟩ := Pipeline.Channel.receive_cases hreceive
    refine ⟨⟨hclient, hserver', fun h => (hgoing h).elim⟩, .moves ?_ ?_⟩
    · simp only [System.row, Pipeline.Channel.send_nil, hnone, hunwritten, harrived, hflight]
      exact .there _ (.there _ (.there _ (.here _ _ _ _ hne)))
    · simp only [System.rank, hrank]
      omega
  · obtain ⟨hposition, hr⟩ := CSession.eof_cases hcall
    cases hr
    refine ⟨⟨hclient, ⟨hserver.data, by simp⟩, fun _ => of_decide_eq_true hclosed⟩, .returns ?_ ?_⟩
    · simp only [System.row, Pipeline.Channel.send_nil, CSession.unwritten, hposition]
    · simp only [System.rank, hposition, Position.rank]
      omega
  · obtain ⟨hserver', hrank, hgoing, hunwritten, hne⟩ := server_write hserver hcall
    refine ⟨⟨hclient, hserver', fun h => (hgoing h).elim⟩, .moves ?_ ?_⟩
    · simp only [System.row, Pipeline.Channel.send, hunwritten]
      exact .there _ (.there _ (.here _ _ _ _ hne))
    · simp only [System.rank, hrank]
      omega
  · obtain ⟨rfl, hrank, hnone, rfl⟩ := server_returns hcall
    refine ⟨⟨hclient, enter_sound, by simp [CSession.enter]⟩, .returns ?_ ?_⟩
    · simp only [System.row, Pipeline.Channel.send_nil, hnone]
      rfl
    · simp only [System.rank]
      omega

theorem sound_step (h : Sound line s) {e : Event} (hstep : step s e = some t) :
    Sound line t ∧ Progress s t := by
  cases e with
  | client call => exact client_step h hstep
  | server call => exact server_step h hstep
  | toServer count =>
      obtain ⟨toServer, hdeliver, rfl⟩ := Option.map_eq_some_iff.mp hstep
      obtain ⟨piece, hne, hflight, harrived⟩ := Pipeline.Channel.deliver_cases hdeliver
      refine ⟨⟨h.client, h.server, h.ended⟩, .moves ?_ (Nat.le_succ _)⟩
      simp only [System.row, hflight, harrived]
      exact .there _ (.there _ (.there _ (.there _ (.here _ _ _ _ hne))))
  | toClient count =>
      obtain ⟨toClient, hdeliver, rfl⟩ := Option.map_eq_some_iff.mp hstep
      obtain ⟨piece, hne, hflight, harrived⟩ := Pipeline.Channel.deliver_cases hdeliver
      refine ⟨⟨h.client, h.server, h.ended⟩, .moves ?_ (Nat.le_succ _)⟩
      simp only [System.row, hflight, harrived]
      exact .there _ (.here _ _ _ _ hne)

end Steps

/-! ## The line -/

/-- What the client sends of the line that was entered. -/
def typed (line : Bytes) : Bytes := (line.take (maxLength - 1)).takeWhile (· ≠ 0)

theorem takeWhile_append_nul (str rest : Bytes) :
    (str ++ 0 :: rest).takeWhile (· ≠ 0) = str.takeWhile (· ≠ 0) := by
  induction str with
  | nil => rfl
  | cons ch str ih =>
      rw [List.cons_append, List.takeWhile_cons, List.takeWhile_cons, ih]

theorem cString_getline (memory line : Bytes) : cString (getline memory line) = .ok (typed line) := by
  have hmem : 0 ∈ getline memory line := by simp [getline]
  rw [cString_of_mem hmem, getline, takeWhile_append_nul]
  rfl

theorem typed_prefix_getline (memory line : Bytes) : typed line <+: getline memory line :=
  (List.takeWhile_prefix _).trans (List.prefix_append _ _)

/-- A short line without a NUL is sent as it is. -/
theorem typed_eq {line : Bytes} (hnul : 0 ∉ line) (hlength : line.length < maxLength) :
    typed line = line := by
  have htake : line.take (maxLength - 1) = line := List.take_of_length_le (by omega)
  rw [typed, htake, ← List.append_nil line, List.takeWhile_append_of_pos, List.takeWhile_nil]
  exact fun ch hch => decide_eq_true fun hzero => hnul (hzero ▸ hch)

/-- The client starts with any line, and has to send what `typed` says. -/
theorem start_typed (memory line : Bytes) :
    ∃ s, System.start memory line = .ok s ∧ Sound (typed line) s
      ∧ s.row = [[], [], [], [], [], [], typed line] ∧ s.rank = 4 := by
  obtain ⟨rest, hrest⟩ := typed_prefix_getline memory line
  refine ⟨{ client := { request := getline memory line, requestLength := (typed line).length } },
    ?_, ⟨⟨rfl, (typed_prefix_getline memory line).length_le, Nat.zero_le _, by simp, by simp⟩,
      enter_sound, by simp [CSession.enter]⟩, ?_, rfl⟩
  · simp only [System.start, Client.start, strlen, cString_getline]
    rfl
  · simp only [System.row, Client.unsent, ← hrest, List.drop_zero, Nat.sub_zero, List.take_left]
    rfl

/-! ## Runs -/

/-- The system is a pipeline: each of its steps is a move or leaves the row as it is. -/
theorem system_refines_pipeline (line : Bytes) :
    Machine.Simulates step (fun _ _ => True) (fun s row => s.row = row ∧ Sound line s) Move := by
  rintro s e t row - ⟨rfl, h⟩ hstep
  obtain ⟨h', hprogress⟩ := sound_step h hstep
  cases hprogress with
  | moves hmove hrank => exact ⟨t.row, .single hmove, rfl, h'⟩
  | returns hrow hrank => exact ⟨s.row, .refl, hrow, h'⟩

section Runs

variable {line : Bytes} {s t : System}

theorem start_sound (memory : Bytes) (hnul : 0 ∉ line) (hlength : line.length < maxLength) :
    ∃ s, System.start memory line = .ok s ∧ Sound line s
      ∧ s.row = [[], [], [], [], [], [], line] ∧ s.rank = 4 := by
  have htyped := start_typed memory line
  rwa [typed_eq hnul hlength] at htyped

theorem sound_run {row : List Bytes} (h : Sound line s) (hrow : s.row = row) (es : List Event) :
    Machine.Throughout step (fun t => Sound line t ∧ t.row.flatten = row.flatten) s es := by
  refine (Machine.refines_throughout (system_refines_pipeline line)
    (Machine.along_of_forall (fun _ _ _ => trivial) s) ⟨hrow, h⟩).mono ?_
  rintro t ⟨row', hmoves, rfl, ht⟩
  exact ⟨ht, Pipeline.flatten_eq_of_moves hmoves⟩

/-! ## Agreement -/

/-- The client waits for more of the reply; there is nothing for the server to read, it has
nothing left to write, and nothing is in flight. -/
structure Stuck (s : System) : Prop where
  waits : s.client.stage = .reading ∧ s.client.reply.length < s.client.requestLength
  unread : s.toServer.IsEmpty
  unwritten : s.server.unwritten = []
  flight : s.toClient.IsEmpty

/-- The reply is a prefix of the line, and the line once `read` has returned; and the
client does not wait for what will not come. -/
structure Agrees (line : Bytes) (s : System) : Prop where
  isPrefix : s.client.reply <+: line
  complete : s.client.stage = .replied ∨ s.client.stage = .exited → s.client.reply = line
  not_stuck : ¬ Stuck s

theorem Sound.agrees (h : Sound line s) (hrow : s.row.flatten = line) : Agrees line s := by
  refine ⟨Pipeline.head_prefix hrow, fun hout => ?_, fun hstuck => ?_⟩
  · have hlength := (h.client.reply hout).trans h.client.requestLength
    exact Pipeline.head_eq_of_flatten hrow (Pipeline.rest_eq_nil hrow hlength)
  · obtain ⟨⟨hstage, hless⟩, ⟨hflight, harrived⟩, hunwritten, ⟨hflight', harrived'⟩⟩ := hstuck
    have hunsent : s.client.unsent = [] := by
      rw [Client.unsent, h.client.sent (by rw [hstage]; decide), Nat.sub_self, List.take_zero]
    have hreply : s.client.reply = line :=
      Pipeline.head_eq_of_flatten hrow (by
        simp [hflight, harrived, hunwritten, hflight', harrived', hunsent])
    rw [hreply, h.client.requestLength] at hless
    omega

/-- The client and the server agree, however TCP cuts and delays the bytes. -/
theorem agreement (memory : Bytes) {line : Bytes} (hnul : 0 ∉ line)
    (hlength : line.length < maxLength) :
    ∃ s, System.start memory line = .ok s
      ∧ ∀ es, Machine.Throughout step (Agrees line) s es := by
  obtain ⟨s, hstart, hsound, hrow, -⟩ := start_sound memory hnul hlength
  refine ⟨s, hstart, fun es => (sound_run hsound hrow es).mono ?_⟩
  rintro t ⟨ht, hflatten⟩
  exact ht.agrees (hflatten.trans (List.append_nil line))

theorem agreement_hi : ∃ s, System.start [] [72, 105] = .ok s
    ∧ ∀ es, Machine.Throughout step (Agrees [72, 105]) s es :=
  agreement [] (by decide) (by decide)

/-! ## Completion -/

def Finished (s : System) : Prop := s.client.stage = .exited ∧ s.server.position = .ended

theorem client_goes_on (call : Call) {r : Client × Bytes} {toClient : Pipeline.Channel Byte}
    (hcall : s.client.step call = some r)
    (htransport : transport s.toClient (s.server.position = .ended) call = some toClient) :
    ∃ e t, step s e = some t :=
  ⟨.client call, _, Option.bind_eq_some_iff.mpr
    ⟨r, hcall, Option.map_eq_some_iff.mpr ⟨toClient, htransport, rfl⟩⟩⟩

theorem server_goes_on (call : Call) {r : CSession × Bytes} {toServer : Pipeline.Channel Byte}
    (hcall : s.server.step call = some r)
    (htransport : transport s.toServer (s.client.stage = .exited) call = some toServer) :
    ∃ e t, step s e = some t :=
  ⟨.server call, _, Option.bind_eq_some_iff.mpr
    ⟨r, hcall, Option.map_eq_some_iff.mpr ⟨toServer, htransport, rfl⟩⟩⟩

/-- A server in `write` can go on with it. -/
theorem goes_on_of_writing (h : s.server.Sound) {length done : Nat}
    (hposition : s.server.position = .writing length done) : ∃ e t, step s e = some t := by
  have hdone := (h.position length done hposition).1
  by_cases hall : done = length
  · have hcall : s.server.step .returns = some (.enter, []) := by
      simp only [CSession.step, hposition, if_pos hall]
    exact server_goes_on .returns hcall rfl
  · have hcall : s.server.step (.write 1) = some ({ s.server with
        position := .writing length (done + 1) }, (s.server.data.drop done).take 1) := by
      simp only [CSession.step, hposition, if_pos (show 0 < 1 ∧ done + 1 ≤ length by omega)]
    exact server_goes_on (.write 1) hcall rfl

/-- So can one in `read_some`, once something has arrived. -/
theorem goes_on_of_arrived (hposition : s.server.position = .reading)
    (harrived : s.toServer.arrived ≠ []) : ∃ e t, step s e = some t := by
  obtain ⟨ch, rest, hcons⟩ := List.exists_cons_of_ne_nil harrived
  have hguard : s.server.position = .reading ∧ [ch] ≠ [] ∧ [ch].length ≤ maxLength :=
    ⟨hposition, List.cons_ne_nil _ _, by simp [maxLength]⟩
  have hreceive : s.toServer.receive [ch] = some ⟨s.toServer.flight, rest⟩ := by
    rw [← Pipeline.Channel.receive_append [ch] rest, List.singleton_append, ← hcons]
  exact server_goes_on (.read (.bytes [ch])) (if_pos hguard) hreceive

/-- A client that waits for more of the reply is not kept waiting. -/
theorem goes_on_of_reading (h : Sound line s) (hrow : s.row.flatten = line)
    (hstage : s.client.stage = .reading) : ∃ e t, step s e = some t := by
  by_cases hall : s.client.reply.length = s.client.requestLength
  · have hcall : s.client.step .returns = some ({ s.client with stage := .replied }, []) := by
      simp only [Client.step, hstage, if_pos hall]
    exact client_goes_on .returns hcall rfl
  have hless : s.client.reply.length < s.client.requestLength := by
    have hle := (Pipeline.head_prefix hrow).length_le
    have hlength := h.client.requestLength
    omega
  cases hposition : s.server.position with
  | writing length done => exact goes_on_of_writing h.server hposition
  | ended =>
      have hexited := h.ended hposition
      rw [hstage] at hexited
      cases hexited
  | reading =>
      -- the byte that comes next is in one of the two channels
      by_cases harrived : s.toServer.arrived = []
      · by_cases hflight : s.toServer.flight = []
        · by_cases hflight' : s.toClient.flight = []
          · cases harrived' : s.toClient.arrived with
            | nil =>
                refine ((h.agrees hrow).not_stuck ⟨⟨hstage, hless⟩, ⟨hflight, harrived⟩, ?_,
                  ⟨hflight', harrived'⟩⟩).elim
                rw [CSession.unwritten, hposition]
            | cons ch rest =>
                have hreceive : s.toClient.receive [ch] = some ⟨s.toClient.flight, rest⟩ := by
                  rw [← Pipeline.Channel.receive_append [ch] rest, List.singleton_append,
                    ← harrived']
                have hguard : s.client.stage = .reading ∧ [ch] ≠ []
                    ∧ s.client.reply.length + [ch].length ≤ s.client.requestLength :=
                  ⟨hstage, List.cons_ne_nil _ _, hless⟩
                exact client_goes_on (.read (.bytes [ch])) (if_pos hguard) hreceive
          · obtain ⟨toClient, hdeliver⟩ := Pipeline.Channel.deliver_of_flight hflight'
            exact ⟨.toClient 1, _, Option.map_eq_some_iff.mpr ⟨toClient, hdeliver, rfl⟩⟩
        · obtain ⟨toServer, hdeliver⟩ := Pipeline.Channel.deliver_of_flight hflight
          exact ⟨.toServer 1, _, Option.map_eq_some_iff.mpr ⟨toServer, hdeliver, rfl⟩⟩
      · exact goes_on_of_arrived hposition harrived

/-- A server whose client has left reads the end of the stream. -/
theorem goes_on_of_exited (h : Sound line s) (hrow : s.row.flatten = line)
    (hstage : s.client.stage = .exited) (hgoing : s.server.position ≠ .ended) :
    ∃ e t, step s e = some t := by
  cases hposition : s.server.position with
  | writing length done => exact goes_on_of_writing h.server hposition
  | ended => exact (hgoing hposition).elim
  | reading =>
      have hlength := (h.client.reply (.inr hstage)).trans h.client.requestLength
      have hnone := Pipeline.rest_eq_nil hrow hlength
      have hempty : s.toServer.IsEmpty := by
        simp only [List.flatten_cons, List.append_eq_nil_iff] at hnone
        exact ⟨hnone.2.2.2.2.1, hnone.2.2.2.1⟩
      have hclosed : decide (s.client.stage = .exited) = true ∧ s.toServer.IsEmpty :=
        ⟨decide_eq_true hstage, hempty⟩
      exact server_goes_on (.read .eof) (if_pos hposition) (if_pos hclosed)

theorem finished_or_goes_on (h : Sound line s) (hrow : s.row.flatten = line) :
    Finished s ∨ ∃ e t, step s e = some t := by
  cases hstage : s.client.stage with
  | writing =>
      by_cases hall : s.client.sent = s.client.requestLength
      · have hcall : s.client.step .returns = some ({ s.client with stage := .reading }, []) := by
          simp only [Client.step, hstage, if_pos hall]
        exact .inr (client_goes_on .returns hcall rfl)
      · have hle := h.client.sent_le
        have hguard : s.client.stage = .writing ∧ 0 < 1
            ∧ s.client.sent + 1 ≤ s.client.requestLength := ⟨hstage, Nat.one_pos, by omega⟩
        exact .inr (client_goes_on (.write 1) (if_pos hguard) rfl)
  | reading => exact .inr (goes_on_of_reading h hrow hstage)
  | replied =>
      have hcall : s.client.step .returns = some ({ s.client with stage := .exited }, []) := by
        simp only [Client.step, hstage]
      exact .inr (client_goes_on .returns hcall rfl)
  | exited =>
      by_cases hended : s.server.position = .ended
      · exact .inl ⟨hstage, hended⟩
      · exact .inr (goes_on_of_exited h hrow hstage hended)

/-- What is left to do: the moves, each of which may lead into one more call of the server,
and the returns. -/
def System.work (s : System) : Nat := 2 * Pipeline.weight s.row + s.rank

theorem Progress.work_lt (h : Progress s t) : t.work < s.work := by
  unfold System.work
  cases h with
  | moves hmove hrank =>
      have hlt := hmove.weight_lt
      omega
  | returns hrow hrank =>
      rw [hrow]
      omega

/-- Every run ends, and it ends with both programs at their ends. -/
theorem completes (memory : Bytes) (hnul : 0 ∉ line) (hlength : line.length < maxLength)
    (hstart : System.start memory line = .ok s) {es : List Event}
    (hrun : Machine.exec step s es = some t) :
    es.length ≤ 12 * line.length + 4 ∧ (Finished t ∨ ∃ e u, step t e = some u) := by
  obtain ⟨s', hstart', hsound, hrow, hrank⟩ := start_sound memory hnul hlength
  obtain rfl : s' = s := Except.ok.inj (hstart'.symm.trans hstart)
  constructor
  · have hle := Machine.exec_length_le System.work
      (fun hI hstep => (sound_step hI hstep).imp_right Progress.work_lt) hsound hrun
    have hwork : s'.work = 12 * line.length + 4 := by
      rw [System.work, hrow, hrank]
      simp only [Pipeline.weight, List.flatten_cons, List.flatten_nil, List.nil_append,
        List.append_nil, List.length_nil]
      omega
    omega
  · obtain ⟨ht, hflatten⟩ := (sound_run hsound hrow es).last hrun
    exact finished_or_goes_on ht (hflatten.trans (List.append_nil line))

end Runs

end CppNet.Sync
