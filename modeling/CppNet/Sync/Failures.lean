import CppNet.Sync.Agreement

/-!
# Connections that break

The connection of a `System` does not fail. Here it may be reset at any moment: what is
in flight is lost, nothing more arrives, and a call on it reports an error or the end of
the stream, once there is nothing left to read. The programs throw then, and leave.

The line is any that can be typed. What the client sends of it is what `getline` stores
and `strlen` counts (`typed`). A client that prints a reply prints this request, whole,
whether the connection held or not; and no reset keeps a program waiting
(`Link.serves_of_start`).
-/

namespace CppNet.Sync

structure Link where
  system : System
  broken : Bool := false
deriving Repr, DecidableEq

inductive LinkEvent
  | goes (e : Event)
  | breaks
deriving Repr, DecidableEq

/-- What a broken connection has for a call: a read gets what had arrived, and anything
that has to pass the connection may fail. -/
def brokenTransport (c : Pipeline.Channel Byte) : Call → Option (Pipeline.Channel Byte)
  | .read (.bytes bytes) => c.receive bytes
  | .read .eof | .read .error | .write _ | .writeFails | .returns => some c

/-- The programs go on, but what they write is lost. -/
def brokenStep (s : System) : Event → Option System
  | .client call =>
      (s.client.step call).bind fun (client, _) =>
        (brokenTransport s.toClient call).map fun toClient => { s with client, toClient }
  | .server call =>
      (s.server.step call).bind fun (server, _) =>
        (brokenTransport s.toServer call).map fun toServer => { s with server, toServer }
  | .toServer _ | .toClient _ => none

/-- What is in flight is lost. -/
def System.cut (s : System) : System :=
  { s with toServer := { s.toServer with flight := [] },
           toClient := { s.toClient with flight := [] } }

def Link.step (l : Link) : LinkEvent → Option Link
  | .goes e =>
      if l.broken then (brokenStep l.system e).map fun system => { l with system }
      else (Sync.step l.system e).map fun system => { l with system }
  | .breaks => if l.broken then none else some { system := l.system.cut, broken := true }

/-! ## What a call on a broken connection does -/

theorem CSession.fails_cases {s : CSession} {r : CSession × Bytes} {call : Call}
    (hcall : call = .read .eof ∨ call = .read .error ∨ call = .writeFails)
    (h : s.step call = some r) :
    s.position ≠ .ended ∧ r = ({ s with position := .ended }, []) := by
  rcases hcall with rfl | rfl | rfl
  all_goals
    unfold step at h
    dsimp only at h
    split at h
  · rename_i hreading
    exact ⟨by simp [hreading], (Option.some.inj h).symm⟩
  · cases h
  · rename_i hreading
    exact ⟨by simp [hreading], (Option.some.inj h).symm⟩
  · cases h
  · rename_i length done hposition
    split at h
    · exact ⟨by simp [hposition], (Option.some.inj h).symm⟩
    · cases h
  all_goals cases h

theorem Client.fails_cases {c : Client} {r : Client × Bytes} {call : Call}
    (hcall : call = .read .eof ∨ call = .read .error ∨ call = .writeFails)
    (h : c.step call = some r) :
    (c.stage = .reading ∨ c.stage = .writing) ∧ r = ({ c with stage := .exited }, []) := by
  rcases hcall with rfl | rfl | rfl
  all_goals
    unfold step at h
    dsimp only at h
    split at h
  · rename_i hguard
    exact ⟨.inl hguard.1, (Option.some.inj h).symm⟩
  · cases h
  · rename_i hguard
    exact ⟨.inl hguard.1, (Option.some.inj h).symm⟩
  · cases h
  · rename_i hguard
    exact ⟨.inr hguard.1, (Option.some.inj h).symm⟩
  · cases h

theorem brokenTransport_cases {c d : Pipeline.Channel Byte} {call : Call}
    (h : brokenTransport c call = some d) :
    (∃ bytes, call = .read (.bytes bytes) ∧ c.receive bytes = some d)
      ∨ ((call = .read .eof ∨ call = .read .error ∨ call = .writeFails) ∧ d = c)
      ∨ ((∃ count, call = .write count) ∧ d = c)
      ∨ (call = .returns ∧ d = c) := by
  unfold brokenTransport at h
  split at h
  · exact .inl ⟨_, rfl, h⟩
  all_goals obtain rfl := Option.some.inj h
  · exact .inr (.inl ⟨.inl rfl, rfl⟩)
  · exact .inr (.inl ⟨.inr (.inl rfl), rfl⟩)
  · exact .inr (.inr (.inl ⟨⟨_, rfl⟩, rfl⟩))
  · exact .inr (.inl ⟨.inr (.inr rfl), rfl⟩)
  · exact .inr (.inr (.inr ⟨rfl, rfl⟩))

/-! ## The invariant of a broken connection -/

/-- What the client keeps when the connection has broken: what it has of the reply, and
what it can still read of it, is how the request begins. -/
structure Client.Kept (line : Bytes) (c : Client) (arrived : Bytes) : Prop where
  requestLength : c.requestLength = line.length
  request : c.requestLength ≤ c.request.length
  sent_le : c.sent ≤ c.requestLength
  reply : c.stage = .replied → c.reply.length = c.requestLength
  isPrefix : c.reply ++ arrived <+: line

inductive Link.Sound (line : Bytes) (l : Link) : Prop
  | whole (hwhole : l.broken = false) (hsound : Sync.Sound line l.system)
      (hrow : l.system.row.flatten = line)
  | broken (hbroken : l.broken = true)
      (hclient : l.system.client.Kept line l.system.toClient.arrived)
      (hserver : l.system.server.Sound)

/-- What is left to do, and the reset. -/
def Link.work (l : Link) : Nat := l.system.work + if l.broken then 0 else 1

theorem System.work_eq (s : System) :
    s.work = 2 * (s.toClient.arrived.length + 2 * s.toClient.flight.length
      + 3 * s.server.unwritten.length + 4 * s.toServer.arrived.length
      + 5 * s.toServer.flight.length + 6 * s.client.unsent.length)
      + (s.client.stage.rank + s.server.position.rank) := by
  simp only [System.work, System.rank, System.row, Pipeline.weight, List.flatten_cons,
    List.flatten_nil, List.append_nil, List.length_append, List.length_nil]
  omega

section Broken

variable {line : Bytes} {c d : Client} {s t : CSession} {ch ch' : Pipeline.Channel Byte}
  {call : Call} {piece : Bytes}

theorem kept_step (h : c.Kept line ch.arrived) (hcall : c.step call = some (d, piece))
    (htransport : brokenTransport ch call = some ch') :
    d.Kept line ch'.arrived ∧ ch'.flight = ch.flight
      ∧ 2 * (ch'.arrived.length + 6 * d.unsent.length) + d.stage.rank
        < 2 * (ch.arrived.length + 6 * c.unsent.length) + c.stage.rank := by
  rcases brokenTransport_cases htransport with ⟨bytes, rfl, hreceive⟩ | ⟨hfails, rfl⟩
    | ⟨⟨count, rfl⟩, rfl⟩ | ⟨rfl, rfl⟩
  · obtain ⟨hstage, hne, -, hr⟩ := Client.read_cases hcall
    cases hr
    obtain ⟨harrived, hflight⟩ := Pipeline.Channel.receive_cases hreceive
    refine ⟨⟨h.requestLength, h.request, h.sent_le, ?_, ?_⟩, hflight, ?_⟩
    · intro hreplied
      rw [hstage] at hreplied
      cases hreplied
    · rw [List.append_assoc, ← harrived]
      exact h.isPrefix
    · have hpos : 0 < bytes.length := List.length_pos_iff.mpr hne
      simp only [Client.unsent, harrived, List.length_append]
      omega
  · obtain ⟨hstage, hr⟩ := Client.fails_cases hfails hcall
    cases hr
    refine ⟨⟨h.requestLength, h.request, h.sent_le, by simp, h.isPrefix⟩, rfl, ?_⟩
    rcases hstage with hstage | hstage
    all_goals
      simp only [Client.unsent, hstage, Stage.rank]
      omega
  · obtain ⟨hstage, hpos, hcount, hr⟩ := Client.write_cases hcall
    cases hr
    refine ⟨⟨h.requestLength, h.request, hcount, h.reply, h.isPrefix⟩, rfl, ?_⟩
    have hsplit := congrArg List.length (Pipeline.take_drop_split (l := c.request) hcount)
    have hne := List.length_pos_iff.mpr
      (Pipeline.take_drop_ne_nil hpos (Nat.le_trans hcount h.request))
    rw [List.length_append] at hsplit
    simp only [Client.unsent]
    omega
  · rcases Client.returns_cases hcall with ⟨hstage, -, hr⟩ | ⟨hstage, hreply, hr⟩ | ⟨hstage, hr⟩
    all_goals
      cases hr
      refine ⟨⟨h.requestLength, h.request, h.sent_le, ?_, h.isPrefix⟩, rfl, ?_⟩
    · intro hreplied
      cases hreplied
    · simp only [Client.unsent, hstage, Stage.rank]
      omega
    · exact fun _ => hreply
    · simp only [Client.unsent, hstage, Stage.rank]
      omega
    · intro hreplied
      cases hreplied
    · simp only [Client.unsent, hstage, Stage.rank]
      omega

theorem server_broken_step (h : s.Sound) (hcall : s.step call = some (t, piece))
    (htransport : brokenTransport ch call = some ch') :
    t.Sound ∧ ch'.flight = ch.flight
      ∧ 2 * (3 * t.unwritten.length + 4 * ch'.arrived.length) + t.position.rank
        < 2 * (3 * s.unwritten.length + 4 * ch.arrived.length) + s.position.rank := by
  rcases brokenTransport_cases htransport with ⟨bytes, rfl, hreceive⟩ | ⟨hfails, rfl⟩
    | ⟨⟨count, rfl⟩, rfl⟩ | ⟨rfl, rfl⟩
  · obtain ⟨ht, hrank, -, hnone, hunwritten, hne, -⟩ := server_read h hcall
    obtain ⟨harrived, hflight⟩ := Pipeline.Channel.receive_cases hreceive
    have hpos : 0 < bytes.length := List.length_pos_iff.mpr hne
    refine ⟨ht, hflight, ?_⟩
    simp only [hnone, hunwritten, hrank, harrived, List.length_append, List.length_nil]
    omega
  · obtain ⟨hposition, hr⟩ := CSession.fails_cases hfails hcall
    cases hr
    refine ⟨⟨h.data, by simp⟩, rfl, ?_⟩
    have hrank : 0 < s.position.rank := by
      cases hp : s.position with
      | ended => exact (hposition hp).elim
      | reading | writing => simp [Position.rank]
    have hnone : ({ s with position := .ended } : CSession).unwritten = [] := rfl
    have hended : Position.ended.rank = 0 := rfl
    simp only [hnone, hended, List.length_nil]
    omega
  · obtain ⟨ht, hrank, -, hunwritten, hne⟩ := server_write h hcall
    have hpos : 0 < piece.length := List.length_pos_iff.mpr hne
    refine ⟨ht, rfl, ?_⟩
    simp only [hunwritten, hrank, List.length_append]
    omega
  · obtain ⟨rfl, hrank, hnone, -⟩ := server_returns hcall
    refine ⟨enter_sound, rfl, ?_⟩
    rw [hnone]
    simp only [CSession.unwritten, CSession.enter, List.length_nil] at hrank ⊢
    omega

end Broken

/-! ## Steps -/

section Steps

variable {line : Bytes} {l m : Link} {s t : System}

theorem broken_step (hclient : s.client.Kept line s.toClient.arrived) (hserver : s.server.Sound)
    {e : Event} (hstep : brokenStep s e = some t) :
    (t.client.Kept line t.toClient.arrived ∧ t.server.Sound) ∧ t.work < s.work := by
  cases e with
  | client call =>
      obtain ⟨⟨client, piece⟩, hcall, hstep⟩ := Option.bind_eq_some_iff.mp hstep
      obtain ⟨toClient, htransport, rfl⟩ := Option.map_eq_some_iff.mp hstep
      obtain ⟨hkept, hflight, hlt⟩ := kept_step hclient hcall htransport
      refine ⟨⟨hkept, hserver⟩, ?_⟩
      simp only [System.work_eq, hflight]
      omega
  | server call =>
      obtain ⟨⟨server, piece⟩, hcall, hstep⟩ := Option.bind_eq_some_iff.mp hstep
      obtain ⟨toServer, htransport, rfl⟩ := Option.map_eq_some_iff.mp hstep
      obtain ⟨hsound, hflight, hlt⟩ := server_broken_step hserver hcall htransport
      refine ⟨⟨hclient, hsound⟩, ?_⟩
      simp only [System.work_eq, hflight]
      omega
  | toServer count => cases hstep
  | toClient count => cases hstep

/-- What has arrived when the connection breaks is how the rest of the request begins. -/
theorem Sound.kept (h : Sync.Sound line s) (hrow : s.row.flatten = line) :
    s.cut.client.Kept line s.cut.toClient.arrived := by
  refine ⟨h.client.requestLength, h.client.request, h.client.sent_le,
    fun hreplied => h.client.reply (.inl hreplied), ?_⟩
  rw [← hrow]
  simp only [System.row, System.cut, List.flatten_cons, ← List.append_assoc]
  simp only [List.append_assoc (s.client.reply ++ s.toClient.arrived)]
  exact List.prefix_append _ _

theorem cut_work_le (s : System) : s.cut.work ≤ s.work := by
  rw [System.work_eq, System.work_eq]
  simp only [System.cut, List.length_nil]
  omega

theorem Link.sound_step (h : l.Sound line) {e : LinkEvent} (hstep : l.step e = some m) :
    m.Sound line ∧ m.work < l.work := by
  obtain ⟨s, broken⟩ := l
  cases h with
  | whole hwhole hsound hrow =>
      obtain rfl : broken = false := hwhole
      cases e with
      | goes e =>
          obtain ⟨t, ht, rfl⟩ := Option.map_eq_some_iff.mp hstep
          obtain ⟨hsound', hprogress⟩ := Sync.sound_step hsound ht
          have hflatten : t.row.flatten = s.row.flatten := by
            cases hprogress with
            | moves hmove hrank => exact hmove.flatten_eq
            | returns hrow hrank => rw [hrow]
          exact ⟨.whole rfl hsound' (hflatten.trans hrow), Nat.add_lt_add_right hprogress.work_lt _⟩
      | breaks =>
          obtain rfl := Option.some.inj hstep
          exact ⟨.broken rfl (hsound.kept hrow) hsound.server,
            Nat.lt_succ_of_le (cut_work_le s)⟩
  | broken hbroken hclient hserver =>
      obtain rfl : broken = true := hbroken
      cases e with
      | goes e =>
          obtain ⟨t, ht, rfl⟩ := Option.map_eq_some_iff.mp hstep
          obtain ⟨⟨hclient', hserver'⟩, hlt⟩ := broken_step hclient hserver ht
          exact ⟨.broken rfl hclient' hserver', hlt⟩
      | breaks => cases hstep

end Steps

/-! ## Runs -/

/-- A client that prints a reply prints its request. While the connection holds, one that
has left has done so. -/
structure Client.Safe (line : Bytes) (broken : Bool) (c : Client) : Prop where
  isPrefix : c.reply <+: line
  replied : c.stage = .replied → c.reply = line
  exited : broken = false → c.stage = .exited → c.reply = line

section Runs

variable {line : Bytes} {l m : Link} {s : System}

theorem Link.Sound.safe (h : l.Sound line) : l.system.client.Safe line l.broken := by
  cases h with
  | whole hwhole hsound hrow =>
      have hagrees := hsound.agrees hrow
      exact ⟨hagrees.isPrefix, fun hreplied => hagrees.complete (.inl hreplied),
        fun _ hexited => hagrees.complete (.inr hexited)⟩
  | broken hbroken hclient hserver =>
      have hpre := (List.prefix_append _ _).trans hclient.isPrefix
      refine ⟨hpre, fun hreplied => ?_, fun hwhole => ?_⟩
      · have hlength := (hclient.reply hreplied).trans hclient.requestLength
        exact hpre.eq_of_length hlength
      · rw [hbroken] at hwhole
        cases hwhole

theorem broken_client_goes_on {call : Call} {r : Client × Bytes}
    {toClient : Pipeline.Channel Byte} (hcall : s.client.step call = some r)
    (htransport : brokenTransport s.toClient call = some toClient) :
    (brokenStep s (.client call)).isSome := by
  refine Option.isSome_iff_exists.mpr ⟨_, Option.bind_eq_some_iff.mpr
    ⟨r, hcall, Option.map_eq_some_iff.mpr ⟨toClient, htransport, rfl⟩⟩⟩

theorem broken_server_goes_on {call : Call} {r : CSession × Bytes}
    {toServer : Pipeline.Channel Byte} (hcall : s.server.step call = some r)
    (htransport : brokenTransport s.toServer call = some toServer) :
    (brokenStep s (.server call)).isSome := by
  refine Option.isSome_iff_exists.mpr ⟨_, Option.bind_eq_some_iff.mpr
    ⟨r, hcall, Option.map_eq_some_iff.mpr ⟨toServer, htransport, rfl⟩⟩⟩

/-- A program that waits on a broken connection gets an error. -/
theorem broken_finished_or_goes_on (hclient : s.client.Kept line s.toClient.arrived)
    (hserver : s.server.Sound) : Finished s ∨ ∃ e, (brokenStep s e).isSome := by
  cases hstage : s.client.stage with
  | writing =>
      by_cases hall : s.client.sent = s.client.requestLength
      · have hcall : s.client.step .returns = some ({ s.client with stage := .reading }, []) := by
          simp only [Client.step, hstage, if_pos hall]
        exact .inr ⟨_, broken_client_goes_on hcall rfl⟩
      · have hle := hclient.sent_le
        have hguard : s.client.stage = .writing ∧ s.client.sent < s.client.requestLength :=
          ⟨hstage, by omega⟩
        have hcall : s.client.step .writeFails = some _ := if_pos hguard
        exact .inr ⟨_, broken_client_goes_on hcall rfl⟩
  | reading =>
      by_cases hall : s.client.reply.length = s.client.requestLength
      · have hcall : s.client.step .returns = some ({ s.client with stage := .replied }, []) := by
          simp only [Client.step, hstage, if_pos hall]
        exact .inr ⟨_, broken_client_goes_on hcall rfl⟩
      · have hle := ((List.prefix_append _ _).trans hclient.isPrefix).length_le
        have hguard : s.client.stage = .reading
            ∧ s.client.reply.length < s.client.requestLength :=
          ⟨hstage, by have := hclient.requestLength; omega⟩
        have hcall : s.client.step (.read .error) = some _ := if_pos hguard
        exact .inr ⟨_, broken_client_goes_on hcall rfl⟩
  | replied =>
      have hcall : s.client.step .returns = some ({ s.client with stage := .exited }, []) := by
        simp only [Client.step, hstage]
      exact .inr ⟨_, broken_client_goes_on hcall rfl⟩
  | exited =>
      cases hposition : s.server.position with
      | ended => exact .inl ⟨hstage, hposition⟩
      | reading =>
          have hcall : s.server.step (.read .error) = some _ := if_pos hposition
          exact .inr ⟨_, broken_server_goes_on hcall rfl⟩
      | writing length done =>
          have hdone := (hserver.position length done hposition).1
          by_cases hall : done = length
          · have hcall : s.server.step .returns = some (.enter, []) := by
              simp only [CSession.step, hposition, if_pos hall]
            exact .inr ⟨_, broken_server_goes_on hcall rfl⟩
          · have hcall : s.server.step .writeFails
                = some ({ s.server with position := .ended }, []) := by
              simp only [CSession.step, hposition, if_pos (show done < length by omega)]
            exact .inr ⟨_, broken_server_goes_on hcall rfl⟩

/-- No program waits for ever: where both have not ended, one of them or TCP goes on. -/
theorem Link.Sound.goes_on (h : l.Sound line) :
    Finished l.system ∨ ∃ e, (l.step (.goes e)).isSome := by
  obtain ⟨s, broken⟩ := l
  cases h with
  | whole hwhole hsound hrow =>
      obtain rfl : broken = false := hwhole
      refine (finished_or_goes_on hsound hrow).imp_right ?_
      rintro ⟨e, t, ht⟩
      exact ⟨e, Option.isSome_iff_exists.mpr ⟨_, Option.map_eq_some_iff.mpr ⟨t, ht, rfl⟩⟩⟩
  | broken hbroken hclient hserver =>
      obtain rfl : broken = true := hbroken
      refine (broken_finished_or_goes_on hclient hserver).imp_right ?_
      rintro ⟨e, hgo⟩
      obtain ⟨t, ht⟩ := Option.isSome_iff_exists.mp hgo
      exact ⟨e, Option.isSome_iff_exists.mpr ⟨_, Option.map_eq_some_iff.mpr ⟨t, ht, rfl⟩⟩⟩

theorem Link.sound_run (h : l.Sound line) {es : List LinkEvent}
    (hrun : Machine.exec Link.step l es = some m) :
    m.Sound line ∧ es.length + m.work ≤ l.work :=
  ⟨(Machine.throughout_of_step (fun hI ht => (Link.sound_step hI ht).1) h es).last hrun,
    Machine.exec_length_le Link.work (fun hI ht => Link.sound_step hI ht) h hrun⟩

/-- What is true of a client and its server at the end of every run over `es`, if the line
`typed` was sent. -/
structure Link.Serves (line : Bytes) (es : List LinkEvent) (l : Link) : Prop where
  safe : l.system.client.Safe (typed line) l.broken
  ends : es.length ≤ 12 * (typed line).length + 5
  goes_on : Finished l.system ∨ ∃ e, (l.step (.goes e)).isSome

/-- Whatever line is typed and whenever the connection breaks, the client prints nothing
but its request, and neither program is kept waiting. -/
theorem Link.serves_of_start {memory : Bytes} (hstart : System.start memory line = .ok s)
    {es : List LinkEvent} (hrun : Machine.exec Link.step { system := s } es = some l) :
    l.Serves line es := by
  obtain ⟨s', hstart', hsound, hrow, hrank⟩ := start_typed memory line
  obtain rfl : s' = s := Except.ok.inj (hstart'.symm.trans hstart)
  have hflatten : s'.row.flatten = typed line := by
    rw [hrow]
    exact List.append_nil _
  obtain ⟨hl, hle⟩ := Link.sound_run (Link.Sound.whole rfl hsound hflatten) hrun
  have hwork : Link.work { system := s' } = 12 * (typed line).length + 5 := by
    rw [Link.work, System.work, hrow, hrank]
    simp only [Pipeline.weight, List.flatten_cons, List.flatten_nil, List.nil_append,
      List.append_nil, List.length_nil]
    split
    · contradiction
    · omega
  exact ⟨hl.safe, by omega, hl.goes_on⟩

end Runs

end CppNet.Sync
