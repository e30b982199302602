import CppNet.Lib.Connected
import CppNet.SessionApi.Session

/-!
# Two sessions connected

A session at each end of a TCP connection, used through the API: write calls go through
the queue, reads into the node. What one of them receives is a prefix of the strings the
other was given, in call order, and it is in the node; and as long as no write fails and
less than 1024 bytes have come back, the other has all of it once the connection is at
rest, and until then something can go on (`peers_exchange`).

The condition is one on the session that writes: its own receive, when it ends, resets
`send_pending_`, and from then on two writes may be under way at once.
-/

namespace CppNet.SessionApi

/-! ## The session as a party -/

theorem writeQueued_wire (s : CSession) (buf : Bytes) :
    (CSession.writeQueued CSession.asyncWriteSome s buf).wire = s.wire := by
  unfold CSession.writeQueued
  split
  · rfl
  · dsimp only
    split <;> rfl

theorem writeToSocketErr_wire (s : CSession) (buf : Bytes) :
    (s.writeToSocketErr buf).wire = s.wire := by
  unfold CSession.writeToSocketErr
  split <;> rfl

theorem step_wire {s t : CSession} {e : Event} (hstep : step s e = some t) :
    s.wire <+: t.wire := by
  have hsame : t.wire = s.wire → s.wire <+: t.wire := fun h => h ▸ List.prefix_refl _
  cases hread : e.isRead with
  | true => exact hsame (writes_of_read hread hstep).2.2
  | false =>
      rcases step_cases hstep with ⟨buf, -, ht⟩ | ⟨buf, -, ht⟩ | ⟨memory, rfl | rfl, -⟩
        | ⟨i, ec, n, rfl, hdone⟩ | ⟨i, ec, bytes, rfl, -⟩
      · exact hsame (ht ▸ writeToSocketErr_wire s buf)
      · exact hsame (ht ▸ writeQueued_wire s buf)
      · cases hread
      · cases hread
      · obtain ⟨op, -, -, rfl⟩ := CSession.writeDone_cases hdone
        obtain ⟨queue, pending, writes, broken, hcall⟩ := CSession.call_frame
          { s with writes := s.writes.eraseIdx i, wire := s.wire ++ op.bytes.take n } ec n
          op.callback
        rw [hcall]
        exact List.prefix_append _ _
      · cases hread

/-- The bytes a read takes from the socket. -/
def Event.takes : Event → Bytes
  | .readDone _ _ bytes => bytes
  | _ => []

theorem step_received {s t : CSession} {e : Event} (hstep : step s e = some t) :
    t.received = s.received ++ e.takes := by
  rcases step_cases hstep with ⟨buf, rfl, ht⟩ | ⟨buf, hbuf, ht⟩ | ⟨memory, hmemory, ht⟩
    | ⟨i, ec, n, rfl, hdone⟩ | ⟨i, ec, bytes, rfl, hdone⟩
  · rw [ht, (CSession.readSide_eq (writeToSocketErr_readSide s buf)).2.2.2]
    exact (List.append_nil _).symm
  · rw [ht, (CSession.readSide_eq (writeQueued_readSide s buf)).2.2.2]
    rcases hbuf with rfl | rfl <;> exact (List.append_nil _).symm
  · have hsame : (s.readInto memory).received = s.received := by
      unfold CSession.readInto
      split <;> rfl
    rw [ht, hsame]
    rcases hmemory with rfl | rfl <;> exact (List.append_nil _).symm
  · rw [(CSession.readSide_eq (writeDone_readSide hdone)).2.2.2]
    exact (List.append_nil _).symm
  · obtain ⟨op, node, -, -, -, rfl⟩ := CSession.readDone_cases hdone
    simp only [CSession.readCallBack, Event.takes]
    split <;> rfl

def party : Connected.Party CSession Event Byte where
  step := step
  sent := CSession.wire
  received := CSession.received
  takes := Event.takes
  sent_step := step_wire
  received_step := step_received

/-! ## What can go on -/

/-- An operation completes without an error. -/
def Event.Completes : Event → Prop
  | .writeDone _ ec _ | .readDone _ ec _ => ec = 0
  | _ => False

/-- A write that is outstanding can complete. -/
theorem Models.goes_on {mayFail : Prop} {s t : CSession} {o : Outbox Byte}
    (h : Models mayFail t o) (hok : ¬ mayFail) (hside : s.writeSide = t.writeSide)
    (hwrites : s.writes ≠ []) : ∃ e : Event, e.Completes ∧ e.takes = [] ∧ (step s e).isSome := by
  obtain ⟨-, hsame, -, -, hbroken⟩ := CSession.writeSide_eq hside
  cases h.phase with
  | idle hqueue hpending hnone => exact absurd (hsame.trans hnone) hwrites
  | stopped hfail hpending hnone => exact (hok hfail).elim
  | busy front rest op hqueue hpending hbusy hcallback hbytes =>
      refine ⟨.writeDone 0 0 op.bytes.length, rfl, rfl, ?_⟩
      have hreport : Reportable 0 op.bytes.length op.bytes.length := ⟨Nat.le_refl _, id⟩
      rw [step, hbroken, h.carries.sound]
      simp only [Bool.false_eq_true, if_false, CSession.writeDone, hsame, hbusy,
        List.getElem?_cons_zero, if_pos hreport, Option.isSome_some]

theorem Receiving.length_lt {s : CSession} (h : Receiving s) (hreads : s.reads ≠ []) :
    s.received.length < 1024 := by
  cases h with
  | idle hnode hpending hnone hreceived => exact absurd hnone hreads
  | full node hnode hpending hholds hfull hnone => exact absurd hnone hreads
  | reading node hnode hpending hholds hlt hone => exact hlt

/-- A read that is outstanding can complete with the next byte. -/
theorem Receiving.goes_on {s : CSession} (h : Receiving s) (hsound : s.broken = false)
    (hreads : s.reads ≠ []) (ch : Byte) : (step s (.readDone 0 0 [ch])).isSome := by
  cases h with
  | idle hnode hpending hnone hreceived => exact absurd hnone hreads
  | full node hnode hpending hholds hfull hnone => exact absurd hnone hreads
  | reading node hnode hpending hholds hlt hone =>
      have hreport : Reportable 0 (1024 - s.received.length) [ch].length := by
        refine ⟨?_, fun hzero => by cases hzero⟩
        simp only [List.length_singleton]
        omega
      rw [step, hsound]
      simp only [Bool.false_eq_true, if_false, CSession.readDone, hone, hnode,
        List.getElem?_cons_zero, if_pos hreport, Option.isSome_some]

/-! ## Exchange -/

section Exchange

open Connected (Side)

/-- What the session across from `x` has of the `strings` that `x` was given. -/
structure Exchanged (mayFail : Prop) (strings : List Bytes)
    (s : Connected.State CSession Byte) (x : Side) : Prop where
  isPrefix : (s.party x.other).received <+: strings.flatten
  inNode : ∀ node ∈ (s.party x.other).recvNode,
    node.msg.take (toSize node.curLen) = (s.party x.other).received
  complete : ¬ mayFail → (s.party x).writes = [] → (s.channel x).IsEmpty →
    (s.party x.other).received = strings.flatten
  goes_on : ¬ mayFail → (s.party x.other).reads ≠ [] →
    (s.party x.other).received = strings.flatten
      ∨ ∃ e, (Connected.step party s e).isSome ∧ ∀ y own, e = .does y own → own.Completes

variable {es : List (Connected.Event Event)} {s : Connected.State CSession Byte}

theorem mem_own {x : Side} {own : Event} (h : own ∈ es.filterMap (Connected.eventOf x)) :
    .does x own ∈ es := by
  obtain ⟨e, hmem, he⟩ := List.mem_filterMap.mp h
  cases e with
  | delivers y count => cases he
  | does y e =>
      simp only [Connected.eventOf] at he
      split at he
      · rename_i hy
        cases he
        exact hy ▸ hmem
      · cases he

/-- Two connected sessions that are written to through the queue: what comes out at one end
are the strings that went in at the other. -/
theorem peers_exchange
    (huse : ∀ x own, .does x own ∈ es → (own.IsQueuedWrite ∨ own.isRead = true) ∧ own.Fits)
    (hrun : Machine.exec (Connected.step party) (.init {}) es = some s) {x : Side}
    (hshort : (s.party x).received.length < 1024) :
    Exchanged (∃ own, .does x own ∈ es ∧ own.isRead = false ∧ own.Fails)
      (calls (es.filterMap (Connected.eventOf x))) s x := by
  have hconserved : Connected.Conserved party s := Connected.conserved_run (fun _ => rfl) hrun
  have hown : ∀ y, Machine.exec step {} (es.filterMap (Connected.eventOf y))
      = some (s.party y) := fun y => Connected.exec_party y hrun
  have hreceiving : ∀ y, Receiving (s.party y) := fun y =>
    (Machine.throughout_of_step receiving_step receiving_init _).last (hown y)
  have hmodels : ∀ y, (s.party y).received.length < 1024 → ∃ t o,
      Models (∃ own ∈ es.filterMap (Connected.eventOf y), own.isRead = false ∧ own.Fails) t o
        ∧ o.accepted = calls (es.filterMap (Connected.eventOf y))
        ∧ (s.party y).writeSide = t.writeSide := fun y hy =>
    writes_models (fun own he => (huse y own (mem_own he)).1)
      (fun own he => (huse y own (mem_own he)).2) (hown y) hy
  obtain ⟨t, o, hmodel, haccepted, hside⟩ := hmodels x hshort
  have hfails : (∃ own ∈ es.filterMap (Connected.eventOf x), own.isRead = false ∧ own.Fails) →
      ∃ own, .does x own ∈ es ∧ own.isRead = false ∧ own.Fails :=
    fun ⟨own, hmem, hfail⟩ => ⟨own, mem_own hmem, hfail⟩
  have hwrote := hmodel.wrote.of_writeSide hside
  rw [haccepted] at hwrote
  have hcomplete : ¬ (∃ own, .does x own ∈ es ∧ own.isRead = false ∧ own.Fails) →
      (s.party x).writes = [] → (s.channel x).IsEmpty →
      (s.party x.other).received = (calls (es.filterMap (Connected.eventOf x))).flatten := by
    intro hok hwrites hempty
    rw [← (hwrote.complete (fun h => hok (hfails h)) hwrites).1]
    exact hconserved.received_eq hempty
  refine ⟨(hconserved.received_prefix x).trans hwrote.isPrefix, ?_, hcomplete, ?_⟩
  · intro node hnode
    exact ((hreceiving x.other).assembles node hnode).contents
  · intro hok hreads
    by_cases hempty : (s.channel x).IsEmpty
    · by_cases hwrites : (s.party x).writes = []
      · exact .inl (hcomplete hok hwrites hempty)
      · obtain ⟨own, hcompletes, htakes, hgo⟩ :=
          hmodel.goes_on (fun h => hok (hfails h)) hside hwrites
        have hnothing : (s.channel x.other).arrived
            = party.takes own ++ (s.channel x.other).arrived := by
          rw [show party.takes own = [] from htakes]
          rfl
        refine .inr ⟨.does x own, Connected.does_isSome hgo hnothing, ?_⟩
        rintro y own' ⟨⟩
        exact hcompletes
    · cases harrived : (s.channel x).arrived with
      | nil =>
          refine .inr ⟨.delivers x 1, Connected.delivers_isSome ?_, ?_⟩
          · exact fun hflight => hempty ⟨hflight, harrived⟩
          · rintro y own' ⟨⟩
      | cons ch rest =>
          -- the reader still waits for bytes, so its own writer is sound
          obtain ⟨t', o', hmodel', -, hside'⟩ :=
            hmodels x.other ((hreceiving x.other).length_lt hreads)
          have hsound : (s.party x.other).broken = false :=
            (CSession.writeSide_eq hside').2.2.2.2.trans hmodel'.carries.sound
          have hnext : (s.channel x.other.other).arrived
              = party.takes (.readDone 0 0 [ch]) ++ rest := by
            rw [Side.other_other, harrived]
            rfl
          refine .inr ⟨.does x.other (.readDone 0 0 [ch]), Connected.does_isSome
            ((hreceiving x.other).goes_on hsound hreads ch) hnext, ?_⟩
          rintro y own' ⟨⟩
          rfl

set_option maxRecDepth 16000 in
/-- `"Hi"` from the left to the right, in one write and two segments. -/
theorem peers_exchange_hi :
    ∃ s : Connected.State CSession Byte, Machine.exec (Connected.step party) (.init {})
        [.does .right (.readFromSocket (List.replicate 1024 0)),
          .does .left (.writeToSocket [72, 105]), .does .left (.writeDone 0 0 2),
          .delivers .left 1, .delivers .left 1, .does .right (.readDone 0 0 [72, 105])] = some s
      ∧ (s.party .right).received = [72, 105] := by
  obtain ⟨s, hrun, hwrites, hempty, hshort⟩ : ∃ s : Connected.State CSession Byte,
      Machine.exec (Connected.step party) (.init {})
        [.does .right (.readFromSocket (List.replicate 1024 0)),
          .does .left (.writeToSocket [72, 105]), .does .left (.writeDone 0 0 2),
          .delivers .left 1, .delivers .left 1, .does .right (.readDone 0 0 [72, 105])] = some s
      ∧ (s.party .left).writes = [] ∧ (s.channel .left).IsEmpty
      ∧ (s.party .left).received.length < 1024 :=
    ⟨_, rfl, rfl, ⟨rfl, rfl⟩, (by decide : 0 < 1024)⟩
  refine ⟨s, hrun, (peers_exchange ?_ hrun hshort).complete ?_ hwrites hempty⟩
  · intro x own hmem
    simp only [List.mem_cons, Connected.Event.does.injEq, reduceCtorEq, List.not_mem_nil,
      false_or, or_false] at hmem
    rcases hmem with ⟨rfl, rfl⟩ | ⟨rfl, rfl⟩ | ⟨rfl, rfl⟩ | ⟨rfl, rfl⟩ <;>
      simp [Event.IsQueuedWrite, Event.isRead, Event.Fits]
  · simp [Event.isRead, Event.Fails]

end Exchange

end CppNet.SessionApi
