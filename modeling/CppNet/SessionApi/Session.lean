import CppNet.SessionApi.Receive
import CppNet.SessionApi.Writer

/-!
# A session in both directions

A session is made for one receive: nothing clears `recv_pending_`, so the node that the
first read call allocates is the only one, and with its 1024 bytes the receive is over
(`received_at_most`). Its last callback is also the one step that reaches over to the
writer. Up to it the two directions do not disturb each other: however reads and queued
writes take turns, the strings go out in call order and the bytes received are in the node
(`both_directions`).
-/

namespace CppNet.SessionApi

/-! ## The one receive -/

/-- The node is full. -/
structure Full (s : CSession) : Prop where
  receiving : Receiving s
  length : s.received.length = 1024

theorem Receiving.length_le {s : CSession} (h : Receiving s) : s.received.length ≤ 1024 := by
  cases h with
  | idle hnode hpending hreads hreceived => simp [hreceived]
  | reading node hnode hpending hholds hlt hreads => exact Nat.le_of_lt hlt
  | full node hnode hpending hholds hfull hreads => exact Nat.le_of_eq hfull

theorem Full.ended {s : CSession} (h : Full s) : s.recvPending = true ∧ s.reads = [] := by
  cases h.receiving with
  | idle hnode hpending hreads hreceived =>
      have hlength := h.length
      rw [hreceived] at hlength
      cases hlength
  | reading node hnode hpending hholds hlt hreads => exact absurd h.length (Nat.ne_of_lt hlt)
  | full node hnode hpending hholds hfull hreads => exact ⟨hpending, hreads⟩

/-- Behind the receive, a read call returns at once and nothing is left to complete. -/
theorem Full.read_step {s t : CSession} (h : Full s) {e : Event} (hread : e.isRead = true)
    (hstep : step s e = some t) : t = s := by
  obtain ⟨hpending, hreads⟩ := h.ended
  rcases step_cases hstep with ⟨buf, rfl, -⟩ | ⟨buf, rfl | rfl, -⟩ | ⟨memory, -, rfl⟩
    | ⟨i, ec, n, rfl, -⟩ | ⟨i, ec, bytes, rfl, hdone⟩
  · cases hread
  · cases hread
  · cases hread
  · rw [CSession.readInto, if_pos hpending]
  · cases hread
  · obtain ⟨op, node, hop, -⟩ := CSession.readDone_cases hdone
    rw [hreads] at hop
    cases hop

theorem full_step {s t : CSession} {e : Event} (h : Full s) (hstep : step s e = some t) :
    Full t := by
  refine ⟨receiving_step h.receiving hstep, ?_⟩
  cases hread : e.isRead with
  | true =>
      rw [h.read_step hread hstep]
      exact h.length
  | false =>
      obtain ⟨-, -, -, hreceived⟩ := CSession.readSide_eq (framed_write hread hstep)
      rw [hreceived]
      exact h.length

/-- A session receives 1024 bytes at most, and then no read call and no completion of a read
has any effect. -/
theorem received_at_most (es : List Event) :
    Machine.Throughout step (fun s => s.received.length ≤ 1024
      ∧ (s.received.length = 1024 →
        ∀ e : Event, e.isRead = true → ∀ t ∈ step s e, t = s)) {} es := by
  refine (Machine.throughout_of_step receiving_step receiving_init es).mono fun s h => ?_
  refine ⟨h.length_le, ?_⟩
  intro hlength e hread t hstep
  exact Full.read_step ⟨h, hlength⟩ hread hstep

/-! ## Both directions -/

/-- The callback that resets `send_pending_` is the last one of the receive. -/
theorem full_of_resets {s t : CSession} {e : Event} (h : Receiving s) (hreset : ResetsWriter s e)
    (hstep : step s e = some t) : Full t := by
  refine ⟨receiving_step h hstep, ?_⟩
  rcases step_cases hstep with ⟨buf, rfl, -⟩ | ⟨buf, rfl | rfl, -⟩ | ⟨memory, rfl | rfl, -⟩
    | ⟨i, ec, n, rfl, -⟩ | ⟨i, ec, bytes, rfl, hdone⟩
  · cases hreset
  · cases hreset
  · cases hreset
  · cases hreset
  · cases hreset
  · cases hreset
  · have hreceiving := receiving_step h hstep
    obtain ⟨op, node, -, hnode, -, rfl⟩ := CSession.readDone_cases hdone
    have hmore := hreset.2 node hnode
    cases hreceiving with
    | idle hnone hpending hreads hreceived =>
        simp only [CSession.readCallBack] at hnone
        split at hnone <;> cases hnone
    | full node' hnode' hpending hholds hfull hreads => exact hfull
    | reading node' hnode' hpending hholds hlt hreads =>
        have hcur := hholds.curLen
        have hadvanced : node'.curLen = (node.advance bytes.length).curLen := by
          simp only [CSession.readCallBack] at hnode'
          split at hnode' <;> cases hnode' <;> rfl
        have htotal : node'.totalLen = node.totalLen := by
          simp only [CSession.readCallBack] at hnode'
          split at hnode' <;> cases hnode' <;> rfl
        rw [← hadvanced, ← htotal, hholds.totalLen, hcur] at hmore
        simp only [kRecvSize] at hmore
        omega

/-- In a run that has not received 1024 bytes no callback has reset `send_pending_`. -/
theorem not_resets {es : List Event} {s : CSession} (hrun : Machine.exec step {} es = some s)
    (hshort : s.received.length < 1024) :
    Machine.Along step (fun s e => ¬ ResetsWriter s e) {} es := by
  have hlast := Machine.along_or_last (D := fun _ => True) (C := fun s e => ¬ ResetsWriter s e)
    (fun _ h _ hstep => receiving_step h hstep)
    (fun _ h hreset hstep => full_of_resets h (Classical.not_not.mp hreset) hstep)
    (fun _ h hstep => full_step h hstep) (fun _ _ => trivial) receiving_init hrun
  refine hlast.resolve_right ?_
  intro hfull
  exact absurd hfull.length (Nat.ne_of_lt hshort)

theorem calls_without_reads (es : List Event) :
    calls (es.filter fun e => !e.isRead) = calls es := by
  induction es with
  | nil => rfl
  | cons e es ih =>
      rw [List.filter_cons, calls_cons e es, ← ih]
      cases e <;> rfl

theorem CSession.writeSide_eq {s t : CSession} (h : s.writeSide = t.writeSide) :
    s.wire = t.wire ∧ s.writes = t.writes ∧ s.sendQueue = t.sendQueue
      ∧ s.sendPending = t.sendPending ∧ s.broken = t.broken :=
  ⟨show s.writeSide.wire = t.writeSide.wire by rw [h],
    show s.writeSide.writes = t.writeSide.writes by rw [h],
    show s.writeSide.sendQueue = t.writeSide.sendQueue by rw [h],
    show s.writeSide.sendPending = t.writeSide.sendPending by rw [h],
    show s.writeSide.broken = t.writeSide.broken by rw [h]⟩

theorem Wrote.of_writeSide {mayFail : Prop} {strings : List Bytes} {s t : CSession}
    (h : Wrote mayFail strings t) (hside : s.writeSide = t.writeSide) :
    Wrote mayFail strings s := by
  obtain ⟨hwire, hwrites, hqueue, hpending, -⟩ := CSession.writeSide_eq hside
  refine ⟨hwire ▸ h.isPrefix, ?_⟩
  intro hok hnone
  rw [hwire, hqueue, hpending]
  exact h.complete hok (hwrites ▸ hnone)

/-- A run of reads and queued writes that has received less than 1024 bytes leaves on the
write side what the writes alone leave. -/
theorem writes_models {es : List Event} {s : CSession}
    (huse : ∀ e ∈ es, e.IsQueuedWrite ∨ e.isRead = true) (hfits : ∀ e ∈ es, e.Fits)
    (hrun : Machine.exec step {} es = some s) (hshort : s.received.length < 1024) :
    ∃ t o, Models (∃ e ∈ es, e.isRead = false ∧ e.Fails) t o ∧ o.accepted = calls es
      ∧ s.writeSide = t.writeSide := by
  have hframed : Machine.Along step Framed {} es :=
    (Machine.along_congr framed_iff).mpr (not_resets hrun hshort)
  obtain ⟨t, hwrites, hside⟩ := exec_without_reads hframed hrun
  have hevents : ∀ e ∈ es.filter fun e => !e.isRead, e.IsQueuedWrite ∧ e.Fits
      ∧ (e.Fails → ∃ e ∈ es, e.isRead = false ∧ e.Fails) := by
    intro e he
    obtain ⟨hmem, hnot⟩ := List.mem_filter.mp he
    have hnoread : e.isRead = false := by simpa using hnot
    refine ⟨(huse e hmem).resolve_right (by simp [hnoread]), hfits e hmem, ?_⟩
    exact fun hfails => ⟨e, hmem, hnoread, hfails⟩
  obtain ⟨o, hmodels, haccepted⟩ := queued_models _ hevents hwrites
  rw [calls_without_reads] at haccepted
  exact ⟨t, o, hmodels, haccepted, hside⟩

/-- In a run of reads and queued writes that has received less than 1024 bytes, the strings
are out in call order, entirely if no write has failed and none is outstanding, and the node
holds the bytes received. -/
theorem both_directions {es : List Event} {s : CSession}
    (huse : ∀ e ∈ es, e.IsQueuedWrite ∨ e.isRead = true) (hfits : ∀ e ∈ es, e.Fits)
    (hrun : Machine.exec step {} es = some s) (hshort : s.received.length < 1024) :
    Wrote (∃ e ∈ es, e.isRead = false ∧ e.Fails) (calls es) s
      ∧ ∀ node ∈ s.recvNode, node.msg.take s.received.length = s.received
        ∧ node.curLen = s.received.length := by
  refine ⟨?_, ?_⟩
  · obtain ⟨t, o, hmodels, haccepted, hside⟩ := writes_models huse hfits hrun hshort
    exact haccepted ▸ hmodels.wrote.of_writeSide hside
  · intro node hnode
    have hreceiving := (Machine.throughout_of_step receiving_step receiving_init es).last hrun
    cases hreceiving with
    | idle hnone hpending hreads hreceived =>
        rw [hnone] at hnode
        cases hnode
    | reading node' hnode' hpending hholds hlt hreads =>
        obtain rfl : node' = node := Option.some.inj (hnode'.symm.trans hnode)
        exact ⟨hholds.contents, hholds.curLen⟩
    | full node' hnode' hpending hholds hfull hreads =>
        exact absurd hfull (Nat.ne_of_lt hshort)

set_option maxRecDepth 16000 in
/-- `"Hi"` in two pieces, and a reply that arrives between them. -/
theorem both_directions_reply :
    ∃ s, Machine.exec step {} [.writeToSocket [72, 105], .readFromSocket (List.replicate 1024 0),
        .writeDone 0 0 1, .readDone 0 0 [79, 75], .writeDone 0 0 1] = some s
      ∧ s.wire = [72, 105] ∧ ∀ node ∈ s.recvNode, node.msg.take s.received.length = [79, 75] := by
  obtain ⟨s, hrun, hwrites, hreceived⟩ : ∃ s, Machine.exec step {} [.writeToSocket [72, 105],
        .readFromSocket (List.replicate 1024 0), .writeDone 0 0 1, .readDone 0 0 [79, 75],
        .writeDone 0 0 1] = some s ∧ s.writes = [] ∧ s.received = [79, 75] :=
    ⟨_, rfl, rfl, rfl⟩
  obtain ⟨hwrote, hnode⟩ := both_directions (by simp [Event.IsQueuedWrite, Event.isRead])
    (by simp [Event.Fits]) hrun (by simp [hreceived])
  refine ⟨s, hrun, (hwrote.complete (by simp [Event.isRead, Event.Fails]) hwrites).1, ?_⟩
  intro node hmem
  rw [← hreceived]
  exact (hnode node hmem).1

end CppNet.SessionApi
