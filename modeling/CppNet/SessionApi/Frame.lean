import CppNet.SessionApi.Model

/-!
# The two directions of a session

Write calls and their completions own the send members of a session, read calls
and theirs the receive members. The only step that crosses over is the end of
`ReadCallBack`: it resets `send_pending_`, where the comment in
`ReadFromSocket` announces that `recv_pending_` is.

A run keeps the directions apart (`Independent`) when every step leaves the
other side alone and the run without its read events writes the same. The
step lemmas `framed_read` and `framed_write` say which steps are local, and
`independent_iff` carries that to runs: the directions are apart exactly when
no receive is completed while a write is pending.
-/

namespace CppNet.SessionApi

/-- A read call or a read completion. -/
def Event.isRead : Event → Bool
  | .readFromSocket _ | .readAllFromSocket _ | .readDone .. => true
  | _ => false

namespace CSession

/-- What write calls and `WriteCallBack` work on: the session without its
receive members. -/
def writeSide (s : CSession) : CSession :=
  { s with recvNode := none, recvPending := false, reads := [], received := [] }

/-- What read calls and `ReadCallBack` work on. -/
def readSide (s : CSession) : CSession :=
  { recvNode := s.recvNode, recvPending := s.recvPending, reads := s.reads,
    received := s.received }

theorem readSide_eq {s t : CSession} (h : t.readSide = s.readSide) :
    t.recvNode = s.recvNode ∧ t.recvPending = s.recvPending ∧ t.reads = s.reads
      ∧ t.received = s.received := by
  simpa [readSide] using h

end CSession

/-- The step leaves the members of the other side alone. -/
def Framed (s : CSession) (e : Event) : Prop :=
  ∀ t ∈ step s e, if e.isRead then t.writeSide = s.writeSide else t.readSide = s.readSide

instance : ∀ s e, Decidable (Framed s e) := fun s e =>
  inferInstanceAs (Decidable (∀ t ∈ step s e, _))

/-- Neither direction touches the other, and deleting the read events from the
run leaves the write side, and so the bytes written, as it is. -/
def Independent (s : CSession) (es : List Event) : Prop :=
  Machine.Along step Framed s es ∧
    ∀ t, Machine.exec step s es = some t →
      ∃ t', Machine.exec step s (es.filter fun e => !e.isRead) = some t' ∧
        t'.writeSide = t.writeSide

/-- A read completion that fills `recv_node_` while a write is pending. -/
def ResetsWriter (s : CSession) : Event → Prop
  | .readDone _ _ bytes =>
      s.sendPending = true ∧
        ∀ node ∈ s.recvNode, ¬ (node.advance bytes.length).curLen < node.totalLen
  | _ => False

instance : ∀ s e, Decidable (ResetsWriter s e)
  | s, .readDone _ _ bytes =>
      inferInstanceAs (Decidable (s.sendPending = true ∧
        ∀ node ∈ s.recvNode, ¬ (node.advance bytes.length).curLen < node.totalLen))
  | _, .writeToSocketErr _ | _, .writeToSocket _ | _, .writeAllToSocket _
  | _, .readFromSocket _ | _, .readAllFromSocket _ | _, .writeDone .. =>
      inferInstanceAs (Decidable False)

/-! ## Read steps -/

theorem readInto_writeSide (s : CSession) (memory : Bytes) :
    (s.readInto memory).writeSide = s.writeSide := by
  unfold CSession.readInto
  split <;> rfl

/-- A read completion leaves the write side alone, or ends the receive and resets
`send_pending_`. -/
theorem readDone_writeSide {s t : CSession} {i : Nat} {ec : Int} {bytes : Bytes}
    (h : s.readDone i ec bytes = some t) :
    t.writeSide = s.writeSide ↔ ¬ ResetsWriter s (.readDone i ec bytes) := by
  obtain ⟨op, node, -, hnode, -, rfl⟩ := CSession.readDone_cases h
  simp only [CSession.readCallBack, ResetsWriter, hnode, Option.mem_some_iff, forall_eq']
  by_cases hmore : (node.advance bytes.length).curLen < node.totalLen
  · have hfill : ((node.fill op.offset bytes).advance bytes.length).curLen
        < ((node.fill op.offset bytes).advance bytes.length).totalLen := hmore
    rw [if_pos hfill]
    exact ⟨fun _ h => h.2 hmore, fun _ => rfl⟩
  · have hfill : ¬ ((node.fill op.offset bytes).advance bytes.length).curLen
        < ((node.fill op.offset bytes).advance bytes.length).totalLen := hmore
    rw [if_neg hfill]
    constructor
    · rintro hside ⟨hpending, -⟩
      have hreset : false = s.sendPending := congrArg CSession.sendPending hside
      rw [hpending] at hreset
      cases hreset
    · intro h
      have hpending : s.sendPending = false := by
        cases hp : s.sendPending with
        | false => rfl
        | true => exact (h ⟨hp, hmore⟩).elim
      simp only [CSession.writeSide, hpending]

theorem framed_read {s t : CSession} {e : Event} (hread : e.isRead = true)
    (hstep : step s e = some t) : t.writeSide = s.writeSide ↔ ¬ ResetsWriter s e := by
  rcases step_cases hstep with ⟨buf, rfl, -⟩ | ⟨buf, rfl | rfl, -⟩ | ⟨memory, rfl | rfl, rfl⟩
    | ⟨i, ec, n, rfl, -⟩ | ⟨i, ec, bytes, rfl, hdone⟩
  · cases hread
  · cases hread
  · cases hread
  · exact ⟨fun _ h => h, fun _ => readInto_writeSide s memory⟩
  · exact ⟨fun _ h => h, fun _ => readInto_writeSide s memory⟩
  · cases hread
  · exact readDone_writeSide hdone

/-- A read step starts no write, completes none, and leaves `send_node_` alone. -/
theorem writes_of_read {s t : CSession} {e : Event} (hread : e.isRead = true)
    (hstep : step s e = some t) :
    t.sendNode = s.sendNode ∧ t.writes = s.writes ∧ t.wire = s.wire := by
  rcases step_cases hstep with ⟨buf, rfl, -⟩ | ⟨buf, rfl | rfl, -⟩ | ⟨memory, rfl | rfl, rfl⟩
    | ⟨i, ec, n, rfl, -⟩ | ⟨i, ec, bytes, rfl, hdone⟩
  · cases hread
  · cases hread
  · cases hread
  · unfold CSession.readInto
    split <;> exact ⟨rfl, rfl, rfl⟩
  · unfold CSession.readInto
    split <;> exact ⟨rfl, rfl, rfl⟩
  · cases hread
  · obtain ⟨op, node, -, -, -, rfl⟩ := CSession.readDone_cases hdone
    simp only [CSession.readCallBack]
    split <;> exact ⟨rfl, rfl, rfl⟩

/-! ## Write steps -/

theorem writeQueued_readSide (s : CSession) (buf : Bytes) :
    (CSession.writeQueued CSession.asyncWriteSome s buf).readSide = s.readSide := by
  unfold CSession.writeQueued
  split
  · rfl
  · dsimp only
    split <;> rfl

theorem writeToSocketErr_readSide (s : CSession) (buf : Bytes) :
    (s.writeToSocketErr buf).readSide = s.readSide := by
  unfold CSession.writeToSocketErr
  split <;> rfl

theorem writeDone_readSide {s t : CSession} {i : Nat} {ec : Int} {n : Nat}
    (h : s.writeDone i ec n = some t) : t.readSide = s.readSide := by
  obtain ⟨op, -, -, rfl⟩ := CSession.writeDone_cases h
  obtain ⟨queue, pending, writes, broken, hcall⟩ := CSession.call_frame
    { s with writes := s.writes.eraseIdx i, wire := s.wire ++ op.bytes.take n }
    ec n op.callback
  rw [hcall]
  rfl

theorem framed_write {s t : CSession} {e : Event} (hwrite : e.isRead = false)
    (hstep : step s e = some t) : t.readSide = s.readSide := by
  rcases step_cases hstep with ⟨buf, rfl, ht⟩ | ⟨buf, rfl | rfl, ht⟩ | ⟨memory, rfl | rfl, -⟩
    | ⟨i, ec, n, rfl, hdone⟩ | ⟨i, ec, bytes, rfl, -⟩
  · rw [ht, writeToSocketErr_readSide]
  · rw [ht, writeQueued_readSide]
  · rw [ht, writeQueued_readSide]
  · cases hwrite
  · cases hwrite
  · exact writeDone_readSide hdone
  · cases hwrite

theorem framed_iff {s t : CSession} {e : Event} (hstep : step s e = some t) :
    Framed s e ↔ ¬ ResetsWriter s e := by
  unfold Framed
  rw [hstep]
  simp only [Option.mem_some_iff, forall_eq']
  cases hread : e.isRead with
  | true => exact framed_read hread hstep
  | false =>
      have hno : ¬ ResetsWriter s e := by
        cases e with
        | readDone i ec bytes => cases hread
        | _ => exact fun h => h
      exact ⟨fun _ => hno, fun _ => framed_write hread hstep⟩

/-! ## Write steps depend on the write side only -/

theorem writeQueued_of_writeSide (s : CSession) (buf : Bytes) :
    (CSession.writeQueued CSession.asyncWriteSome s buf).writeSide =
      CSession.writeQueued CSession.asyncWriteSome s.writeSide buf := by
  unfold CSession.writeQueued
  split
  · rfl
  · dsimp only [CSession.writeSide]
    split <;> rfl

theorem call_writeSide (s : CSession) (ec : Int) (n : Nat) (callback : Callback) :
    (s.call ec n callback).writeSide = s.writeSide.call ec n callback := by
  cases callback with
  | writeCallBack =>
      simp only [CSession.call, CSession.writeCallBack]
      split
      · rfl
      · cases hq : s.sendQueue with
        | nil => simp only [CSession.writeSide, hq]
        | cons front rest =>
            simp only [CSession.writeSide, hq]
            split
            · rfl
            · cases rest <;> rfl
  | writeCallBackErr =>
      simp only [CSession.call, CSession.writeCallBackErr]
      split
      · rfl
      · cases hnode : s.sendNode with
        | none => simp only [CSession.writeSide, hnode]
        | some node =>
            have hside : s.writeSide.sendNode = some node := hnode
            simp only [hside]
            split <;> rfl

theorem writeDone_writeSide (s : CSession) (i : Nat) (ec : Int) (n : Nat) :
    (s.writeDone i ec n).map CSession.writeSide = s.writeSide.writeDone i ec n := by
  simp only [CSession.writeDone]
  cases hop : s.writes[i]? with
  | none => simp only [CSession.writeSide, hop, Option.map_none]
  | some op =>
      simp only [show s.writeSide.writes[i]? = some op from hop]
      split
      · rw [Option.map_some, call_writeSide]
        rfl
      · rfl

theorem step_writeSide (s : CSession) {e : Event} (hwrite : e.isRead = false) :
    (step s e).map CSession.writeSide = step s.writeSide e := by
  unfold step
  rw [show s.writeSide.broken = s.broken from rfl]
  split
  · rfl
  cases e with
  | writeToSocketErr buf =>
      simp only [Option.map_some, CSession.writeToSocketErr]
      split <;> rfl
  | writeToSocket buf => exact congrArg some (writeQueued_of_writeSide s buf)
  | writeAllToSocket buf => exact congrArg some (writeQueued_of_writeSide s buf)
  | writeDone i ec n => exact writeDone_writeSide s i ec n
  | readFromSocket memory => cases hwrite
  | readAllFromSocket memory => cases hwrite
  | readDone i ec bytes => cases hwrite

theorem step_of_writeSide {s s' t : CSession} {e : Event} (hwrite : e.isRead = false)
    (hview : s.writeSide = s'.writeSide) (hstep : step s e = some t) :
    ∃ t', step s' e = some t' ∧ t.writeSide = t'.writeSide := by
  have hmap : (step s' e).map CSession.writeSide = some t.writeSide := by
    rw [step_writeSide s' hwrite, ← hview, ← step_writeSide s hwrite, hstep, Option.map_some]
  obtain ⟨t', ht', hside⟩ := Option.map_eq_some_iff.mp hmap
  exact ⟨t', ht', hside.symm⟩

/-! ## Runs -/

theorem exec_without_reads {s t : CSession} {es : List Event}
    (hframed : Machine.Along step Framed s es) (hrun : Machine.exec step s es = some t) :
    ∃ t', Machine.exec step s (es.filter fun e => !e.isRead) = some t' ∧
      t.writeSide = t'.writeSide := by
  refine Machine.exec_erase (C := Framed) ?_ ?_ hframed rfl hrun
  · intro s e t hC hread hstep
    have h := hC t hstep
    rw [if_pos (by simpa using hread)] at h
    exact h
  · intro s s' e t hwrite
    exact step_of_writeSide (by simpa using hwrite)

/-- The directions are apart exactly in the runs where no read completion fills
`recv_node_` while a write is pending. -/
theorem independent_iff (s : CSession) (es : List Event) :
    Independent s es ↔ Machine.Along step (fun s e => ¬ ResetsWriter s e) s es := by
  rw [← Machine.along_congr framed_iff]
  constructor
  · exact fun h => h.1
  · intro h
    refine ⟨h, fun t hrun => ?_⟩
    obtain ⟨t', ht', hside⟩ := exec_without_reads h hrun
    exact ⟨t', ht', hside.symm⟩

set_option maxRecDepth 16000 in
/-- A receive of 1024 bytes ends while the write of `"A"` is outstanding. -/
theorem independent_reset :
    ¬ Independent {} [.writeToSocket [65], .readFromSocket (List.replicate 1024 0),
      .readDone 0 0 (List.replicate 1024 0)] := by
  intro h
  exact absurd h.1 (by decide)

end CppNet.SessionApi
