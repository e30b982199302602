import CppNet.SessionApi.Session

/-!
# The callbacks for whole buffers

`WriteAllCallBack` and `ReadAllCallBack` are declared next to the functions that are to
send and receive everything at once, and these start their operations with `WriteCallBack`
and `ReadCallBack` all the same. This is for the better: `async_send` and `async_receive`
may stop short like the functions without `All` in their names, and the callbacks for whole
buffers agree with the other two on whole buffers only (`writeAll_iff`, `readAll_iff`).
-/

namespace CppNet.SessionApi

namespace CSession

/-- The first node of the queue is taken to be out. -/
def writeAllCallBack (s : CSession) (ec : Int) (_bytesTransferred : Nat) : CSession :=
  if ec ≠ 0 then s
  else
    match s.sendQueue with
    | [] => { s with broken := true }
    | _ :: rest =>
        let s := { s with sendQueue := rest }
        match rest with
        | [] => { s with sendPending := false }
        | next :: _ => s.asyncWriteSome ⟨.queueNode next.addr, 0, next.whole, .writeCallBack⟩

def readAllCallBack (s : CSession) (_ec : Int) (bytesTransferred : Nat) : CSession :=
  match s.recvNode with
  | none => s
  | some node => { s with recvNode := some (node.advance bytesTransferred), sendPending := false }

/-- The `i`-th outstanding write completes, had it been started with `WriteAllCallBack`. -/
def writeAllDone (s : CSession) (i : Nat) (ec : Int) (n : Nat) : Option CSession :=
  match s.writes[i]? with
  | none => none
  | some op =>
      if Reportable ec op.bytes.length n then
        some (writeAllCallBack
          { s with writes := s.writes.eraseIdx i, wire := s.wire ++ op.bytes.take n } ec n)
      else none

/-- The `i`-th outstanding read completes, had it been started with `ReadAllCallBack`. -/
def readAllDone (s : CSession) (i : Nat) (ec : Int) (bytes : Bytes) : Option CSession :=
  match s.reads[i]?, s.recvNode with
  | some op, some node =>
      if Reportable ec op.size bytes.length then
        some (readAllCallBack
          { s with
            reads := s.reads.eraseIdx i
            received := s.received ++ bytes
            recvNode := some (node.fill op.offset bytes) }
          ec bytes.length)
      else none
  | _, _ => none

end CSession

/-! ## Writes -/

/-- `n` more bytes of the front are out, which are all there are of it exactly if the two
callbacks do the same. -/
theorem writeAllCallBack_iff {s : CSession} {front : MsgNode} {rest : List MsgNode}
    (hqueue : s.sendQueue = front :: rest) (n : Nat) :
    s.writeAllCallBack 0 n = s.writeCallBack 0 n
      ↔ ¬ (front.advance n).curLen < (front.advance n).totalLen := by
  simp only [CSession.writeAllCallBack, CSession.writeCallBack, ne_eq, not_true_eq_false, if_false,
    hqueue]
  by_cases hmore : (front.advance n).curLen < (front.advance n).totalLen
  · rw [if_pos hmore]
    refine iff_of_false ?_ (not_not_intro hmore)
    intro heq
    have hlength := congrArg (fun t : CSession => t.sendQueue.length) heq
    cases rest with
    | nil => simp [CSession.asyncWriteSome] at hlength
    | cons next rest => simp [CSession.asyncWriteSome] at hlength
  · rw [if_neg hmore]
    exact iff_of_true rfl hmore

/-- In every run of queued writes, `WriteAllCallBack` does for a completion what
`WriteCallBack` does exactly if it has failed or all that was offered is out. -/
theorem writeAll_iff {es : List Event} {s t : CSession}
    (hwrite : ∀ e ∈ es, e.IsQueuedWrite) (hfits : ∀ e ∈ es, e.Fits)
    (hrun : Machine.exec step {} es = some s) {i : Nat} {ec : Int} {n : Nat}
    (hdone : s.writeDone i ec n = some t) :
    s.writeAllDone i ec n = some t ↔ ec ≠ 0 ∨ ∃ op ∈ s.writes[i]?, n = op.bytes.length := by
  obtain ⟨o, h, -⟩ := queued_models True
    (fun e he => ⟨hwrite e he, hfits e he, fun _ => trivial⟩) hrun
  obtain ⟨op, hop, hn, rfl⟩ := CSession.writeDone_cases hdone
  simp only [CSession.writeAllDone, hop, if_pos hn, Option.some.injEq, Option.mem_some_iff,
    exists_eq_left']
  cases h.phase with
  | idle hqueue hpending hwrites =>
      rw [hwrites] at hop
      cases hop
  | stopped hfail hpending hwrites =>
      rw [hwrites] at hop
      cases hop
  | busy front rest op' hqueue hpending hwrites hcallback hbytes =>
      obtain ⟨-, rfl⟩ := Machine.eq_only hwrites hop
      rw [hcallback, CSession.call]
      by_cases hec : ec = 0
      · subst hec
        have hcursor := h.carries.cursor_le hqueue
        have hwell := h.carries.front_wellFormed hqueue
        have hfront := h.carries.front_curLen hqueue
        have hlen := hwell.length_lt
        rw [hfront, toSize_natCast (by omega)] at hbytes
        rw [Reportable, if_pos rfl, hbytes, List.length_drop] at hn
        rw [writeAllCallBack_iff (by exact hqueue), hbytes, List.length_drop,
          hwell.advance_curLen hfront (by omega), show (front.advance n).totalLen
            = front.msg.length from hwell.totalLen_eq]
        simp only [ne_eq, not_true_eq_false, false_or]
        omega
      · simp [CSession.writeAllCallBack, CSession.writeCallBack, hec]

/-- `"Hi"`, and `"H"` is out: `WriteAllCallBack` would have dropped the `"i"`. -/
theorem writeAll_iff_piece :
    let s := CSession.writeToSocket {} [72, 105]
    ∃ t, s.writeDone 0 0 1 = some t
      ∧ (s.writeAllDone 0 0 1 = some t
        ↔ (0 : Int) ≠ 0 ∨ ∃ op ∈ s.writes[0]?, 1 = op.bytes.length) :=
  ⟨_, rfl, @writeAll_iff [.writeToSocket [72, 105]] _ _ (by simp [Event.IsQueuedWrite])
    (by simp [Event.Fits]) rfl 0 0 1 rfl⟩

/-! ## Reads -/

/-- In every run, `ReadAllCallBack` does for a completion what `ReadCallBack` does exactly
if 1024 bytes have been received with it. -/
theorem readAll_iff {es : List Event} {s t : CSession} (hrun : Machine.exec step {} es = some s)
    {i : Nat} {ec : Int} {bytes : Bytes} (hdone : s.readDone i ec bytes = some t) :
    s.readAllDone i ec bytes = some t ↔ t.received.length = 1024 := by
  have hs := (Machine.throughout_of_step receiving_step receiving_init es).last hrun
  have ht := receiving_readDone hs hdone
  obtain ⟨op, node, hop, hnode, hn, rfl⟩ := CSession.readDone_cases hdone
  simp only [CSession.readAllDone, hop, hnode, if_pos hn, Option.some.injEq,
    CSession.readAllCallBack]
  simp only [CSession.readCallBack] at ht ⊢
  by_cases hmore : ((node.fill op.offset bytes).advance bytes.length).curLen
      < ((node.fill op.offset bytes).advance bytes.length).totalLen
  · rw [if_pos hmore] at ht ⊢
    refine iff_of_false ?_ ?_
    · intro heq
      have hreads := congrArg (fun t : CSession => t.reads.length) heq
      simp [CSession.asyncReadSome] at hreads
    · cases ht with
      | idle hnone hpending hreads hreceived => cases hnone
      | reading node' hnode' hpending hholds hlt hreads => exact Nat.ne_of_lt hlt
      | full node' hnode' hpending hholds hfull hreads =>
          simp [CSession.asyncReadSome] at hreads
  · rw [if_neg hmore] at ht ⊢
    refine iff_of_true rfl ?_
    cases ht with
    | idle hnone hpending hreads hreceived => cases hnone
    | full node' hnode' hpending hholds hfull hreads => exact hfull
    | reading node' hnode' hpending hholds hlt hreads =>
        cases hnode'
        rw [hholds.curLen, hholds.totalLen] at hmore
        dsimp only [kRecvSize] at hmore hlt
        omega

set_option maxRecDepth 16000 in
/-- Two bytes of 1024. -/
theorem readAll_iff_piece :
    let s := CSession.readFromSocket {} (List.replicate 1024 0)
    ∃ t, s.readDone 0 0 [79, 75] = some t
      ∧ (s.readAllDone 0 0 [79, 75] = some t ↔ t.received.length = 1024) :=
  ⟨_, rfl, @readAll_iff [.readFromSocket (List.replicate 1024 0)] _ _ rfl 0 0 [79, 75] rfl⟩

end CppNet.SessionApi
