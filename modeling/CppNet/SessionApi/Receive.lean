import CppNet.SessionApi.Frame

/-!
# Assembling a receive

`ReadFromSocket` and `ReadAllFromSocket` start a read of the whole of `recv_node_`,
and `ReadCallBack` goes on with what is left of it until it is full. In every run
`msg_` holds the bytes received so far, up to `cur_len_`, and the one outstanding
read is offered the rest (`Receiving`, `receive_assembly`).

`ReadCallBack` does not look at its error code. A read that fails transfers nothing,
so it leaves the session as it was, with the same read started again
(`step_readDone_of_fails`): a receive whose peer has closed never ends
(`rearms_on_error`).
-/

namespace CppNet.SessionApi

/-! ## The invariant -/

/-- `node` holds the bytes received and has room for 1024. -/
structure Holds (s : CSession) (node : MsgNode) : Prop where
  totalLen : node.totalLen = kRecvSize
  size : node.msg.length = 1024
  curLen : node.curLen = s.received.length
  contents : node.msg.take s.received.length = s.received

/-- No receive was started; or the one read outstanding is for what is left of the node;
or the node is full. -/
inductive Receiving (s : CSession) : Prop
  | idle (hnode : s.recvNode = none) (hpending : s.recvPending = false)
      (hreads : s.reads = []) (hreceived : s.received = [])
  | reading (node : MsgNode) (hnode : s.recvNode = some node) (hpending : s.recvPending = true)
      (hholds : Holds s node) (hlt : s.received.length < 1024)
      (hreads : s.reads = [⟨s.received.length, 1024 - s.received.length⟩])
  | full (node : MsgNode) (hnode : s.recvNode = some node) (hpending : s.recvPending = true)
      (hholds : Holds s node) (hfull : s.received.length = 1024) (hreads : s.reads = [])

theorem receiving_init : Receiving {} := .idle rfl rfl rfl rfl

theorem receiving_of_readSide {s t : CSession} (h : Receiving s)
    (hside : t.readSide = s.readSide) : Receiving t := by
  obtain ⟨hnode, hpending, hreads, hreceived⟩ := CSession.readSide_eq hside
  cases h with
  | idle hn hp hr hb =>
      exact .idle (hnode.trans hn) (hpending.trans hp) (hreads.trans hr) (hreceived.trans hb)
  | reading node hn hp hholds hlt hr =>
      refine .reading node (hnode.trans hn) (hpending.trans hp) ?_ (hreceived ▸ hlt) ?_
      · exact ⟨hholds.totalLen, hholds.size, hreceived ▸ hholds.curLen,
          hreceived ▸ hholds.contents⟩
      · rw [hreads, hr, hreceived]
  | full node hn hp hholds hfull hr =>
      refine .full node (hnode.trans hn) (hpending.trans hp) ?_ (hreceived ▸ hfull)
        (hreads.trans hr)
      exact ⟨hholds.totalLen, hholds.size, hreceived ▸ hholds.curLen,
        hreceived ▸ hholds.contents⟩

/-! ## Calls -/

theorem receiving_readInto {s : CSession} (h : Receiving s) {memory : Bytes}
    (hmemory : memory.length = kRecvSize) : Receiving (s.readInto memory) := by
  have hsize : memory.length = 1024 := Int.ofNat_inj.mp hmemory
  unfold CSession.readInto
  cases h with
  | idle hnode hpending hreads hreceived =>
      rw [if_neg (by simp [hpending])]
      refine .reading (MsgNode.ofLen memory kRecvSize) rfl rfl ?_ ?_ ?_
      · refine ⟨rfl, ?_, ?_, ?_⟩
        · rw [MsgNode.ofLen, List.length_take, hsize]
          rfl
        · show (0 : Int) = (s.received.length : Int)
          rw [hreceived]
          rfl
        · show List.take s.received.length _ = s.received
          rw [hreceived]
          rfl
      · show s.received.length < 1024
        rw [hreceived]
        decide
      · show s.reads ++ _ = [⟨s.received.length, 1024 - s.received.length⟩]
        rw [hreads, hreceived]
        rfl
  | reading node hnode hpending hholds hlt hreads =>
      rw [if_pos hpending]
      exact .reading node hnode hpending hholds hlt hreads
  | full node hnode hpending hholds hfull hreads =>
      rw [if_pos hpending]
      exact .full node hnode hpending hholds hfull hreads

/-! ## Completions -/

theorem Reportable.le {ec : Int} {size n : Nat} (h : Reportable ec size n) : n ≤ size := by
  unfold Reportable at h
  split at h
  · exact h.1
  · omega

/-- The bytes that arrive go behind those that are there. -/
theorem holds_fill {s t : CSession} {node : MsgNode} (h : Holds s node) {bytes : Bytes}
    (hroom : s.received.length + bytes.length ≤ 1024)
    (hreceived : t.received = s.received ++ bytes) :
    Holds t ((node.fill s.received.length bytes).advance bytes.length) where
  totalLen := h.totalLen
  size := by
    have hsize := h.size
    simp only [MsgNode.advance, MsgNode.fill, List.length_append, List.length_take,
      List.length_drop]
    omega
  curLen := by
    simp only [MsgNode.advance, MsgNode.fill, h.curLen, hreceived, List.length_append]
    rw [← Int.natCast_add, toInt_of_lt (by omega)]
  contents := by
    simp only [MsgNode.advance, MsgNode.fill, h.contents, hreceived]
    exact List.take_left

theorem receiving_readDone {s t : CSession} (h : Receiving s) {i : Nat} {ec : Int}
    {bytes : Bytes} (hdone : s.readDone i ec bytes = some t) : Receiving t := by
  obtain ⟨op, node, hop, hnode, hn, rfl⟩ := CSession.readDone_cases hdone
  cases h with
  | idle hnone hpending hreads hreceived =>
      rw [hreads] at hop
      cases hop
  | full node' hnode' hpending hholds hfull hreads =>
      rw [hreads] at hop
      cases hop
  | reading node' hnode' hpending hholds hlt hreads =>
      obtain rfl : node' = node := Option.some.inj (hnode'.symm.trans hnode)
      obtain ⟨-, rfl⟩ := Machine.eq_only hreads hop
      have hroom : s.received.length + bytes.length ≤ 1024 := by
        have hle := hn.le
        dsimp only at hle
        omega
      have hholds' : ∀ {t : CSession}, t.received = s.received ++ bytes →
          Holds t ((node'.fill s.received.length bytes).advance bytes.length) :=
        fun ht => holds_fill hholds hroom ht
      have hcur : ((node'.fill s.received.length bytes).advance bytes.length).curLen
          = ((s.received.length + bytes.length : Nat) : Int) := by
        have hc := (hholds' (t := { s with received := s.received ++ bytes }) rfl).curLen
        rwa [List.length_append] at hc
      have htotal : ((node'.fill s.received.length bytes).advance bytes.length).totalLen
          = 1024 := hholds.totalLen
      rw [Machine.eraseIdx_only hreads hop]
      simp only [CSession.readCallBack]
      by_cases hmore : s.received.length + bytes.length < 1024
      · rw [if_pos (by rw [hcur, htotal]; omega)]
        refine .reading _ rfl hpending (hholds' rfl) ?_ ?_
        · show (s.received ++ bytes).length < 1024
          rwa [List.length_append]
        · show [ReadOp.mk _ _] = [ReadOp.mk (s.received ++ bytes).length
            (1024 - (s.received ++ bytes).length)]
          rw [hcur, htotal, List.length_append, toSize_natCast (by omega),
            show (1024 : Int) - ((s.received.length + bytes.length : Nat) : Int)
              = ((1024 - (s.received.length + bytes.length) : Nat) : Int) by omega,
            toSize_natCast (by omega)]
      · rw [if_neg (by rw [hcur, htotal]; omega)]
        refine .full _ rfl hpending (hholds' rfl) ?_ rfl
        show (s.received ++ bytes).length = 1024
        rw [List.length_append]
        omega

theorem receiving_step {s t : CSession} {e : Event} (h : Receiving s)
    (hstep : step s e = some t) : Receiving t := by
  cases hread : e.isRead with
  | false => exact receiving_of_readSide h (framed_write hread hstep)
  | true =>
      unfold step at hstep
      split at hstep
      · cases hstep
      cases e with
      | readFromSocket memory =>
          dsimp only at hstep
          split at hstep
          · rename_i hmemory
            obtain rfl := Option.some.inj hstep
            exact receiving_readInto h hmemory
          · cases hstep
      | readAllFromSocket memory =>
          dsimp only at hstep
          split at hstep
          · rename_i hmemory
            obtain rfl := Option.some.inj hstep
            exact receiving_readInto h hmemory
          · cases hstep
      | readDone i ec bytes => exact receiving_readDone h hstep
      | _ => cases hread

/-! ## The assembly -/

/-- The node holds the bytes received so far in front of `cur_len_`; a read that is
outstanding is offered what lies between `cur_len_` and `total_len_`; and none is
exactly if the node is full. -/
structure Assembles (s : CSession) (node : MsgNode) : Prop where
  totalLen : node.totalLen = kRecvSize
  whole : node.msg.length = toSize node.totalLen
  curLen : node.curLen = s.received.length
  curLen_le : node.curLen ≤ node.totalLen
  contents : node.msg.take (toSize node.curLen) = s.received
  offered : ∀ op ∈ s.reads, op.offset = toSize node.curLen
    ∧ op.offset + op.size = toSize node.totalLen
  rearms : s.reads = [] ↔ node.curLen = kRecvSize

theorem Receiving.assembles {s : CSession} (h : Receiving s) :
    ∀ node ∈ s.recvNode, Assembles s node := by
  intro node hmem
  have hsize : toSize kRecvSize = 1024 := rfl
  cases h with
  | idle hnode hpending hreads hreceived =>
      rw [hnode] at hmem
      cases hmem
  | reading node' hnode hpending hholds hlt hreads =>
      obtain rfl : node' = node := Option.some.inj (hnode.symm.trans hmem)
      have hcur : toSize node'.curLen = s.received.length := by
        rw [hholds.curLen, toSize_natCast (by omega)]
      refine ⟨hholds.totalLen, ?_, hholds.curLen, ?_, ?_, ?_, ?_⟩
      · rw [hholds.size, hholds.totalLen, hsize]
      · rw [hholds.curLen, hholds.totalLen, kRecvSize]
        omega
      · rw [hcur, hholds.contents]
      · intro op hop
        rw [hreads] at hop
        obtain rfl := List.mem_singleton.mp hop
        rw [hcur, hholds.totalLen, hsize]
        exact ⟨rfl, Nat.add_sub_of_le (Nat.le_of_lt hlt)⟩
      · rw [hreads, hholds.curLen, kRecvSize]
        exact iff_of_false (List.cons_ne_nil _ _) (by omega)
  | full node' hnode hpending hholds hfull hreads =>
      obtain rfl : node' = node := Option.some.inj (hnode.symm.trans hmem)
      have hcur : node'.curLen = kRecvSize := by
        rw [hholds.curLen, hfull]
        rfl
      refine ⟨hholds.totalLen, ?_, hholds.curLen, ?_, ?_, ?_, iff_of_true hreads hcur⟩
      · rw [hholds.size, hholds.totalLen, hsize]
      · exact Int.le_of_eq (hcur.trans hholds.totalLen.symm)
      · rw [hcur, hsize, ← hfull, hholds.contents]
      · intro op hop
        rw [hreads] at hop
        cases hop

/-- A read call on a session that has no node makes one, and starts a read of the whole
of it. -/
def StartsReceive (s : CSession) (e : Event) : Prop :=
  ∀ t ∈ step s e, (∃ memory, e = .readFromSocket memory ∨ e = .readAllFromSocket memory) →
    s.recvNode = none → (∃ node ∈ t.recvNode, node.curLen = 0) ∧ t.reads = [⟨0, 1024⟩]

theorem Receiving.startsReceive {s : CSession} (h : Receiving s) (e : Event) :
    StartsReceive s e := by
  rintro t hstep ⟨memory, he⟩ hnone
  have hread : t = s.readInto memory := by
    rcases step_cases hstep with ⟨buf, rfl, -⟩ | ⟨buf, rfl | rfl, -⟩ | ⟨memory', he', ht⟩
      | ⟨i, ec, n, rfl, -⟩ | ⟨i, ec, bytes, rfl, -⟩
    · simp at he
    · simp at he
    · simp at he
    · rcases he with rfl | rfl <;> rcases he' with he' | he' <;> cases he' <;> exact ht
    · simp at he
    · simp at he
  cases h with
  | reading node hnode hpending hholds hlt hreads =>
      rw [hnode] at hnone
      cases hnone
  | full node hnode hpending hholds hfull hreads =>
      rw [hnode] at hnone
      cases hnone
  | idle hnode hpending hreads hreceived =>
      rw [hread, CSession.readInto, if_neg (by simp [hpending])]
      refine ⟨⟨MsgNode.ofLen memory kRecvSize, rfl, rfl⟩, ?_⟩
      show s.reads ++ _ = _
      rw [hreads]
      rfl

/-- In every run a read call starts the receive, the bytes of the receive are assembled in
order, in pieces of any sizes, and it goes on exactly until the node is full. -/
theorem receive_assembly (es : List Event) :
    Machine.Throughout step (fun s => ∀ node ∈ s.recvNode, Assembles s node) {} es
      ∧ Machine.Along step StartsReceive {} es := by
  have hreceiving : Machine.Throughout step Receiving {} es :=
    Machine.throughout_of_step receiving_step receiving_init es
  exact ⟨hreceiving.mono fun _ h => h.assembles, hreceiving.along fun h _ => h.startsReceive _⟩

/-! ## Failed reads -/

/-- A failed read changes nothing, and is started again. -/
theorem step_readDone_of_fails {s t : CSession} (h : Receiving s) {i : Nat} {ec : Int}
    {bytes : Bytes} (hec : ec ≠ 0) (hdone : s.readDone i ec bytes = some t) :
    t = s ∧ ∃ op, s.reads = [op] ∧ s.reads.eraseIdx i = [] := by
  obtain ⟨op, node, hop, hnode, hn, rfl⟩ := CSession.readDone_cases hdone
  rw [Reportable, if_neg hec, List.length_eq_zero_iff] at hn
  subst hn
  cases h with
  | idle hnone hpending hreads hreceived =>
      rw [hreads] at hop
      cases hop
  | full node' hnode' hpending hholds hfull hreads =>
      rw [hreads] at hop
      cases hop
  | reading node' hnode' hpending hholds hlt hreads =>
      obtain rfl : node' = node := Option.some.inj (hnode'.symm.trans hnode)
      have hnone := Machine.eraseIdx_only hreads hop
      refine ⟨?_, op, ?_, hnone⟩
      · have hfill : (node'.fill op.offset []).advance 0 = node' := by
          simp only [MsgNode.fill, MsgNode.advance, List.length_nil, Nat.add_zero,
            List.append_nil, List.take_append_drop, Int.natCast_zero, Int.add_zero, hholds.curLen]
          rw [toInt_of_lt (by omega), ← hholds.curLen]
        have hmore : node'.curLen < node'.totalLen := by
          rw [hholds.curLen, hholds.totalLen, kRecvSize]
          omega
        simp only [CSession.readCallBack, List.length_nil, hfill, List.append_nil, hnone]
        rw [if_pos hmore, hholds.curLen, hholds.totalLen, kRecvSize, toSize_natCast (by omega),
          show (1024 : Int) - (s.received.length : Int) = ((1024 - s.received.length : Nat) : Int)
            by omega, toSize_natCast (by omega)]
        simp only [CSession.asyncReadSome, List.nil_append, ← hreads, ← hnode']
      · rw [hreads, (Machine.eq_only hreads hop).2]

/-- Whenever a read fails, `ReadCallBack` starts a further read; and the same failure can
follow any number of times, with a read outstanding each time. -/
theorem rearms_on_error {es : List Event} {s t : CSession} {i : Nat} {ec : Int} {bytes : Bytes}
    (hrun : Machine.exec step {} es = some s) (hec : ec ≠ 0)
    (hstep : step s (.readDone i ec bytes) = some t) :
    (∃ op, t.reads = s.reads.eraseIdx i ++ [op])
      ∧ ∀ n, ∃ u, Machine.exec step s (List.replicate n (.readDone i ec bytes)) = some u
        ∧ u.reads ≠ [] := by
  have hreceiving : Receiving s :=
    (Machine.throughout_of_step receiving_step receiving_init es).last hrun
  have hdone : s.readDone i ec bytes = some t := by
    unfold step at hstep
    split at hstep
    · cases hstep
    · exact hstep
  obtain ⟨rfl, op, hreads, hnone⟩ := step_readDone_of_fails hreceiving hec hdone
  refine ⟨⟨op, by rw [hnone, hreads, List.nil_append]⟩, fun n => ?_⟩
  refine ⟨t, Machine.exec_replicate hstep n, ?_⟩
  rw [hreads]
  exact List.cons_ne_nil _ _

section EndOfFile

set_option maxRecDepth 16000

theorem rearms_on_error_eof :
    ∃ t : CSession,
      (∃ op, t.reads = (CSession.readFromSocket {} (List.replicate 1024 0)).reads.eraseIdx 0
        ++ [op])
      ∧ ∀ n, ∃ u, Machine.exec step (CSession.readFromSocket {} (List.replicate 1024 0))
        (List.replicate n (.readDone 0 2 [])) = some u ∧ u.reads ≠ [] :=
  ⟨_, @rearms_on_error [.readFromSocket (List.replicate 1024 0)] _ _ 0 2 [] rfl (by decide) rfl⟩

/-- The peer has closed, and the read ends with `eof`. -/
theorem rearms_after_eof :
    ∃ s t, Machine.exec step {} [.readFromSocket (List.replicate 1024 0)] = some s
      ∧ step s (.readDone 0 2 []) = some t ∧ t.reads ≠ s.reads.eraseIdx 0 := by
  refine ⟨_, _, rfl, rfl, ?_⟩
  decide

end EndOfFile

end CppNet.SessionApi
