import CppNet.SessionApi.Frame
import CppNet.SessionApi.Writer

/-!
# Writing a single message

`WriteToSocketErr` puts its message into `send_node_` and starts a write of all of
it; `WriteCallBackErr` goes on with the part behind `cur_len_`. It never advances
`cur_len_`, so the part it goes on with is the whole message: each short write is
followed by another write of the message from its beginning (`Offering`).

What is put on the socket is the message as long as no write is short. After a
short one it is too much by the time the chain of writes ends (`Overrun`).
-/

namespace CppNet.SessionApi

/-- A call or completion of a read, or a successful completion of a write. -/
def Event.Reports : Event → Prop
  | .writeDone _ ec _ => ec = 0
  | .readFromSocket _ | .readAllFromSocket _ | .readDone .. => True
  | .writeToSocketErr _ | .writeToSocket _ | .writeAllToSocket _ => False

/-- If the step completes a write, all that was offered is out. -/
def Unsplit (s : CSession) : Event → Prop
  | .writeDone i _ n => ∀ op ∈ s.writes[i]?, n = op.bytes.length
  | _ => True

/-- What was put on the socket behind `base` is a prefix of the message, and the message
once no write is outstanding any more. -/
structure Sends (base msg : Bytes) (s : CSession) : Prop where
  onWire : base <+: s.wire
  isPrefix : s.wire <+: base ++ msg
  complete : s.writes = [] → s.wire = base ++ msg

instance (base msg : Bytes) : DecidablePred (Sends base msg) := fun s =>
  decidable_of_iff
    (base <+: s.wire ∧ s.wire <+: base ++ msg ∧ (s.writes = [] → s.wire = base ++ msg))
    ⟨fun h => ⟨h.1, h.2.1, h.2.2⟩, fun h => ⟨h.onWire, h.isPrefix, h.complete⟩⟩

/-! ## The chain of writes -/

/-- One write is outstanding, and it offers the whole message. -/
structure Offering (msg : Bytes) (s : CSession) : Prop where
  node : ∃ node, s.sendNode = some node ∧ node.WellFormed ∧ node.msg = msg ∧ node.curLen = 0
  writes : s.writes = [⟨.sendNode, 0, msg, .writeCallBackErr⟩]

/-- Nothing is out yet, or exactly the message. -/
inductive Intact (base msg : Bytes) (s : CSession) : Prop
  | offering (hoffering : Offering msg s) (hwire : s.wire = base)
  | ended (hwrites : s.writes = []) (hwire : s.wire = base ++ msg)

/-- A part of the message is out and the whole of it still to come, or more than the
message is out. -/
inductive Overrun (base msg : Bytes) (s : CSession) : Prop
  | offering (hoffering : Offering msg s) (hwire : base.length < s.wire.length)
  | ended (hwrites : s.writes = []) (hwire : base.length + msg.length < s.wire.length)

section Chain

variable {base msg : Bytes} {s t : CSession}

theorem Intact.sends (h : Intact base msg s) : Sends base msg s := by
  cases h with
  | offering hoffering hwire =>
      refine ⟨hwire ▸ List.prefix_refl _, hwire ▸ List.prefix_append _ _, fun hnone => ?_⟩
      rw [hoffering.writes] at hnone
      cases hnone
  | ended hwrites hwire =>
      exact ⟨hwire ▸ List.prefix_append _ _, hwire ▸ List.prefix_refl _, fun _ => hwire⟩

theorem Overrun.not_sends (h : Overrun base msg s) (hwrites : s.writes = []) :
    ¬ Sends base msg s := by
  intro hsends
  cases h with
  | offering hoffering hwire =>
      rw [hoffering.writes] at hwrites
      cases hwrites
  | ended _ hwire =>
      rw [hsends.complete hwrites, List.length_append] at hwire
      omega

theorem Offering.congr (h : Offering msg s) (hnode : t.sendNode = s.sendNode)
    (hwrites : t.writes = s.writes) : Offering msg t :=
  ⟨hnode ▸ h.node, hwrites.trans h.writes⟩

theorem offering_call (hidle : s.writes = []) (hlen : msg.length < 2 ^ 31) :
    Offering msg (s.writeToSocketErr msg) ∧ (s.writeToSocketErr msg).wire = s.wire := by
  have hsize : ¬ toInt msg.length < 0 := by
    rw [toInt_of_lt hlen]
    omega
  have hwell := MsgNode.ofMsg_wellFormed 0 hlen
  unfold CSession.writeToSocketErr
  rw [if_neg hsize]
  refine ⟨⟨⟨_, rfl, hwell, MsgNode.ofMsg_msg 0 hlen, rfl⟩, ?_⟩, rfl⟩
  show s.writes ++ [WriteOp.mk _ _ (MsgNode.whole _) _] = _
  rw [hidle, hwell.whole_eq, MsgNode.ofMsg_msg 0 hlen]
  rfl

/-- A completion puts a prefix of the message on the socket. The chain ends if it is all
of it, and offers all of it again otherwise. -/
theorem offering_writeDone (h : Offering msg s) {i n : Nat} (hdone : s.writeDone i 0 n = some t) :
    t.wire = s.wire ++ msg.take n
      ∧ ((n = msg.length ∧ t.writes = []) ∨ (0 < n ∧ n < msg.length ∧ Offering msg t)) := by
  obtain ⟨op, hop, hn, rfl⟩ := CSession.writeDone_cases hdone
  obtain ⟨node, hnode, hwell, hmsg, hcur⟩ := h.node
  obtain ⟨-, rfl⟩ := Machine.eq_only h.writes hop
  have hlen := hwell.length_lt
  have hunsent : node.unsent = msg := by
    have hdrop : node.unsent = node.msg.drop 0 := hwell.unsent_eq hcur (Nat.zero_le _)
    rw [hdrop, List.drop_zero, hmsg]
  rw [Reportable, if_pos rfl] at hn
  dsimp only at hn ⊢
  rw [Machine.eraseIdx_only h.writes hop]
  simp only [CSession.call, CSession.writeCallBackErr, ne_eq, not_true_eq_false, if_false, hnode,
    hcur, hwell.totalLen_eq, hmsg, Int.add_zero]
  rw [hmsg] at hlen
  rw [toSize_natCast (by omega), toSize_natCast (by omega)]
  by_cases hmore : n < msg.length
  · rw [if_pos hmore]
    refine ⟨rfl, .inr ⟨?_, hmore, ⟨node, rfl, hwell, hmsg, hcur⟩, ?_⟩⟩
    · refine Nat.pos_of_ne_zero fun hzero => ?_
      have hnil := hn.2 hzero
      omega
    · show [] ++ [WriteOp.mk _ _ node.unsent _] = _
      rw [hunsent]
      rfl
  · rw [if_neg hmore]
    exact ⟨rfl, .inl ⟨by omega, rfl⟩⟩

/-- A step of the chain: a read step, which leaves the writer alone, or the completion of
the write. -/
theorem chain_step {e : Event} (he : e.Reports) (hstep : step s e = some t) :
    (t.sendNode = s.sendNode ∧ t.writes = s.writes ∧ t.wire = s.wire ∧ Unsplit s e)
      ∨ ∃ i n, e = .writeDone i 0 n ∧ s.writeDone i 0 n = some t := by
  cases hread : e.isRead with
  | true =>
      obtain ⟨hnode, hwrites, hwire⟩ := writes_of_read hread hstep
      refine .inl ⟨hnode, hwrites, hwire, ?_⟩
      cases e with
      | writeDone i ec n => cases hread
      | _ => trivial
  | false =>
      cases e with
      | writeDone i ec n =>
          obtain rfl : ec = 0 := he
          unfold step at hstep
          split at hstep
          · cases hstep
          · exact .inr ⟨i, n, rfl, hstep⟩
      | writeToSocketErr buf => cases he
      | writeToSocket buf => cases he
      | writeAllToSocket buf => cases he
      | _ => cases hread

theorem intact_step {e : Event} (he : e.Reports) (h : Intact base msg s) (hunsplit : Unsplit s e)
    (hstep : step s e = some t) : Intact base msg t := by
  rcases chain_step he hstep with ⟨hnode, hwrites, hwire, -⟩ | ⟨i, n, rfl, hdone⟩
  · cases h with
    | offering hoffering hbase =>
        exact .offering (hoffering.congr hnode hwrites) (hwire.trans hbase)
    | ended hnone hall => exact .ended (hwrites.trans hnone) (hwire.trans hall)
  · cases h with
    | ended hnone hall =>
        obtain ⟨op, hop, -⟩ := CSession.writeDone_cases hdone
        rw [hnone] at hop
        cases hop
    | offering hoffering hbase =>
        obtain ⟨op, hop, -⟩ := CSession.writeDone_cases hdone
        have hfull : n = op.bytes.length := hunsplit op hop
        obtain ⟨-, rfl⟩ := Machine.eq_only hoffering.writes hop
        obtain ⟨hwire, ⟨-, hnone⟩ | ⟨-, hless, -⟩⟩ := offering_writeDone hoffering hdone
        · refine .ended hnone ?_
          rw [hwire, hbase, hfull, List.take_length]
        · dsimp only at hfull
          omega

theorem overrun_of_split {e : Event} (he : e.Reports) (h : Intact base msg s)
    (hsplit : ¬ Unsplit s e) (hstep : step s e = some t) : Overrun base msg t := by
  rcases chain_step he hstep with ⟨-, -, -, hunsplit⟩ | ⟨i, n, rfl, hdone⟩
  · exact (hsplit hunsplit).elim
  · cases h with
    | ended hnone hall =>
        obtain ⟨op, hop, -⟩ := CSession.writeDone_cases hdone
        rw [hnone] at hop
        cases hop
    | offering hoffering hbase =>
        obtain ⟨hwire, ⟨hfull, -⟩ | ⟨hpos, hless, hoffering'⟩⟩ := offering_writeDone hoffering hdone
        · refine (hsplit fun op hop => ?_).elim
          obtain ⟨-, rfl⟩ := Machine.eq_only hoffering.writes hop
          exact hfull
        · refine .offering hoffering' ?_
          rw [hwire, hbase, List.length_append, List.length_take]
          omega

theorem overrun_step {e : Event} (he : e.Reports) (h : Overrun base msg s)
    (hstep : step s e = some t) : Overrun base msg t := by
  rcases chain_step he hstep with ⟨hnode, hwrites, hwire, -⟩ | ⟨i, n, rfl, hdone⟩
  · cases h with
    | offering hoffering hmore =>
        exact .offering (hoffering.congr hnode hwrites) (hwire ▸ hmore)
    | ended hnone hmore => exact .ended (hwrites.trans hnone) (hwire ▸ hmore)
  · cases h with
    | ended hnone hmore =>
        obtain ⟨op, hop, -⟩ := CSession.writeDone_cases hdone
        rw [hnone] at hop
        cases hop
    | offering hoffering hmore =>
        obtain ⟨hwire, ⟨hfull, hnone⟩ | ⟨-, -, hoffering'⟩⟩ := offering_writeDone hoffering hdone
        · refine .ended hnone ?_
          rw [hwire, hfull, List.take_length, List.length_append]
          omega
        · refine .offering hoffering' ?_
          rw [hwire, List.length_append]
          omega

end Chain

/-! ## Runs -/

/-- In a run without a short write the message is sent as it is; and a run up to the end
of the chain that sends it as it is has no short write. -/
theorem singleWriter_iff {s : CSession} (hidle : s.writes = []) {msg : Bytes}
    (hlen : msg.length < 2 ^ 31) {es : List Event} (hes : ∀ e ∈ es, e.Reports) :
    (Machine.Along step Unsplit (s.writeToSocketErr msg) es →
        Machine.Throughout step (Sends s.wire msg) (s.writeToSocketErr msg) es)
      ∧ ∀ t, Machine.exec step (s.writeToSocketErr msg) es = some t → t.writes = [] →
        Machine.Throughout step (Sends s.wire msg) (s.writeToSocketErr msg) es →
          Machine.Along step Unsplit (s.writeToSocketErr msg) es := by
  obtain ⟨hoffering, hwire⟩ := offering_call hidle hlen
  have hstart : Intact s.wire msg (s.writeToSocketErr msg) := .offering hoffering hwire
  constructor
  · intro halong
    have hintact : Machine.Throughout step (Intact s.wire msg) (s.writeToSocketErr msg) es :=
      Machine.throughout_of_preserves (C := fun s e => Unsplit s e ∧ e.Reports)
        (fun hC h hstep => intact_step hC.2 h hC.1 hstep)
        (halong.and (Machine.along_of_forall (fun e he _ => hes e he) _)) hstart
    exact hintact.mono fun _ h => h.sends
  · intro t hrun hend hsends
    rcases Machine.along_or_last intact_step overrun_of_split overrun_step hes hstart hrun with
      halong | hoverrun
    · exact halong
    · exact (hoverrun.not_sends hend (hsends.last hrun)).elim

/-- `"Hi"` goes out at once. -/
theorem singleWriter_whole :
    Machine.Throughout step (Sends [] [72, 105]) (CSession.writeToSocketErr {} [72, 105])
      [.writeDone 0 0 2] :=
  (singleWriter_iff (s := {}) rfl (by decide) (by simp [Event.Reports])).1 (by
    intro t _
    refine ⟨?_, trivial⟩
    rintro op ⟨⟩
    rfl)

/-- `"Hi"` goes out as `"HHi"` if the first write takes one byte. -/
theorem singleWriter_split :
    ¬ Machine.Throughout step (Sends [] [72, 105]) (CSession.writeToSocketErr {} [72, 105])
      [.writeDone 0 0 1, .writeDone 0 0 2] := by
  decide

end CppNet.SessionApi
