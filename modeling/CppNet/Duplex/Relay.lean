import CppNet.Duplex.Threads
import CppNet.Duplex.Frames

/-!
# What a session passes on

`HandleRead` passes the bytes of its read on to `Send`, and no lock guards `data_`
meanwhile. What keeps others out is the read itself: from its completion until
`HandleRead` starts the next one, no read is outstanding. So one thread at most runs
`HandleRead`, nothing is received into `data_` until it is done with it, and in every
interleaving of the threads each byte received is pushed once, in the order of receipt
(`bytes_relayed`).
-/

namespace CppNet.Duplex

open Mutex (Instr)

section Relay

variable {ι Node : Type}

/-! ## Chunks -/

/-- The node of a call that `HandleRead` has made. -/
def Call.relayed (call : Call Node) : Option Node :=
  match call.msg with
  | .data => some call.node
  | .caller _ | .node _ => none

def Shared.relayed (x : Shared ι Node) : List Node := x.history.calls.filterMap Call.relayed

/-- The bytes of a read, what lies behind them in `data_`, and what the constructor of
their node finds in memory. -/
structure Chunk where
  bytes : Bytes
  behind : Bytes
  uninitialised : Int
  length_le : bytes.length ≤ maxLength

def Chunk.node [MessageNode Node] (c : Chunk) : Node :=
  MessageNode.make (c.bytes ++ c.behind) (toInt c.bytes.length) c.uninitialised

/-! ## Steps that are not about `data_` -/

def Foreign : Instr (Action Node) → Prop
  | .act .clear | .act .read | .act (.push .data _ _) => False
  | _ => True

def ForeignCode (code : Code Node) : Prop := ∀ c ∈ code, Foreign c

theorem not_foreignCode_of_read {code : Code Node} (h : .act .read ∈ code) :
    ¬ ForeignCode code := fun hforeign => hforeign _ h

theorem ForeignCode.tail {c : Instr (Action Node)} {code : Code Node}
    (h : ForeignCode (c :: code)) : ForeignCode code := by
  intro c' hc'
  exact h c' (List.mem_cons_of_mem _ hc')

theorem eq_of_reads {s : Threads ι Node} {i j : ι}
    (hothers : ∀ j, j ≠ i → ForeignCode (s.thread j).code) (hj : .act .read ∈ (s.thread j).code) : j = i := by
  by_contra hne
  exact not_foreignCode_of_read hj (hothers j hne)

structure Shared.Same (x y : Shared ι Node) : Prop where
  data : y.session.data = x.session.data
  reads : y.session.reads = x.session.reads
  received : y.session.received = x.session.received
  relayed : y.relayed = x.relayed

variable [MessageNode Node]

theorem exec_of_foreign {a : Action Node} (ha : Foreign (.act a)) (pending : Bool)
    (s : CSession Node) : (a.exec pending s).2.data = s.data
      ∧ (a.exec pending s).2.reads = s.reads ∧ (a.exec pending s).2.received = s.received := by
  cases a with
  | check | push => exact ⟨rfl, rfl, rfl⟩
  | write msg n => cases pending <;> exact ⟨rfl, rfl, rfl⟩
  | pop | next =>
      simp only [Action.exec]
      split <;> exact ⟨rfl, rfl, rfl⟩
  | clear | read => exact ha.elim

theorem calls_of_foreign {a : Action Node} (ha : Foreign (.act a)) (s : CSession Node) :
    (a.calls s).filterMap Call.relayed = [] := by
  cases a with
  | push msg n uninitialised =>
      cases msg with
      | data => exact ha.elim
      | caller msg | node node => rfl
  | check | write | pop | next => rfl
  | clear | read => exact ha.elim

theorem act_relayed (a : Action Node) (pending : Bool) (x : Shared ι Node) :
    (x.act a pending).2.relayed = x.relayed ++ (a.calls x.session).filterMap Call.relayed :=
  List.filterMap_append

theorem same_of_foreign {c : Instr (Action Node)} (hc : Foreign c) (vars : Bool)
    (x : Shared ι Node) : x.Same (threads.does c vars x).2 := by
  cases c with
  | lock | unlock => exact ⟨rfl, rfl, rfl, rfl⟩
  | act a =>
      obtain ⟨hdata, hreads, hreceived⟩ := exec_of_foreign hc vars x.session
      refine ⟨hdata, hreads, hreceived, ?_⟩
      show (x.act a vars).2.relayed = x.relayed
      rw [act_relayed, calls_of_foreign hc, List.append_nil]

/-! ## The invariant -/

/-- No thread runs `HandleRead`; one does and has not pushed its chunk yet; or it has, and
starts the next read at the end. -/
inductive Relay (s : Threads ι Node) : Prop
  | rests (chunks : List Chunk) (hothers : ∀ j, ForeignCode (s.thread j).code)
      (hreads : s.shared.session.reads ≤ 1)
      (hrelayed : s.shared.relayed = chunks.map Chunk.node)
      (hreceived : chunks.flatMap Chunk.bytes = s.shared.session.received)
  | pushes (i : ι) (chunks : List Chunk) (chunk : Chunk) (before behind : Code Node)
      (hcode : (s.thread i).code = before
        ++ .act (.push .data (toInt chunk.bytes.length) chunk.uninitialised)
          :: (behind ++ [.act .read]))
      (hbefore : ForeignCode before) (hbehind : ∀ c ∈ behind, Foreign c ∨ c = .act .clear)
      (hothers : ∀ j, j ≠ i → ForeignCode (s.thread j).code)
      (hreads : s.shared.session.reads = 0)
      (hdata : s.shared.session.data = chunk.bytes ++ chunk.behind)
      (hrelayed : s.shared.relayed = chunks.map Chunk.node)
      (hreceived : chunks.flatMap Chunk.bytes ++ chunk.bytes = s.shared.session.received)
  | pushed (i : ι) (chunks : List Chunk) (behind : Code Node)
      (hcode : (s.thread i).code = behind ++ [.act .read])
      (hbehind : ∀ c ∈ behind, Foreign c ∨ c = .act .clear)
      (hothers : ∀ j, j ≠ i → ForeignCode (s.thread j).code)
      (hreads : s.shared.session.reads = 0)
      (hrelayed : s.shared.relayed = chunks.map Chunk.node)
      (hreceived : chunks.flatMap Chunk.bytes = s.shared.session.received)

variable {s t : Threads ι Node}

/-- Threads move on that do not run `HandleRead`. -/
theorem Relay.foreign (h : Relay s) (hcode : ∀ j, (t.thread j).code = (s.thread j).code
      ∨ ForeignCode (s.thread j).code ∧ ForeignCode (t.thread j).code)
    (hsame : s.shared.Same t.shared) : Relay t := by
  have hkeeps : ∀ {j}, ForeignCode (s.thread j).code → ForeignCode (t.thread j).code := by
    intro j hj
    rcases hcode j with heq | ⟨-, hnew⟩
    · rw [heq]
      exact hj
    · exact hnew
  have hreader : ∀ {i}, .act .read ∈ (s.thread i).code →
      (t.thread i).code = (s.thread i).code := by
    intro i hi
    rcases hcode i with heq | ⟨hforeign, -⟩
    · exact heq
    · exact absurd hforeign (not_foreignCode_of_read hi)
  cases h with
  | rests chunks hothers hreads hrelayed hreceived =>
      exact .rests chunks (fun j => hkeeps (hothers j)) (hsame.reads ▸ hreads)
        (hsame.relayed.trans hrelayed) (hreceived.trans hsame.received.symm)
  | pushes i chunks chunk before behind hi hbefore hbehind hothers hreads hdata hrelayed
      hreceived =>
      exact .pushes i chunks chunk before behind ((hreader (by simp [hi])).trans hi) hbefore
        hbehind (fun j hj => hkeeps (hothers j hj)) (hsame.reads.trans hreads)
        (hsame.data.trans hdata) (hsame.relayed.trans hrelayed)
        (hreceived.trans hsame.received.symm)
  | pushed i chunks behind hi hbehind hothers hreads hrelayed hreceived =>
      exact .pushed i chunks behind ((hreader (by simp [hi])).trans hi) hbehind
        (fun j hj => hkeeps (hothers j hj)) (hsame.reads.trans hreads)
        (hsame.relayed.trans hrelayed) (hreceived.trans hsame.received.symm)

/-- One thread at a time runs `HandleRead`, while no read is outstanding. What it has passed
on are the nodes of chunks of the bytes received, in order, and of all of them unless it
has yet to push one. -/
structure Relayed (s : Threads ι Node) : Prop where
  one_reader : ∀ i j, .act .read ∈ (s.thread i).code → .act .read ∈ (s.thread j).code → i = j
  undisturbed : ∀ i, .act .read ∈ (s.thread i).code → s.shared.session.reads = 0
  one_read : s.shared.session.reads ≤ 1
  relayed : ∃ chunks : List Chunk, s.shared.relayed = chunks.map Chunk.node
    ∧ chunks.flatMap Chunk.bytes <+: s.shared.session.received
    ∧ ((∀ i n uninitialised, .act (.push .data n uninitialised) ∉ (s.thread i).code) →
      chunks.flatMap Chunk.bytes = s.shared.session.received)

theorem Relay.relayed (h : Relay s) : Relayed s := by
  cases h with
  | rests chunks hothers hreads hrelayed hreceived =>
      refine ⟨?_, ?_, hreads, chunks, hrelayed, hreceived ▸ List.prefix_refl _,
        fun _ => hreceived⟩
      · intro i j hi
        exact absurd (hothers i) (not_foreignCode_of_read hi)
      · intro i hi
        exact absurd (hothers i) (not_foreignCode_of_read hi)
  | pushes i chunks chunk before behind hcode hbefore hbehind hothers hreads hdata hrelayed
      hreceived =>
      refine ⟨?_, fun _ _ => hreads, by omega, chunks, hrelayed,
        hreceived ▸ List.prefix_append _ _, ?_⟩
      · intro j k hj hk
        rw [eq_of_reads hothers hj, eq_of_reads hothers hk]
      · intro hpush
        refine absurd ?_ (hpush i (toInt chunk.bytes.length) chunk.uninitialised)
        simp [hcode]
  | pushed i chunks behind hcode hbehind hothers hreads hrelayed hreceived =>
      refine ⟨?_, fun _ _ => hreads, by omega, chunks, hrelayed,
        hreceived ▸ List.prefix_refl _, fun _ => hreceived⟩
      intro j k hj hk
      rw [eq_of_reads hothers hj, eq_of_reads hothers hk]

/-! ## Steps -/

section Runs

variable [DecidableEq ι]

theorem relay_runs_foreign (h : Relay s) {k : ι} (hstep : Mutex.step threads s (.runs k) = some t)
    (hforeign : ForeignCode (s.thread k).code) : Relay t := by
  obtain ⟨c, code, hcode, ht, hothers, hshared⟩ := Mutex.runs_cases hstep
  rw [hcode] at hforeign
  refine h.foreign ?_ ?_
  · intro j
    by_cases hj : j = k
    · rw [hj, hcode, ht]
      exact .inr ⟨hforeign, hforeign.tail⟩
    · rw [hothers j hj]
      exact .inl rfl
  · rw [hshared]
    exact same_of_foreign (hforeign c (List.mem_cons_self ..)) _ _

/-- A step of `HandleRead` up to the push of its chunk. -/
theorem relay_runs_pushes {i : ι} {chunks : List Chunk} {chunk : Chunk} {before behind : Code Node}
    (hstep : Mutex.step threads s (.runs i) = some t)
    (hcode : (s.thread i).code = before
      ++ .act (.push .data (toInt chunk.bytes.length) chunk.uninitialised)
        :: (behind ++ [.act .read]))
    (hbefore : ForeignCode before) (hbehind : ∀ c ∈ behind, Foreign c ∨ c = .act .clear)
    (hothers : ∀ j, j ≠ i → ForeignCode (s.thread j).code)
    (hreads : s.shared.session.reads = 0)
    (hdata : s.shared.session.data = chunk.bytes ++ chunk.behind)
    (hrelayed : s.shared.relayed = chunks.map Chunk.node)
    (hreceived : chunks.flatMap Chunk.bytes ++ chunk.bytes = s.shared.session.received) :
    Relay t := by
  obtain ⟨c, code, hcons, ht, hsame, hshared⟩ := Mutex.runs_cases hstep
  have hothers' : ∀ j, j ≠ i → ForeignCode (t.thread j).code := by
    intro j hj
    rw [hsame j hj]
    exact hothers j hj
  rw [hcode] at hcons
  cases before with
  | nil =>
      obtain ⟨rfl, rfl⟩ := List.cons.inj hcons
      refine .pushed i (chunks ++ [chunk]) behind ht hbehind hothers' ?_ ?_ ?_
      · rw [hshared]
        exact hreads
      · have hnode : (threads.does (.act (.push .data (toInt chunk.bytes.length)
            chunk.uninitialised)) (s.thread i).vars s.shared).2.relayed
            = s.shared.relayed ++ [MessageNode.make s.shared.session.data
              (toInt chunk.bytes.length) chunk.uninitialised] := act_relayed ..
        rw [hshared, hnode, hrelayed, hdata, List.map_append]
        rfl
      · rw [hshared, List.flatMap_append, List.flatMap_singleton]
        exact hreceived
  | cons c' before =>
      obtain ⟨rfl, rfl⟩ := List.cons.inj hcons
      have hsame' := same_of_foreign (hbefore _ (List.mem_cons_self ..)) (s.thread i).vars s.shared
      rw [← hshared] at hsame'
      exact .pushes i chunks chunk before behind ht hbefore.tail hbehind hothers'
        (hsame'.reads.trans hreads) (hsame'.data.trans hdata) (hsame'.relayed.trans hrelayed)
        (hreceived.trans hsame'.received.symm)

/-- A step of `HandleRead` behind it. -/
theorem relay_runs_pushed {i : ι} {chunks : List Chunk} {behind : Code Node}
    (hstep : Mutex.step threads s (.runs i) = some t)
    (hcode : (s.thread i).code = behind ++ [.act .read])
    (hbehind : ∀ c ∈ behind, Foreign c ∨ c = .act .clear)
    (hothers : ∀ j, j ≠ i → ForeignCode (s.thread j).code)
    (hreads : s.shared.session.reads = 0)
    (hrelayed : s.shared.relayed = chunks.map Chunk.node)
    (hreceived : chunks.flatMap Chunk.bytes = s.shared.session.received) : Relay t := by
  obtain ⟨c, code, hcons, ht, hsame, hshared⟩ := Mutex.runs_cases hstep
  have hothers' : ∀ j, j ≠ i → ForeignCode (t.thread j).code := by
    intro j hj
    rw [hsame j hj]
    exact hothers j hj
  rw [hcode] at hcons
  cases behind with
  | nil =>
      obtain ⟨rfl, rfl⟩ := List.cons.inj hcons
      have hread : t.shared = { s.shared with session := s.shared.session.asyncReadSome } :=
        hshared.trans (congrArg Prod.snd Shared.act_read)
      refine .rests chunks ?_ ?_ ?_ ?_
      · intro j
        by_cases hj : j = i
        · rw [hj, ht]
          intro c hc
          cases hc
        · exact hothers' j hj
      · rw [hread]
        exact Nat.le_of_eq (congrArg (· + 1) hreads)
      · rw [hread]
        exact hrelayed
      · rw [hread]
        exact hreceived
  | cons c' behind =>
      obtain ⟨rfl, rfl⟩ := List.cons.inj hcons
      have hrest : ∀ c ∈ behind, Foreign c ∨ c = .act .clear := by
        intro c hc
        exact hbehind c (List.mem_cons_of_mem _ hc)
      rcases hbehind _ (List.mem_cons_self ..) with hforeign | rfl
      · have hsame' := same_of_foreign hforeign (s.thread i).vars s.shared
        rw [← hshared] at hsame'
        exact .pushed i chunks behind ht hrest hothers' (hsame'.reads.trans hreads)
          (hsame'.relayed.trans hrelayed) (hreceived.trans hsame'.received.symm)
      · have hclear := hshared.trans (congrArg Prod.snd Shared.act_clear)
        refine .pushed i chunks behind ht hrest hothers' ?_ ?_ ?_
        · rw [hclear]
          exact hreads
        · rw [hclear]
          exact hrelayed
        · rw [hclear]
          exact hreceived

theorem relay_runs (h : Relay s) {k : ι} (hstep : Mutex.step threads s (.runs k) = some t) :
    Relay t := by
  have hrelay := h
  cases h with
  | rests chunks hothers hreads hrelayed hreceived =>
      exact relay_runs_foreign hrelay hstep (hothers k)
  | pushes i chunks chunk before behind hcode hbefore hbehind hothers hreads hdata hrelayed
      hreceived =>
      by_cases hk : k = i
      · subst hk
        exact relay_runs_pushes hstep hcode hbefore hbehind hothers hreads hdata hrelayed hreceived
      · exact relay_runs_foreign hrelay hstep (hothers k hk)
  | pushed i chunks behind hcode hbehind hothers hreads hrelayed hreceived =>
      by_cases hk : k = i
      · subst hk
        exact relay_runs_pushed hstep hcode hbehind hothers hreads hrelayed hreceived
      · exact relay_runs_foreign hrelay hstep (hothers k hk)

/-- An idle thread takes up something else than a read. -/
theorem relay_begins_foreign (h : Relay s) {k : ι} {code : Code Node}
    (hidle : (s.thread k).code = []) (ht : (t.thread k).code = code)
    (hforeign : ForeignCode code) (hothers : ∀ j, j ≠ k → t.thread j = s.thread j)
    (hsame : s.shared.Same t.shared) : Relay t := by
  refine h.foreign ?_ hsame
  intro j
  by_cases hj : j = k
  · rw [hj, hidle, ht]
    exact .inr ⟨by simp [ForeignCode], hforeign⟩
  · rw [hothers j hj]
    exact .inl rfl

/-- A read completes; it was the only one, and no thread runs `HandleRead`. -/
theorem relay_begins_read (h : Relay s) {k : ι} {error : Bool} {bytes : Bytes}
    {uninitialised : Int}
    (hguard : 0 < s.shared.session.reads ∧ bytes.length ≤ maxLength ∧ (error = true ↔ bytes = []))
    (ht : (t.thread k).code = handleReadCode error bytes.length uninitialised)
    (hothers : ∀ j, j ≠ k → t.thread j = s.thread j)
    (hshared : t.shared = { s.shared with session := s.shared.session.fill bytes }) : Relay t := by
  obtain ⟨hpos, hlength, hempty⟩ := hguard
  cases h with
  | pushes i chunks chunk before behind hcode hbefore hbehind hothers hreads =>
      rw [hreads] at hpos
      cases hpos
  | pushed i chunks behind hcode hbehind hothers hreads =>
      rw [hreads] at hpos
      cases hpos
  | rests chunks hforeign hreads hrelayed hreceived =>
      have hothers' : ∀ j, j ≠ k → ForeignCode (t.thread j).code := by
        intro j hj
        rw [hothers j hj]
        exact hforeign j
      have hreads' : t.shared.session.reads = 0 := by
        rw [hshared]
        exact Nat.sub_eq_zero_of_le hreads
      have hrelayed' : t.shared.relayed = chunks.map Chunk.node := by
        rw [hshared]
        exact hrelayed
      have hreceived' : t.shared.session.received = chunks.flatMap Chunk.bytes ++ bytes := by
        rw [hshared, hreceived]
        rfl
      cases error with
      | true =>
          obtain rfl := hempty.mp rfl
          rw [List.append_nil] at hreceived'
          refine .rests chunks ?_ (by omega) hrelayed' hreceived'.symm
          intro j
          by_cases hj : j = k
          · rw [hj, ht]
            simp [ForeignCode, handleReadCode]
          · exact hothers' j hj
      | false =>
          refine .pushes k chunks ⟨bytes, s.shared.session.data.drop bytes.length, uninitialised,
            hlength⟩ [.lock, .act .check] [.act (.write .data (toInt bytes.length)), .unlock,
            .act .clear] ht ?_ ?_ hothers' hreads' ?_ hrelayed' hreceived'.symm
          · simp [ForeignCode, Foreign]
          · simp [Foreign]
          · rw [hshared]
            rfl

theorem relay_step (h : Relay s) {e : Mutex.Event ι Work Transfer}
    (hstep : Mutex.step threads s e = some t) : Relay t := by
  cases e with
  | runs k => exact relay_runs h hstep
  | env d =>
      obtain ⟨shared, henv, rfl⟩ := Option.map_eq_some_iff.mp hstep
      obtain ⟨u, hu, rfl⟩ := Option.map_eq_some_iff.mp henv
      obtain ⟨op, bytes, -, -, -, -, rfl⟩ := CSession.transfer_cases hu
      exact h.foreign (fun j => .inl rfl) ⟨rfl, rfl, rfl, rfl⟩
  | begins k w =>
      obtain ⟨code, hidle, hbegins, ht, hothers⟩ := Mutex.begins_cases hstep
      cases w with
      | send msg uninitialised =>
          obtain ⟨-, heq⟩ := Option.ite_none_right_eq_some.mp hbegins
          obtain ⟨rfl, hshared⟩ := Prod.mk.inj (Option.some.inj heq)
          refine relay_begins_foreign h hidle ht ?_ hothers ?_
          · simp [ForeignCode, sendCode, Foreign]
          · rw [← hshared]
            exact ⟨rfl, rfl, rfl, rfl⟩
      | readDone error bytes uninitialised =>
          obtain ⟨hguard, heq⟩ := Option.ite_none_right_eq_some.mp hbegins
          obtain ⟨rfl, hshared⟩ := Prod.mk.inj (Option.some.inj heq)
          exact relay_begins_read h hguard ht hothers hshared.symm
      | writeDone index error =>
          simp only [threads, Shared.begins] at hbegins
          split at hbegins
          · cases hbegins
          · obtain ⟨-, heq⟩ := Option.ite_none_right_eq_some.mp hbegins
            obtain ⟨rfl, hshared⟩ := Prod.mk.inj (Option.some.inj heq)
            refine relay_begins_foreign h hidle ht ?_ hothers ?_
            · cases error <;> simp [ForeignCode, handleWriteCode, Foreign]
            · rw [← hshared]
              exact ⟨rfl, rfl, rfl, rfl⟩

/-- So it is in every interleaving of the threads of a session. -/
theorem bytes_relayed (es : List (Mutex.Event ι Work Transfer)) :
    Machine.Throughout (Mutex.step threads) Relayed
      (Mutex.State.init false (Shared.init : Shared ι Node)) es := by
  refine (Machine.throughout_of_step (I := Relay) (fun h hstep => relay_step h hstep) ?_ es).mono
    fun _ h => h.relayed
  refine .rests [] ?_ (Nat.le_refl 1) rfl rfl
  intro j c hc
  cases hc

end Runs

end Relay

/-! ## The two kinds of nodes -/

theorem Chunk.toSize_length (c : Chunk) : toSize (toInt c.bytes.length) = c.bytes.length :=
  toSize_toInt (Nat.lt_of_le_of_lt c.length_le (by decide))

theorem Chunk.node_fullDuplex (c : Chunk) : (c.node : FullDuplex.MsgNode).data = c.bytes := by
  rw [Chunk.node, FullDuplex.make_data, c.toSize_length, List.take_left]

/-- The node of a chunk holds its frame and the byte behind it. -/
theorem Chunk.node_stickyPacks (c : Chunk) :
    (c.node : StickyPacks.MsgNode).data = frame c.bytes ++ [0] := by
  have hle : c.bytes.length ≤ 1024 := c.length_le
  have hnode : (c.node : StickyPacks.MsgNode) = StickyPacks.MsgNode.make (c.bytes ++ c.behind)
      (toInt c.bytes.length) c.uninitialised := rfl
  rw [hnode, toInt_of_lt (by omega), make_eq (by omega), frame_eq (by omega)]
  dsimp only
  rw [List.take_left]

/-- The nodes of `03_full_duplex_server` hold the bytes received and no others. -/
theorem Relayed.fullDuplex {ι : Type} {s : Threads ι FullDuplex.MsgNode} (h : Relayed s) :
    s.shared.relayed.flatMap FullDuplex.MsgNode.data <+: s.shared.session.received := by
  obtain ⟨chunks, hrelayed, hprefix, -⟩ := h.relayed
  have hbytes : (chunks.map Chunk.node).flatMap FullDuplex.MsgNode.data
      = chunks.flatMap Chunk.bytes := by
    rw [List.flatMap_map]
    exact List.flatMap_congr fun c _ => c.node_fullDuplex
  rw [hrelayed, hbytes]
  exact hprefix

/-- Those of `04_sticky_packs` hold the frames of what was received, cut into the chunks of
the reads. -/
theorem Relayed.stickyPacks {ι : Type} {s : Threads ι StickyPacks.MsgNode} (h : Relayed s) :
    ∃ pieces : List Bytes, pieces.flatten <+: s.shared.session.received
      ∧ s.shared.relayed.map StickyPacks.MsgNode.data
        = pieces.map fun piece => frame piece ++ [0] := by
  obtain ⟨chunks, hrelayed, hprefix, -⟩ := h.relayed
  refine ⟨chunks.map Chunk.bytes, ?_, ?_⟩
  · rw [← List.flatMap_def]
    exact hprefix
  · rw [hrelayed, List.map_map, List.map_map]
    refine List.map_congr_left ?_
    intro c _
    rw [Function.comp_apply, Function.comp_apply, c.node_stickyPacks]

end CppNet.Duplex
