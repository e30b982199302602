import CppNet.Lib.Mutex
import CppNet.Duplex.Schedule

/-!
# Sessions and their threads

`Send` and `HandleWrite` hold `send_mtx_` while they work on the send queue, so that any
thread may call `Send` while others run the callbacks. Here a function is the list of its
steps, any number of threads run them, and the steps of one come between those of
another. What the source does outside of the critical sections is outside of them here:
the completion of a write is taken up before its `HandleWrite` gets the mutex, and
`HandleRead` clears `data_` after its `Send` has given the mutex back.

A session by itself is the case of one thread that is never interrupted (`one_thread`).
-/

namespace CppNet.Duplex

open Mutex (Instr)

section Threads

variable {ι Node : Type}

/-! ## Code -/

/-- The steps of the functions; `check` sets `pending`. -/
inductive Action (Node : Type)
  | check
  | push (msg : Ptr Node) (maxLength uninitialised : Int)
  | write (msg : Ptr Node) (maxLength : Int)
  | pop
  | next
  | clear
  | read
deriving Repr, DecidableEq

abbrev Code (Node : Type) := List (Instr (Action Node))

def sendCode (msg : Ptr Node) (maxLength uninitialised : Int) : Code Node :=
  [.lock, .act .check, .act (.push msg maxLength uninitialised), .act (.write msg maxLength),
    .unlock]

def handleWriteCode (error : Bool) : Code Node :=
  if error then [] else [.lock, .act .pop, .act .next, .unlock]

def handleReadCode (error : Bool) (bytesTransferred : Nat) (uninitialised : Int) : Code Node :=
  if error then []
  else sendCode .data (toInt bytesTransferred) uninitialised ++ [.act .clear, .act .read]

section Exec

variable [MessageNode Node]

/-- What a step does to `pending` and to the session. -/
def Action.exec (a : Action Node) (pending : Bool) (s : CSession Node) :
    Bool × CSession Node :=
  match a with
  | .check => (0 < s.sendQueue.length, s)
  | .push msg maxLength uninitialised =>
      (pending, { s with
        sendQueue := s.sendQueue ++ [MessageNode.make (s.mem msg) maxLength uninitialised]
        sent := s.sent ++ [(s.mem msg).take (toSize maxLength)] })
  | .write msg maxLength =>
      (pending, if pending then s else s.asyncWrite msg (toSize maxLength))
  | .pop =>
      (pending, match s.sendQueue with
        | [] => { s with broken := true }
        | _ :: rest => { s with sendQueue := rest })
  | .next =>
      (pending, match s.sendQueue with
        | [] => s
        | node :: _ => s.asyncWrite (.node node) (toSize (MessageNode.maxLen node)))
  | .clear => (pending, { s with data := List.replicate maxLength 0 })
  | .read => (pending, s.asyncReadSome)

/-- The call of `Send` a step makes, once it has the mutex. -/
def Action.calls (a : Action Node) (s : CSession Node) : List (Call Node) :=
  match a with
  | .push msg maxLength uninitialised =>
      [⟨msg, MessageNode.make (s.mem msg) maxLength uninitialised⟩]
  | _ => []

end Exec

/-- A session with its history, and the completed write whose node a thread is about to
pop. -/
structure Shared (ι Node : Type) where
  session : CSession Node
  history : History Node
  taken : Option (ι × WriteOp Node)
deriving Repr, DecidableEq

def Shared.init : Shared ι Node := ⟨CSession.started, ⟨[], [], false⟩, none⟩

abbrev Threads (ι Node : Type) := Mutex.State ι (Action Node) Bool (Shared ι Node)

/-- What a thread takes up: a call of `Send`, or the completion of a read or of the write
at `index`. -/
inductive Work
  | send (msg : Bytes) (uninitialised : Int)
  | readDone (error : Bool) (bytes : Bytes) (uninitialised : Int)
  | writeDone (index : Nat) (error : Bool)
deriving Repr, DecidableEq

section Program

variable [MessageNode Node]

def Shared.act (a : Action Node) (pending : Bool) (x : Shared ι Node) : Bool × Shared ι Node :=
  let (pending, t) := a.exec pending x.session
  (pending,
    { session := t
      history := { x.history with
        calls := x.history.calls ++ a.calls x.session
        started := x.history.started ++ startedBy x.session t }
      taken := match a with
        | .pop => none
        | _ => x.taken })

def Shared.begins (i : ι) (w : Work) (x : Shared ι Node) : Option (Code Node × Shared ι Node) :=
  match w with
  | .send msg uninitialised =>
      if msg.length < 2 ^ 31 then
        some (sendCode (.caller msg) msg.length uninitialised, x)
      else none
  | .readDone error bytes uninitialised =>
      if 0 < x.session.reads ∧ bytes.length ≤ maxLength ∧ (error = true ↔ bytes = []) then
        some (handleReadCode error bytes.length uninitialised,
          { x with session := x.session.fill bytes })
      else none
  | .writeDone index error =>
      match x.session.writes[index]? with
      | none => none
      | some op =>
          if error = false → op.done = op.size then
            some (handleWriteCode error,
              { session := { x.session with writes := x.session.writes.eraseIdx index }
                history := { x.history with failed := x.history.failed || error }
                taken := if error then x.taken else some (i, op) })
          else none

def Shared.transfer (x : Shared ι Node) (d : Transfer) : Option (Shared ι Node) :=
  (x.session.transfer d).map fun session => { x with session }

/-- The threads of a session. -/
def threads : Mutex.Program ι (Action Node) Bool (Shared ι Node) Work Transfer where
  act := Shared.act
  begins := Shared.begins
  env d x := x.transfer d

/-! ## Steps -/

/-- `Send` pushes its node, and starts the write unless one is pending. -/
theorem send_eq_exec (s : CSession Node) (msg : Ptr Node) (n uninitialised : Int) :
    s.send msg n uninitialised = ((Action.write msg n).exec (0 < s.sendQueue.length)
      ((Action.push msg n uninitialised).exec (0 < s.sendQueue.length) s).2).2 := by
  by_cases hpending : 0 < s.sendQueue.length
  · simp only [CSession.send, Action.exec, hpending, if_true, decide_true]
  · simp only [CSession.send, Action.exec, hpending, if_false, decide_false, Bool.false_eq_true]

theorem handleWrite_eq_exec (pending : Bool) (s : CSession Node) : s.handleWrite false
    = ((Action.next.exec pending (Action.pop.exec pending s).2).2, false) := by
  cases hqueue : s.sendQueue with
  | nil => simp [CSession.handleWrite, Action.exec, hqueue]
  | cons front rest => cases rest <;> simp [CSession.handleWrite, Action.exec, hqueue]

namespace Shared

variable {x y : Shared ι Node} {pending : Bool}

theorem act_check : x.act .check pending = (decide (0 < x.session.sendQueue.length), x) := by
  simp only [act, Action.exec, Action.calls, startedBy_of_same, List.append_nil]

theorem act_pop {node : Node} {rest : List Node} (h : x.session.sendQueue = node :: rest) :
    x.act .pop pending =
      (pending, { x with session := { x.session with sendQueue := rest }, taken := none }) := by
  simp only [act, Action.exec, Action.calls, h, startedBy_of_same, List.append_nil]

theorem act_clear : x.act .clear pending =
    (pending, { x with session := { x.session with data := List.replicate maxLength 0 } }) := by
  simp only [act, Action.exec, Action.calls, startedBy_of_same, List.append_nil]

theorem act_read : x.act .read pending =
    (pending, { x with session := x.session.asyncReadSome }) := by
  simp only [act, Action.exec, Action.calls, startedBy_of_same, CSession.asyncReadSome,
    List.append_nil]

end Shared

end Program

variable [MessageNode Node]

/-! ## Code that is left alone -/

theorem effect_sendCode {y : Shared ι Node} (msg : Ptr Node) (n uninitialised : Int)
    (pending : Bool) :
    (threads.effect (sendCode msg n uninitialised) (pending, y)).2.session
      = y.session.send msg n uninitialised := by
  rw [send_eq_exec]
  rfl

theorem effect_handleWriteCode {y : Shared ι Node} (pending : Bool) :
    (threads.effect (handleWriteCode false) (pending, y)).2.session
      = (y.session.handleWrite false).1 := by
  rw [handleWrite_eq_exec pending]
  rfl

variable [DecidableEq ι]

/-! ## One thread -/

def Moves (x y : Threads ι Node) : Prop := ∃ e, Mutex.step threads x e = some y

/-- All threads are idle. -/
structure Idle (s : CSession Node) (x : Threads ι Node) : Prop where
  holder : x.holder = none
  code : ∀ i, (x.thread i).code = []
  session : x.shared.session = s

section OneThread

variable {s t : CSession Node} {x : Threads ι Node}
  {code rest : Code Node} {y : Shared ι Node}

/-- A thread takes something up and runs the first part of its code. -/
theorem Idle.runs (h : Idle s x) (i : ι) {w : Work}
    (hbegins : x.shared.begins i w = some (code ++ rest, y))
    (hpaired : Mutex.paired false code = true) :
    ∃ es z, Machine.exec (Mutex.step threads) x es = some z ∧ z.holder = none
      ∧ (z.thread i).code = rest ∧ (∀ j, j ≠ i → (z.thread j).code = [])
      ∧ z.shared = (threads.effect code ((x.thread i).vars, y)).2 := by
  have hstep : Mutex.step threads x (.begins i w)
      = some { x.put i (code ++ rest) (x.thread i).vars with shared := y } := by
    simp only [Mutex.step, if_pos (h.code i)]
    exact congrArg (Option.map _) hbegins
  have hself : (x.put i (code ++ rest) (x.thread i).vars).thread i
      = ⟨code ++ rest, (x.thread i).vars⟩ := Mutex.put_self ..
  obtain ⟨z, hrun, hnone, hrest, hothers, hshared⟩ := Mutex.exec_alone (P := threads)
    (s := { x.put i (code ++ rest) (x.thread i).vars with shared := y })
    (congrArg Mutex.Thread.code hself) hpaired h.holder
  refine ⟨_, z, Machine.exec_cons_eq_some.mpr ⟨_, hstep, hrun⟩, hnone, hrest, ?_, ?_⟩
  · intro j hj
    rw [hothers j hj]
    exact (congrArg Mutex.Thread.code (Mutex.put_of_ne x hj _ _)).trans (h.code j)
  · rw [hshared, hself]

/-- Nobody comes between. -/
theorem Idle.runs_all (h : Idle s x) {i : ι} {w : Work}
    (hbegins : x.shared.begins i w = some (code, y)) (hpaired : Mutex.paired false code = true)
    (heffect : ∀ pending, (threads.effect code (pending, y)).2.session = t) :
    ∃ es z, Machine.exec (Mutex.step threads) x es = some z ∧ Idle t z := by
  have hbegins' : x.shared.begins i w = some (code ++ [], y) := by
    rw [List.append_nil]
    exact hbegins
  obtain ⟨es, z, hrun, hnone, hrest, hothers, hshared⟩ := h.runs i hbegins' hpaired
  refine ⟨es, z, hrun, hnone, ?_, ?_⟩
  · intro j
    by_cases hj : j = i
    · rw [hj, hrest]
    · exact hothers j hj
  · rw [hshared]
    exact heffect _

theorem Idle.step_writeDone (h : Idle s x) (i : ι) {index : Nat} {error : Bool}
    {r : CSession Node × Bool} (hr : s.complete (.writeDone index error) = some r) :
    ∃ es z, Machine.exec (Mutex.step threads) x es = some z ∧ Idle r.1 z := by
  obtain ⟨op, hop, hdone, rfl⟩ := CSession.writeDone_cases hr
  have hbegins : x.shared.begins i (.writeDone index error) = some (handleWriteCode error,
      { session := { s with writes := s.writes.eraseIdx index }
        history := { x.shared.history with failed := x.shared.history.failed || error }
        taken := if error then x.shared.taken else some (i, op) }) := by
    simp only [Shared.begins, h.session, hop]
    exact if_pos hdone
  cases error with
  | true => exact h.runs_all hbegins rfl fun _ => rfl
  | false => exact h.runs_all hbegins rfl effect_handleWriteCode

/-- Bytes of a write go out. -/
theorem exec_inWindow {z : Threads ι Node}
    (window : Option Transfer) (hwindow : z.shared.session.inWindow window = some t) :
    Machine.exec (Mutex.step threads) z (window.toList.map .env)
      = some { z with shared := { z.shared with session := t } } := by
  rcases CSession.inWindow_cases hwindow with ⟨rfl, rfl⟩ | ⟨d, rfl, hd⟩
  · rfl
  · refine Machine.exec_cons_eq_some.mpr ⟨_, ?_, rfl⟩
    simp only [Mutex.step, threads, Shared.transfer, hd, Option.map_some]

/-- `HandleRead` runs its `Send`, then bytes of a write may go out, then it runs the rest. -/
theorem Idle.step_readDone (h : Idle s x) (i : ι) {error : Bool} {bytes : Bytes}
    {uninitialised : Int} {window : Option Transfer} {r : CSession Node × Bool}
    (hr : s.complete (.readDone error bytes uninitialised window) = some r) :
    ∃ es z, Machine.exec (Mutex.step threads) x es = some z ∧ Idle r.1 z := by
  obtain ⟨hguard, hread⟩ := Option.ite_none_right_eq_some.mp hr
  have hbegins : x.shared.begins i (.readDone error bytes uninitialised)
      = some (handleReadCode error bytes.length uninitialised,
        { x.shared with session := s.fill bytes }) := by
    simp only [Shared.begins, h.session]
    exact if_pos hguard
  cases error with
  | true =>
      cases hread
      exact h.runs_all hbegins rfl fun _ => rfl
  | false =>
      obtain ⟨u, -, hwindow, rfl⟩ := CSession.readDone_cases hr
      obtain ⟨es, z, hrun, hnone, hrest, hothers, hshared⟩ := h.runs i hbegins rfl
      rw [← effect_sendCode (y := { x.shared with session := s.fill bytes }) _ _ _
        (x.thread i).vars, ← hshared] at hwindow
      obtain ⟨z', hrun', hnone', hrest', hothers', hshared'⟩ := Mutex.exec_alone (P := threads)
        (s := { z with shared := { z.shared with session := u } })
        (hrest.trans (List.append_nil _).symm) (show Mutex.paired false _ = true from rfl) hnone
      refine ⟨_, z', Machine.exec_append.mpr ⟨z, hrun, Machine.exec_append.mpr
        ⟨_, exec_inWindow window hwindow, hrun'⟩⟩, hnone', ?_, ?_⟩
      · intro j
        by_cases hj : j = i
        · rw [hj, hrest']
        · rw [hothers' j hj]
          exact hothers j hj
      · rw [hshared']
        rfl

/-- What the session does in a step, a thread does by itself. -/
theorem simulates_one_thread (i : ι) :
    Machine.Simulates step (fun _ _ => True) Idle (Moves : _ → Threads ι Node → Prop) := by
  rintro s e t x - hidle hstep
  suffices ∃ es z, Machine.exec (Mutex.step threads) x es = some z ∧ Idle t z by
    obtain ⟨es, z, hrun, hz⟩ := this
    exact ⟨z, Machine.reflTransGen_of_exec hrun, hz⟩
  rcases step_cases hstep with ⟨msg, uninitialised, rfl, hmsg, rfl⟩ | ⟨c, r, rfl, hr, rfl⟩
  · obtain rfl := hidle.session
    exact hidle.runs_all (i := i) (w := .send msg uninitialised) (if_pos hmsg) rfl
      (effect_sendCode _ _ _)
  · cases c with
    | readDone error bytes uninitialised window => exact hidle.step_readDone i hr
    | transfer d =>
        obtain ⟨t, ht, rfl⟩ := Option.map_eq_some_iff.mp hr
        obtain rfl := hidle.session
        exact ⟨_, _, exec_inWindow (some d) ht, hidle.holder, hidle.code, rfl⟩
    | writeDone index error => exact hidle.step_writeDone i hr

/-- So the states a session reaches are among those its threads reach. -/
theorem one_thread (i : ι) (es : List Event) :
    Machine.Throughout step (fun s : CSession Node => ∃ x : Threads ι Node,
      Relation.ReflTransGen Moves (Mutex.State.init false Shared.init) x ∧ Idle s x)
      CSession.started es :=
  Machine.refines_throughout (simulates_one_thread i)
    (Machine.along_of_forall (fun _ _ _ => trivial) _) ⟨rfl, fun _ => rfl, rfl⟩

end OneThread

end Threads

end CppNet.Duplex
