import Mathlib.Logic.Function.Basic
import CppNet.Lib.Machine
import CppNet.Lib.Pipeline

/-!
# Two parties with a stream each way

Two machines of one kind at the ends of a connection. Each keeps what it has sent and what
it has received; a step that adds to the former sends the addition on, and a step that
receives something takes it from the front of what has arrived. A `Party` has the two
facts about its machine that this depends on.

Nothing is lost, doubled or put in another order on the way: what one party has sent is
what the other has received, with what is under way behind it (`conserved_step`). For each
party the run is one of its own machine (`exec_party`).
-/

namespace Connected

open Pipeline (Channel)

structure Party (σ ε α : Type*) where
  step : σ → ε → Option σ
  sent : σ → List α
  received : σ → List α
  /-- What an event receives. -/
  takes : ε → List α
  sent_step : ∀ {s e t}, step s e = some t → sent s <+: sent t
  received_step : ∀ {s e t}, step s e = some t → received t = received s ++ takes e

inductive Side
  | left | right
deriving Repr, DecidableEq

def Side.other : Side → Side
  | .left => .right
  | .right => .left

@[simp] theorem Side.other_other (x : Side) : x.other.other = x := by cases x <;> rfl

@[simp] theorem Side.other_ne (x : Side) : x.other ≠ x := by cases x <;> decide

theorem Side.eq_or_other (x y : Side) : y = x ∨ y = x.other := by cases x <;> cases y <;> decide

variable {σ ε α : Type*}

/-- The parties, and what is under way from each of them to the other. -/
structure State (σ α : Type*) where
  party : Side → σ
  channel : Side → Channel α

def State.init (s : σ) : State σ α := ⟨fun _ => s, fun _ => {}⟩

inductive Event (ε : Type*)
  | does (x : Side) (e : ε)
  | delivers (x : Side) (count : Nat)
deriving Repr, DecidableEq

/-- What an event is to the party at `x`. -/
def eventOf (x : Side) : Event ε → Option ε
  | .does y e => if y = x then some e else none
  | .delivers .. => none

variable {P : Party σ ε α} {s t : State σ α}

/-! ## What is under way -/

/-- What a party has sent is received, has arrived or is in flight. -/
def Conserved (P : Party σ ε α) (s : State σ α) : Prop :=
  ∀ x : Side, P.sent (s.party x)
    = P.received (s.party x.other) ++ (s.channel x).arrived ++ (s.channel x).flight

theorem Conserved.received_prefix (h : Conserved P s) (x : Side) :
    P.received (s.party x.other) <+: P.sent (s.party x) := by
  rw [h x, List.append_assoc]
  exact List.prefix_append _ _

theorem Conserved.received_eq (h : Conserved P s) {x : Side} (hempty : (s.channel x).IsEmpty) :
    P.received (s.party x.other) = P.sent (s.party x) := by
  rw [h x, hempty.1, hempty.2, List.append_nil, List.append_nil]

/-! ## Steps -/

variable [BEq α]

def step (P : Party σ ε α) (s : State σ α) : Event ε → Option (State σ α)
  | .does x e =>
      (P.step (s.party x) e).bind fun t =>
        ((s.channel x.other).receive (P.takes e)).map fun incoming =>
          { party := Function.update s.party x t
            channel := Function.update (Function.update s.channel x.other incoming) x
              ((s.channel x).send ((P.sent t).drop (P.sent (s.party x)).length)) }
  | .delivers x count =>
      ((s.channel x).deliver count).map fun c =>
        { s with channel := Function.update s.channel x c }

/-- A party takes a step, in which it sends `piece` and receives what the event takes. -/
theorem does_cases [LawfulBEq α] {x : Side} {e : ε} (hstep : step P s (.does x e) = some t) :
    ∃ piece, P.step (s.party x) e = some (t.party x) ∧ t.party x.other = s.party x.other
      ∧ P.sent (t.party x) = P.sent (s.party x) ++ piece
      ∧ P.received (t.party x) = P.received (s.party x) ++ P.takes e
      ∧ t.channel x = (s.channel x).send piece
      ∧ (s.channel x.other).arrived = P.takes e ++ (t.channel x.other).arrived
      ∧ (t.channel x.other).flight = (s.channel x.other).flight := by
  obtain ⟨u, hu, hrest⟩ := Option.bind_eq_some_iff.mp hstep
  obtain ⟨incoming, hincoming, rfl⟩ := Option.map_eq_some_iff.mp hrest
  obtain ⟨piece, hpiece⟩ := P.sent_step hu
  obtain ⟨harrived, hflight⟩ := Channel.receive_cases hincoming
  refine ⟨piece, ?_, Function.update_of_ne x.other_ne .., ?_⟩
  · simpa only [Function.update_self] using hu
  · simp only [Function.update_self, Function.update_of_ne x.other_ne]
    rw [← hpiece, List.drop_left]
    exact ⟨rfl, P.received_step hu, rfl, harrived, hflight⟩

/-- A piece of what is in flight arrives. -/
theorem delivers_cases {x : Side} {count : Nat}
    (hstep : step P s (.delivers x count) = some t) :
    ∃ piece, t.party = s.party ∧ (s.channel x).flight = piece ++ (t.channel x).flight
      ∧ (t.channel x).arrived = (s.channel x).arrived ++ piece
      ∧ t.channel x.other = s.channel x.other := by
  obtain ⟨c, hc, rfl⟩ := Option.map_eq_some_iff.mp hstep
  obtain ⟨piece, -, hflight, harrived⟩ := Channel.deliver_cases hc
  refine ⟨piece, rfl, ?_, ?_, Function.update_of_ne x.other_ne ..⟩
  · simpa only [Function.update_self] using hflight
  · simpa only [Function.update_self] using harrived

theorem conserved_step [LawfulBEq α] {e : Event ε} (h : Conserved P s)
    (hstep : step P s e = some t) : Conserved P t := by
  cases e with
  | does x e =>
      obtain ⟨piece, -, hother, hsent, hreceived, hchannel, harrived, hflight⟩ := does_cases hstep
      intro y
      rcases x.eq_or_other y with rfl | rfl
      · rw [hsent, hother, hchannel, h y, List.append_assoc _ _ piece]
        rfl
      · rw [hother, h x.other, Side.other_other, hreceived, hflight, harrived]
        simp only [List.append_assoc]
  | delivers x count =>
      obtain ⟨piece, hparty, hflight, harrived, hother⟩ := delivers_cases hstep
      intro y
      rw [hparty, h y]
      rcases x.eq_or_other y with rfl | rfl
      · rw [hflight, harrived]
        simp only [List.append_assoc]
      · rw [hother]

/-! ## Runs -/

theorem conserved_run [LawfulBEq α] {es : List (Event ε)} (h : Conserved P s)
    (hrun : Machine.exec (step P) s es = some t) : Conserved P t :=
  (Machine.throughout_of_step conserved_step h es).last hrun

/-- A run of the connection is, for each party, a run of its own. -/
theorem exec_party [LawfulBEq α] {es : List (Event ε)} (x : Side)
    (hrun : Machine.exec (step P) s es = some t) :
    Machine.exec P.step (s.party x) (es.filterMap (eventOf x)) = some (t.party x) := by
  refine Machine.exec_member (fun s : State σ α => s.party x) (eventOf x) (I := fun _ => True)
    ?_ trivial hrun
  intro s e t _ hstep
  refine ⟨trivial, ?_⟩
  cases e with
  | does y e =>
      obtain ⟨piece, hown, hother, -⟩ := does_cases hstep
      rcases x.eq_or_other y with rfl | rfl
      · rw [eventOf, if_pos rfl]
        exact Machine.exec_cons_eq_some.mpr ⟨_, hown, rfl⟩
      · rw [eventOf, if_neg x.other_ne]
        rw [Side.other_other] at hother
        exact congrArg some hother.symm
  | delivers y count =>
      obtain ⟨piece, hparty, -⟩ := delivers_cases hstep
      exact congrArg (fun party => some (party x)) hparty.symm

/-! ## Progress -/

theorem does_isSome [LawfulBEq α] {x : Side} {e : ε} (hown : (P.step (s.party x) e).isSome)
    {rest : List α} (harrived : (s.channel x.other).arrived = P.takes e ++ rest) :
    (step P s (.does x e)).isSome := by
  obtain ⟨t, ht⟩ := Option.isSome_iff_exists.mp hown
  have hreceive : (s.channel x.other).receive (P.takes e)
      = some ⟨(s.channel x.other).flight, rest⟩ := by
    rw [← Channel.receive_append (P.takes e), ← harrived]
  rw [step, ht, hreceive]
  rfl

theorem delivers_isSome {x : Side} (hflight : (s.channel x).flight ≠ []) :
    (step P s (.delivers x 1)).isSome := by
  obtain ⟨c, hc⟩ := Channel.deliver_of_flight hflight
  rw [step, hc]
  rfl

end Connected
