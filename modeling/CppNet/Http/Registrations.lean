import CppNet.Http.Server

/-!
# What the registrations decide

`RegGet` and `RegPost` fill two tables, of which requests are answered from the first one
only. So two sequences of registrations whose first `RegGet` for each path is the same make
the same server: in every run the connections read, answer and close alike, whatever else
was registered, and in whatever order (`firstGet_decides`).
-/

namespace CppNet

/-- The table of `RegPost`, replaced. -/
def LogicSystem.withPost (logic : LogicSystem) (post : Handlers) : LogicSystem :=
  { logic with postHandlers := post }

def Exchange.withPost (x : Exchange) (post : Handlers) : Exchange :=
  { x with logic := x.logic.withPost post }

/-- The same outcome, with the table replaced. -/
def outcomeWithPost {α : Type} (withPost : α → Handlers → α) (post : Handlers)
    (r : Except (Fault × Exchange) α) : Except (Fault × Exchange) α :=
  (r.map fun a => withPost a post).mapError fun e => (e.1, e.2.withPost post)

theorem handleGet_withPost (path : Bytes) (x : Exchange) (post : Handlers) :
    handleGet path (x.withPost post)
      = outcomeWithPost (fun r post => (r.1, r.2.withPost post)) post (handleGet path x) := by
  cases hlookup : x.logic.getHandlers.lookup path with
  | none =>
      have hlookup' : (x.withPost post).logic.getHandlers.lookup path = none := hlookup
      rw [handleGet_missing hlookup, handleGet_missing hlookup']
      rfl
  | some handler =>
      have hlookup' : (x.withPost post).logic.getHandlers.lookup path = some handler := hlookup
      rw [handleGet_found hlookup, handleGet_found hlookup']
      have hconn : (x.withPost post).conn = x.conn := rfl
      rw [hconn]
      cases handler x.conn <;> rfl

/-- `HandleReq` does not notice the table of `RegPost`. -/
theorem handleReq_withPost (x : Exchange) (post : Handlers) :
    handleReq (x.withPost post) = outcomeWithPost Exchange.withPost post (handleReq x) := by
  by_cases hget : x.conn.request.method = .get
  · rw [handleReq, handleReq]
    simp only [Exchange.setResponse, Exchange.withPost, hget, if_true]
    generalize preParseGetParam _ = r
    cases r with
    | error f => rfl
    | ok conn =>
        show handleGet conn.getUrl (Exchange.withPost { x with conn } post) >>= _
          = outcomeWithPost _ post (handleGet conn.getUrl { x with conn } >>= _)
        rw [handleGet_withPost]
        cases handleGet conn.getUrl { x with conn } with
        | error f => rfl
        | ok r => obtain ⟨_ | _, y⟩ := r <;> rfl
  · rw [handleReq, handleReq]
    simp only [Exchange.setResponse, Exchange.withPost, hget, if_false]
    rfl

/-- The two tables for GET are the same function of the path. -/
theorem getHandlers_congr {regs regs' : List Registration}
    (h : ∀ path, firstGet regs path = firstGet regs' path) :
    LogicSystem.ofRegistrations regs'
      = (LogicSystem.ofRegistrations regs).withPost
        (LogicSystem.ofRegistrations regs').postHandlers := by
  have hget : (LogicSystem.ofRegistrations regs').getHandlers
      = (LogicSystem.ofRegistrations regs).getHandlers := by
    refine Finmap.ext_lookup fun path => ?_
    rw [lookup_ofRegistrations, lookup_ofRegistrations, h path]
  rw [LogicSystem.withPost, ← hget]

namespace Http

theorem readCallback_withPost (logic : LogicSystem) (post : Handlers) (c : Connection)
    (request : Option Request) :
    Connection.readCallback (logic.withPost post) c request
      = (Connection.readCallback logic c request).map fun r => (r.1.withPost post, r.2) := by
  cases request with
  | none => rfl
  | some request =>
      have hexchange : c.exchange (logic.withPost post) request
          = (c.exchange logic request).withPost post := rfl
      rw [Connection.readCallback, Connection.readCallback, hexchange, handleReq_withPost]
      cases handleReq (c.exchange logic request) with
      | ok x => rfl
      | error e =>
          obtain ⟨f, x⟩ := e
          cases f <;> rfl

section Runs

variable {U : Type} [DecidableEq U]

def CServer.withPost (s : CServer U) (post : Handlers) : CServer U :=
  { s with logic := s.logic.withPost post }

theorem step_withPost (post : Handlers) (s : CServer U) (e : Event U) :
    (s.withPost post).step e = (s.step e).map fun t => t.withPost post := by
  obtain ⟨logic, connection, created, accepts⟩ := s
  show CServer.step ⟨logic.withPost post, connection, created, accepts⟩ e = _
  cases e with
  | accept outcome =>
      simp only [CServer.step]
      by_cases hguard : 0 < accepts ∧ ∀ u ∈ created, outcome ≠ .connected u
      · rw [if_pos hguard, if_pos hguard]
        cases outcome <;> rfl
      · rw [if_neg hguard, if_neg hguard]
        rfl
  | readDone u request =>
      simp only [CServer.step, readCallback_withPost]
      by_cases hguard : 0 < (connection u).reads ∧ ((connection u).closed = true → request = none)
      · rw [if_pos hguard, if_pos hguard]
        generalize Connection.readCallback logic _ request = r
        cases r <;> rfl
      · rw [if_neg hguard, if_neg hguard]
        rfl
  | writeDone u =>
      simp only [CServer.step]
      by_cases hnone : (connection u).writes = []
      · rw [if_pos hnone, if_pos hnone]
        rfl
      · rw [if_neg hnone, if_neg hnone]
        rfl
  | expire u =>
      simp only [CServer.step]
      by_cases hwaits : 0 < (connection u).waits
      · rw [if_pos hwaits, if_pos hwaits]
        rfl
      · rw [if_neg hwaits, if_neg hwaits]
        rfl
  | cancelled u error =>
      simp only [CServer.step]
      by_cases hcancelled : 0 < (connection u).cancelled
      · rw [if_pos hcancelled, if_pos hcancelled]
        rfl
      · rw [if_neg hcancelled, if_neg hcancelled]
        rfl

/-- Where the first `RegGet` of each path is the same, the runs are the same, up to the table
of `RegPost` that they carry along. -/
theorem firstGet_decides {regs regs' : List Registration}
    (h : ∀ path, firstGet regs path = firstGet regs' path) (es : List (Event U)) :
    Machine.exec CServer.step (CServer.new (.ofRegistrations regs')).start es
      = (Machine.exec CServer.step (CServer.new (.ofRegistrations regs)).start es).map
        fun t => t.withPost (LogicSystem.ofRegistrations regs').postHandlers := by
  rw [getHandlers_congr h]
  exact Machine.exec_map (step_withPost _) (CServer.new (.ofRegistrations regs)).start es

/-- A POST handler for the same path, and a second GET handler. -/
theorem firstGet_decides_twice :
    let once : List Registration := [.get [47] .ok]
    let more : List Registration :=
      [.post [47] emptyFunction, .get [47] .ok, .get [47] emptyFunction]
    let es : List (Event Nat) := [.accept (.connected 0),
      .readDone 0 (some { method := .get, target := [47] })]
    Machine.exec CServer.step (CServer.new (.ofRegistrations once)).start es
      = (Machine.exec CServer.step (CServer.new (.ofRegistrations more)).start es).map
        fun t => t.withPost (LogicSystem.ofRegistrations once).postHandlers := by
  intro once more es
  refine firstGet_decides ?_ es
  intro path
  by_cases hpath : [47] = path <;> simp [once, more, firstGet, hpath]

end Runs

end Http

end CppNet
