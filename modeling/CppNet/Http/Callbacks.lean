import CppNet.Http.Dispatch

/-!
# The callbacks of an HTTP connection

`HttpConnection` with the operations boost::asio holds for it, and the callbacks
`Start`, `WriteResponse` and `CheckDeadline` install. The read callback runs
`HandleReq` and then arms the timer, inside a `try` that swallows exceptions.

`HandleReq` starts the write of the response in its branch for GET; behind that
branch there is nothing, though `RegPost` fills a table for other requests and
an unknown GET is answered with an error. So a request that was read is answered
exactly if its method is GET (`one_response_iff`).
-/

namespace CppNet.Http

/-- The members request handling works on, and what boost::asio holds: outstanding
`async_read`s, the responses of outstanding `async_write`s, outstanding waits on
`deadline_`, and the waits that were cancelled and whose callback has not run yet.
`selves` is the use count of the `shared_ptr`s to the connection. `closed`: the socket has
been closed. -/
structure Connection where
  http : HttpConnection
  reads : Nat
  writes : List Response
  waits : Nat
  cancelled : Nat
  selves : Nat
  closed : Bool

namespace Connection

/-- A connection as its constructor leaves it. -/
def new : Connection where
  http := .fresh { method := .unknown, target := [] }
  reads := 0
  writes := []
  waits := 0
  cancelled := 0
  selves := 0
  closed := false

/-- A `shared_ptr` to the connection is made, which somebody keeps. -/
def hold (c : Connection) : Connection := { c with selves := c.selves + 1 }

/-- A `shared_ptr` to the connection goes; the last one takes the object with it. -/
def release (c : Connection) : Connection := { c with selves := c.selves - 1 }

/-! Each callback captures a copy of `self`, which goes when the callback has run. -/

def start (c : Connection) : Connection := { c.hold with reads := c.reads + 1 }

def checkDeadline (c : Connection) : Connection := { c.hold with waits := c.waits + 1 }

/-- `WriteResponse` starts the write of `response`. -/
def asyncWrite (c : Connection) (response : Response) : Connection :=
  { c.hold with writes := c.writes ++ [response] }

/-- What the read callback finds when `request` has been read into the connection. -/
def exchange (c : Connection) (logic : LogicSystem) (request : Request) : Exchange where
  logic := logic
  conn := { c.http with request }

/-- What `HandleReq` leaves, whether or not it returns. -/
def handled (c : Connection) (x : Exchange) : Connection :=
  x.writes.foldl asyncWrite { c with http := x.conn }

/-- The callback of the read; `request` is `none` if `ec` is set. -/
def readCallback (logic : LogicSystem) (c : Connection) (request : Option Request) :
    Except Fault (LogicSystem × Connection) :=
  match request with
  | none => .ok (logic, c)
  | some request =>
      match handleReq (c.exchange logic request) with
      | .ok x => .ok (x.logic, checkDeadline (c.handled x))
      -- the exception is caught behind `CheckDeadline`
      | .error (.exception, x) => .ok (x.logic, c.handled x)
      | .error (f, _) => .error f

/-- The callback of the write, which disregards `ec`: the waits are cancelled. -/
def writeCallback (c : Connection) : Connection :=
  { c with waits := 0, cancelled := c.cancelled + c.waits }

/-- The callback of a wait. -/
def deadlineCallback (c : Connection) (error : Bool) : Connection :=
  if error then c else { c with closed := true }

end Connection

/-! ## Answers -/

theorem handleReq_of_not_get (logic : LogicSystem) {request : Request}
    (hmethod : request.method ≠ .get) :
    ∃ x, handleReq (.start logic request) = .ok x ∧ x.writes = [] := by
  rw [handleReq]
  simp only [Exchange.start, Exchange.setResponse, HttpConnection.fresh, hmethod, if_false]
  exact ⟨_, rfl, rfl⟩

/-- No handler starts a write, whether it returns or throws. -/
theorem handleGet_writes (path : Bytes) (x : Exchange) :
    (∀ success y, handleGet path x = .ok (success, y) → y.writes = x.writes)
      ∧ ∀ f y, handleGet path x = .error (f, y) → y.writes = x.writes := by
  constructor
  · intro success y h
    cases hlookup : x.logic.getHandlers.lookup path with
    | none =>
        rw [handleGet_missing hlookup] at h
        cases h
        rfl
    | some handler =>
        rw [handleGet_found hlookup] at h
        split at h
        · cases h
          rfl
        · cases h
  · intro f y h
    cases hlookup : x.logic.getHandlers.lookup path with
    | none =>
        rw [handleGet_missing hlookup] at h
        cases h
    | some handler =>
        rw [handleGet_found hlookup] at h
        split at h
        · cases h
        · cases h
          rfl

/-- Whatever the request, at most one write is started. -/
theorem handleReq_writes {x y : Exchange} (h : handleReq x = .ok y) :
    y.writes = x.writes ∨ ∃ response, y.writes = x.writes ++ [response] := by
  rw [handleReq] at h
  split at h
  · dsimp only [bind, Except.bind] at h
    split at h
    · cases h
    rename_i conn hparse
    split at h
    · cases h
    rename_i r hget
    obtain ⟨success, z⟩ := r
    have hwrites := (handleGet_writes _ _).1 _ _ hget
    right
    split at h
    · cases h
      exact ⟨_, congrArg (· ++ [_]) hwrites⟩
    · cases h
      exact ⟨_, congrArg (· ++ [_]) hwrites⟩
  · cases h
    exact .inl rfl

/-- The write is the last thing that is started, and behind everything that can fail. -/
theorem handleReq_error_writes {x y : Exchange} {f : Fault} (h : handleReq x = .error (f, y)) :
    y.writes = x.writes := by
  rw [handleReq] at h
  split at h
  · rcases bind_eq_error.mp h with hparse | ⟨conn, -, h⟩
    · obtain ⟨f', -, heq⟩ := mapError_eq_error.mp hparse
      cases heq
      rfl
    · rcases bind_eq_error.mp h with hget | ⟨r, -, h⟩
      · have hwrites := (handleGet_writes _ _).2 _ _ hget
        exact hwrites
      · obtain ⟨success, z⟩ := r
        dsimp only at h
        split at h <;> cases h
  · cases h

/-- What the read callback does with the connection: nothing, if there was an error; or the
request is handled, with the timer armed unless there was an exception, and one write at
most. -/
theorem readCallback_cases {logic logic' : LogicSystem} {c c' : Connection}
    {request : Option Request}
    (h : Connection.readCallback logic c request = .ok (logic', c')) :
    ∃ http, c' = { c with http } ∨ c' = Connection.checkDeadline { c with http }
      ∨ ∃ response, c' = Connection.checkDeadline
          (Connection.asyncWrite { c with http } response) := by
  unfold Connection.readCallback at h
  split at h
  · cases h
    exact ⟨c.http, .inl rfl⟩
  · split at h
    · rename_i x hx
      cases h
      refine ⟨x.conn, .inr ?_⟩
      rcases handleReq_writes hx with hnone | ⟨response, hone⟩
      · refine .inl ?_
        rw [Connection.handled, hnone]
        rfl
      · refine .inr ⟨response, ?_⟩
        rw [Connection.handled, hone]
        rfl
    · rename_i x hx
      cases h
      refine ⟨x.conn, .inl ?_⟩
      rw [Connection.handled, handleReq_error_writes hx]
      rfl
    · cases h

theorem respond_writes (r : Bool × Exchange) :
    ∃ response, (respond r).writes = r.2.writes ++ [response] := by
  obtain ⟨success, x⟩ := r
  cases success <;> exact ⟨_, rfl⟩

/-- Where the handlers return, so does the dispatch, whether or not it finds one. -/
theorem handleGet_returns {regs : List Registration} (hret : ∀ reg ∈ regs, reg.Returns)
    (path : Bytes) {x : Exchange} (hlogic : x.logic = .ofRegistrations regs) :
    ∃ r, handleGet path x = .ok r := by
  have hlookup := lookup_ofRegistrations regs path
  rw [← hlogic] at hlookup
  cases hfirst : firstGet regs path with
  | none =>
      rw [hfirst] at hlookup
      exact ⟨_, handleGet_missing hlookup⟩
  | some handler =>
      rw [hfirst] at hlookup
      obtain ⟨conn, hconn⟩ := firstGet_returns hret hfirst x.conn
      rw [handleGet_found hlookup, hconn]
      exact ⟨_, rfl⟩

theorem handleReq_get_writes {regs : List Registration} (hret : ∀ reg ∈ regs, reg.Returns)
    {request : Request} (hget : request.method = .get)
    (hparse : ¬ AssertFails (preParseGetParam (.fresh request))) :
    ∃ x response, handleReq (.start (.ofRegistrations regs) request) = .ok x
      ∧ x.writes = [response] := by
  obtain ⟨params, hstore⟩ := storeAll_of_not_assertFails hparse
  have hreq := handleReq_of_get (.ofRegistrations regs) hget hstore
  obtain ⟨r, hr⟩ := handleGet_returns hret (pathOf request.target)
    (x := Exchange.parsed (.ofRegistrations regs) request params) rfl
  obtain ⟨response, hwrites⟩ := respond_writes r
  rw [hr] at hreq
  refine ⟨respond r, response, hreq, ?_⟩
  rw [hwrites, (handleGet_writes _ _).1 _ _ hr]
  rfl

theorem handled_writes (c : Connection) (x : Exchange) :
    (c.handled x).writes = c.writes ++ x.writes := by
  have h : ∀ (responses : List Response) (c : Connection),
      (responses.foldl Connection.asyncWrite c).writes = c.writes ++ responses := by
    intro responses
    induction responses with
    | nil => exact fun c => (List.append_nil c.writes).symm
    | cons response responses ih =>
        intro c
        rw [List.foldl_cons, ih, Connection.asyncWrite, List.append_assoc]
        rfl
  exact h x.writes { c with http := x.conn }

theorem readCallback_of_ok {logic : LogicSystem} {request : Request} {x : Exchange}
    (h : handleReq (.start logic request) = .ok x) :
    ∃ c, Connection.readCallback logic .new (some request) = .ok (x.logic, c)
      ∧ c.writes = x.writes := by
  have hcall : handleReq (Connection.new.exchange logic request) = .ok x := h
  simp only [Connection.readCallback, hcall]
  exact ⟨_, rfl, handled_writes Connection.new x⟩

theorem not_answered {logic logic' : LogicSystem} {request : Request} {c : Connection}
    (hmethod : request.method ≠ .get)
    (hcallback : Connection.readCallback logic .new (some request) = .ok (logic', c)) :
    c.writes = [] := by
  obtain ⟨x, hx, hnone⟩ := handleReq_of_not_get logic hmethod
  obtain ⟨c', hcallback', hwrites⟩ := readCallback_of_ok hx
  rw [hcallback'] at hcallback
  cases hcallback
  rw [hwrites, hnone]

/-- A request that was read is answered, with one response, exactly if it is a GET. -/
theorem one_response_iff {regs : List Registration} (hret : ∀ reg ∈ regs, reg.Returns)
    {request : Request} (hparse : ¬ AssertFails (preParseGetParam (.fresh request))) :
    (∃ logic c response, Connection.readCallback (.ofRegistrations regs) .new (some request)
        = .ok (logic, c) ∧ c.writes = [response]) ↔ request.method = .get := by
  constructor
  · rintro ⟨logic, c, response, hcallback, hwrites⟩
    refine Classical.byContradiction fun hmethod => ?_
    rw [not_answered hmethod hcallback] at hwrites
    cases hwrites
  · intro hget
    obtain ⟨x, response, hx, hone⟩ := handleReq_get_writes hret hget hparse
    obtain ⟨c, hcallback, hwrites⟩ := readCallback_of_ok hx
    exact ⟨x.logic, c, response, hcallback, hwrites.trans hone⟩

/-- `GET /a`, with a handler for it. -/
theorem one_response_get :
    ∃ logic c response, Connection.readCallback (.ofRegistrations [.get (literal "/a") .ok]) .new
      (some { method := .get, target := literal "/a", version := 11 }) = .ok (logic, c)
      ∧ c.writes = [response] := by
  refine (one_response_iff ?_ ?_).mpr rfl
  · intro reg hreg
    obtain rfl := List.mem_singleton.mp hreg
    exact fun conn => ⟨conn, rfl⟩
  · rw [assertFails_iff fun f => preParseGetParam_error, preParseGetParam_isOk]
    decide

/-- `POST /a`, with a handler registered for it. -/
theorem no_response_post :
    (∀ reg ∈ [Registration.post (literal "/a") .ok], reg.Returns)
      ∧ ¬ AssertFails (preParseGetParam
        (.fresh { method := .post, target := literal "/a", version := 11 }))
      ∧ ¬ ∃ logic c response,
        Connection.readCallback (.ofRegistrations [.post (literal "/a") .ok]) .new
          (some { method := .post, target := literal "/a", version := 11 }) = .ok (logic, c)
        ∧ c.writes = [response] := by
  refine ⟨?_, ?_, ?_⟩
  · intro reg hreg
    obtain rfl := List.mem_singleton.mp hreg
    exact fun conn => ⟨conn, rfl⟩
  · rw [assertFails_iff fun f => preParseGetParam_error, preParseGetParam_isOk]
    decide
  · rintro ⟨logic, c, response, hcallback, hwrites⟩
    rw [not_answered (by decide) hcallback] at hwrites
    cases hwrites

end CppNet.Http
