import CppNet.Http.Query

/-!
# Dispatching a request

`LogicSystem` keeps one table of handlers for GET and one for POST;
`HttpConnection::HandleReq` parses a GET target, looks its path up and writes
one response. `handleReq_get` describes the whole of it from the registrations
on: the first registration of a path decides (`lookup_ofRegistrations`), the
lookup through `find` and then `operator[]` inserts nothing
(`handleGet_found`, `handleGet_missing`).

A handler is given the connection and nothing else, and it can throw, so it
is a fallible function on connections. One that throws leaves behind what it
has made of the connection by then, so an error comes with the state it is
raised in.
-/

namespace CppNet

open Fields

/-! ## The handler tables -/

/-- `std::function<void(std::shared_ptr<HttpConnection>)>`; an error comes with the
connection as the handler leaves it. -/
abbrev HttpHandler := HttpConnection → Except (Fault × HttpConnection) HttpConnection

/-- What a default-constructed `std::function` does when it is called. -/
def emptyFunction : HttpHandler := fun conn => .error (.exception, conn)

abbrev Handlers := Finmap fun _ : Bytes => HttpHandler

structure LogicSystem where
  postHandlers : Handlers := ∅
  getHandlers : Handlers := ∅

/-- `std::unordered_map::insert`: a key that is present keeps its value. -/
def insertNew (table : Handlers) (url : Bytes) (handler : HttpHandler) : Handlers :=
  if url ∈ table then table else table.insert url handler

/-- `std::unordered_map::operator[]`: a missing key is inserted with a
default-constructed value. -/
def subscript (table : Handlers) (url : Bytes) : HttpHandler × Handlers :=
  match table.lookup url with
  | some handler => (handler, table)
  | none => (emptyFunction, table.insert url emptyFunction)

def LogicSystem.regGet (logic : LogicSystem) (url : Bytes) (handler : HttpHandler) :
    LogicSystem :=
  { logic with getHandlers := insertNew logic.getHandlers url handler }

def LogicSystem.regPost (logic : LogicSystem) (url : Bytes) (handler : HttpHandler) :
    LogicSystem :=
  { logic with postHandlers := insertNew logic.postHandlers url handler }

/-- One call of `RegGet` or `RegPost`. -/
inductive Registration
  | get (url : Bytes) (handler : HttpHandler)
  | post (url : Bytes) (handler : HttpHandler)

def LogicSystem.register (logic : LogicSystem) : Registration → LogicSystem
  | .get url handler => logic.regGet url handler
  | .post url handler => logic.regPost url handler

/-- The tables after a sequence of registrations. -/
def LogicSystem.ofRegistrations (regs : List Registration) : LogicSystem :=
  regs.foldl LogicSystem.register {}

/-- The handler `LogicSystem()` registers. It lists the parameters in the order
in which the map is iterated, which is unspecified. -/
def getTest (order : Params → List (Bytes × Bytes)) : HttpHandler := fun conn =>
  let line := fun (i : Nat) (kv : Bytes × Bytes) =>
    literal "param" ++ literal (toString i) ++ literal " key is " ++ kv.1
      ++ literal " value is " ++ kv.2 ++ literal "\n"
  let lines := (order conn.getParams).zipIdx.flatMap fun (kv, i) => line (i + 1) kv
  let body := conn.response.body ++ literal "receive get_test req\n" ++ lines
  .ok { conn with response := { conn.response with body } }

/-- The constructor `LogicSystem()`. -/
def LogicSystem.new (order : Params → List (Bytes × Bytes)) : LogicSystem :=
  .ofRegistrations [.get (literal "/get_test") (getTest order)]

/-! ## Handling a request -/

/-- What the read callback works on. The last two components record the
handler calls, each with the connection it was given, and the responses whose
write was started. -/
structure Exchange where
  logic : LogicSystem
  conn : HttpConnection
  ran : List (HttpHandler × HttpConnection) := []
  writes : List Response := []

/-- `LogicSystem::HandleGet`. -/
def handleGet (path : Bytes) (x : Exchange) : Except (Fault × Exchange) (Bool × Exchange) :=
  match x.logic.getHandlers.lookup path with
  | none => .ok (false, x)
  | some _ =>
      let (handler, getHandlers) := subscript x.logic.getHandlers path
      let called := { x with
        logic := { x.logic with getHandlers }
        ran := x.ran ++ [(handler, x.conn)] }
      match handler x.conn with
      | .ok conn => .ok (true, { called with conn })
      | .error (f, conn) => .error (f, { called with conn })

/-- `HttpConnection::WriteResponse`, up to the start of the write. -/
def writeResponse (x : Exchange) : Exchange :=
  let response := { x.conn.response with contentLength := some x.conn.response.body.length }
  { x with conn := { x.conn with response }, writes := x.writes ++ [response] }

/-- Set fields of the response in the hands of the callback. -/
def Exchange.setResponse (x : Exchange) (f : Response → Response) : Exchange :=
  { x with conn := { x.conn with response := f x.conn.response } }

/-- `HttpConnection::HandleReq`. -/
def handleReq (x : Exchange) : Except (Fault × Exchange) Exchange :=
  let x := x.setResponse fun r => { r with version := x.conn.request.version }
  let x := x.setResponse fun r => { r with keepAlive := false }
  if x.conn.request.method = .get then do
    -- only asserts fail in the parser, and nothing goes on from the state they leave
    let conn ← (preParseGetParam x.conn).mapError fun f => (f, x)
    let (success, x) ← handleGet conn.getUrl { x with conn }
    if success = false then
      let x := x.setResponse fun r => { r with result := 404 }
      let x := x.setResponse fun r => { r with contentType := some "text/plain" }
      let x := x.setResponse fun r => { r with body := r.body ++ literal "url not found\n" }
      .ok (writeResponse x)
    else
      let x := x.setResponse fun r => { r with result := 200 }
      let x := x.setResponse fun r => { r with server := some "GateServer" }
      .ok (writeResponse x)
  else .ok x

/-- A request has just been read on a new connection. -/
def Exchange.start (logic : LogicSystem) (request : Request) : Exchange :=
  { logic, conn := .fresh request }

/-! ## First registration wins -/

/-- The first handler registered by `RegGet` for `path`. -/
def firstGet (regs : List Registration) (path : Bytes) : Option HttpHandler :=
  regs.findSome? fun
    | .get url handler => if url = path then some handler else none
    | .post _ _ => none

theorem lookup_insertNew (table : Handlers) (url : Bytes) (handler : HttpHandler)
    (path : Bytes) :
    (insertNew table url handler).lookup path =
      (table.lookup path).or (if url = path then some handler else none) := by
  unfold insertNew
  split
  case isTrue hmem =>
    by_cases hpath : url = path
    · subst hpath
      obtain ⟨h, hh⟩ := Finmap.mem_iff.mp hmem
      simp [hh]
    · simp [hpath]
  case isFalse hmem =>
    by_cases hpath : url = path
    · subst hpath
      rw [Finmap.lookup_insert, Finmap.lookup_eq_none.mpr hmem]
      simp
    · rw [Finmap.lookup_insert_of_ne _ (Ne.symm hpath)]
      simp [hpath]

theorem lookup_register (regs : List Registration) (logic : LogicSystem) (path : Bytes) :
    (regs.foldl LogicSystem.register logic).getHandlers.lookup path =
      (logic.getHandlers.lookup path).or (firstGet regs path) := by
  induction regs generalizing logic with
  | nil => simp [firstGet]
  | cons reg regs ih =>
      rw [List.foldl_cons, ih]
      cases reg with
      | post url handler => rfl
      | get url handler =>
          rw [LogicSystem.register, LogicSystem.regGet, lookup_insertNew, Option.or_assoc]
          congr 1
          by_cases hpath : url = path <;> simp [firstGet, hpath]

theorem lookup_ofRegistrations (regs : List Registration) (path : Bytes) :
    (LogicSystem.ofRegistrations regs).getHandlers.lookup path = firstGet regs path := by
  rw [LogicSystem.ofRegistrations, lookup_register]
  exact Option.none_or

/-! ## What the handling of a GET does -/

theorem handleGet_missing {path : Bytes} {x : Exchange}
    (h : x.logic.getHandlers.lookup path = none) : handleGet path x = .ok (false, x) := by
  rw [handleGet, h]

theorem handleGet_found {path : Bytes} {x : Exchange} {handler : HttpHandler}
    (h : x.logic.getHandlers.lookup path = some handler) :
    handleGet path x =
      match handler x.conn with
      | .ok conn => .ok (true, { x with conn, ran := x.ran ++ [(handler, x.conn)] })
      | .error (f, conn) => .error (f, { x with conn, ran := x.ran ++ [(handler, x.conn)] }) := by
  rw [handleGet, h]
  simp only [subscript, h]

/-- The handler returns on every connection. -/
def Registration.Returns : Registration → Prop
  | .get _ handler | .post _ handler => ∀ conn, ∃ conn', handler conn = .ok conn'

theorem storeAll_of_not_assertFails {request : Request}
    (hparse : ¬ AssertFails (preParseGetParam (.fresh request))) :
    ∃ params, storeAll (retained request.target) ∅ = .ok params := by
  rw [assertFails_iff fun f => preParseGetParam_error, preParseGetParam_isOk,
    Bool.not_eq_false] at hparse
  rw [← isOk_iff, storeAll_isOk]
  exact hparse

theorem referenceParse_of_storeAll {target : Bytes} {params : Params}
    (h : storeAll (retained target) ∅ = .ok params) :
    referenceParse target = .ok (pathOf target, params) := by
  rw [storeAll] at h
  rw [referenceParse]
  cases hpairs : (retained target).mapM decodePair with
  | error f => rw [hpairs] at h; cases h
  | ok pairs =>
      rw [hpairs] at h
      obtain rfl := Except.ok.inj h
      rfl

theorem firstGet_returns {regs : List Registration} (hret : ∀ reg ∈ regs, reg.Returns)
    {path : Bytes} {handler : HttpHandler} (h : firstGet regs path = some handler)
    (conn : HttpConnection) : ∃ conn', handler conn = .ok conn' := by
  obtain ⟨reg, hreg, hh⟩ := List.exists_of_findSome?_eq_some h
  cases reg with
  | post url handler' => cases hh
  | get url handler' =>
      simp only [Option.ite_none_right_eq_some, Option.some.injEq] at hh
      obtain ⟨-, rfl⟩ := hh
      exact hret _ hreg conn

/-- The callback's state once the target of a GET has been parsed. -/
def Exchange.parsed (logic : LogicSystem) (request : Request) (params : Params) : Exchange :=
  { logic
    conn :=
      { request
        response := { version := request.version, keepAlive := false }
        getUrl := pathOf request.target
        getParams := params } }

/-- What `HandleReq` does with the outcome of `HandleGet`. -/
def respond (r : Bool × Exchange) : Exchange :=
  if r.1 = false then
    writeResponse (r.2.setResponse fun resp =>
      { resp with
        result := 404
        contentType := some "text/plain"
        body := resp.body ++ literal "url not found\n" })
  else
    writeResponse (r.2.setResponse fun resp =>
      { resp with result := 200, server := some "GateServer" })

theorem handleReq_of_get (logic : LogicSystem) {request : Request} {params : Params}
    (hget : request.method = .get)
    (hstore : storeAll (retained request.target) ∅ = .ok params) :
    handleReq (.start logic request) =
      (handleGet (pathOf request.target) (.parsed logic request params)).map respond := by
  rw [handleReq]
  simp only [Exchange.start, Exchange.setResponse, HttpConnection.fresh, hget, if_true]
  rw [preParseGetParam_eq]
  simp only [hstore]
  show (handleGet (pathOf request.target) (.parsed logic request params) >>= _) = _
  cases handleGet (pathOf request.target) (.parsed logic request params) with
  | error f => rfl
  | ok r => obtain ⟨_ | _, x⟩ := r <;> rfl

/-- **GET dispatch.** One response is written. When the path is registered, the
first handler registered for it ran once, on the parsed query, and the response
is the one the handler left, with the status 200; otherwise none ran and the
response is the 404 text. The tables stay as they were. -/
theorem handleReq_get {regs : List Registration} (hret : ∀ reg ∈ regs, reg.Returns)
    {request : Request} (hget : request.method = .get)
    (hparse : ¬ AssertFails (preParseGetParam (.fresh request))) :
    ∃ params x response,
      referenceParse request.target = .ok (pathOf request.target, params)
      ∧ handleReq (.start (.ofRegistrations regs) request) = .ok x
      ∧ x.writes = [response]
      ∧ x.logic = .ofRegistrations regs
      ∧ match firstGet regs (pathOf request.target) with
        | some handler => response.result = 200 ∧ ∃ seen left, x.ran = [(handler, seen)]
            ∧ seen.request = request ∧ seen.getUrl = pathOf request.target
            ∧ seen.getParams = params ∧ handler seen = .ok left
            ∧ response = { left.response with
                result := 200
                server := some "GateServer"
                contentLength := some left.response.body.length }
            ∧ x.conn = { left with response }
        | none => response.result = 404 ∧ x.ran = []
            ∧ response.body = literal "url not found\n" := by
  obtain ⟨params, hstore⟩ := storeAll_of_not_assertFails hparse
  have hreq := handleReq_of_get (.ofRegistrations regs) hget hstore
  have hlookup := lookup_ofRegistrations regs (pathOf request.target)
  refine ⟨params, ?_⟩
  cases hfirst : firstGet regs (pathOf request.target) with
  | none =>
      rw [hfirst] at hlookup
      rw [handleGet_missing hlookup] at hreq
      exact ⟨_, _, referenceParse_of_storeAll hstore, hreq, rfl, rfl, rfl, rfl, rfl⟩
  | some handler =>
      rw [hfirst] at hlookup
      obtain ⟨conn, hconn⟩ := firstGet_returns hret hfirst
        (Exchange.parsed (.ofRegistrations regs) request params).conn
      rw [handleGet_found hlookup, hconn] at hreq
      exact ⟨_, _, referenceParse_of_storeAll hstore, hreq, rfl, rfl, rfl, _, conn, rfl, rfl, rfl,
        rfl, hconn, rfl, rfl⟩

/-- The second registration of a path is never reached, nor is its POST entry. -/
theorem handleReq_get_first_wins :
    let regs : List Registration := [.post (literal "/a") .ok,
      .get (literal "/a") fun conn => .ok { conn with response := { body := [1] } },
      .get (literal "/a") .ok]
    ∃ x response, handleReq (.start (.ofRegistrations regs)
        { method := .get, target := literal "/a?k=v" }) = .ok x
      ∧ x.writes = [response] ∧ response.result = 200 ∧ x.logic = .ofRegistrations regs := by
  intro regs
  have hret : ∀ reg ∈ regs, reg.Returns := by
    intro reg hreg
    simp only [regs, List.mem_cons, List.not_mem_nil, or_false] at hreg
    rcases hreg with rfl | rfl | rfl <;> exact fun conn => ⟨_, rfl⟩
  have hparse : ¬ AssertFails (preParseGetParam
      (.fresh { method := .get, target := literal "/a?k=v" })) := by
    rw [assertFails_iff fun f => preParseGetParam_error, preParseGetParam_isOk]
    decide
  obtain ⟨params, x, response, -, hx, hwrites, hlogic, hmatch⟩ :=
    handleReq_get hret rfl hparse
  have hfirst : firstGet regs (pathOf (literal "/a?k=v")) =
      some fun conn => .ok { conn with response := { body := [1] } } := rfl
  rw [hfirst] at hmatch
  exact ⟨x, response, hx, hwrites, hmatch.1, hlogic⟩

end CppNet
