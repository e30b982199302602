import CppNet.Http.Server

/-!
# What the HTTP server answers

`answer` is what the server owes to a request: it is said in terms of the registrations
and the request alone, with the path and the parameters as the reference parser finds
them. The server gets there by way of the handler tables of the `LogicSystem` all
connections share, through the members of a connection and in three callbacks.

The log of a run holds, for each connection, the requests that were read on it and the
responses whose write was started. In every run, whatever the order in which accepts,
reads, writes and timers complete, no connection handles a second request, and what a
connection responds is the `answer` to its own request (`answered`).
-/

namespace CppNet.Http

/-! ## Answers -/

/-- `content_length` of a response that is complete. -/
def sized (response : Response) : Response :=
  { response with contentLength := some response.body.length }

/-- The answer to a request, if there is one. The fault of an assert ends the process; an
exception of a handler is caught, and there is no answer. -/
def answer (regs : List Registration) (request : Request) : Except Fault (Option Response) :=
  if request.method = .get then do
    let (path, params) ← referenceParse request.target
    let response : Response := { version := request.version, keepAlive := false }
    match firstGet regs path with
    | none =>
        .ok (some (sized { response with
          result := 404
          contentType := some "text/plain"
          body := literal "url not found\n" }))
    | some handler =>
        match handler { request, response, getUrl := path, getParams := params } with
        | .ok conn =>
            .ok (some (sized { conn.response with result := 200, server := some "GateServer" }))
        | .error (.exception, _) => .ok none
        | .error (f, _) => .error f
  else .ok none

section Callback

variable {regs : List Registration} {request : Request}

theorem referenceParse_eq (target : Bytes) :
    referenceParse target = (storeAll (retained target) ∅).map fun params =>
      (pathOf target, params) := by
  rw [referenceParse, storeAll]
  cases (retained target).mapM decodePair <;> rfl

/-- The dispatch, once the target has been parsed, is what `answer` says. -/
theorem handleGet_answer (regs : List Registration) (hget : request.method = .get)
    {params : Params}
    (hstore : storeAll (retained request.target) ∅ = .ok params) :
    match answer regs request with
    | .ok (some response) => ∃ x, handleReq (.start (.ofRegistrations regs) request) = .ok x
        ∧ x.logic = .ofRegistrations regs ∧ x.writes = [response]
    | .ok none => ∃ x, handleReq (.start (.ofRegistrations regs) request) = .error (.exception, x)
        ∧ x.logic = .ofRegistrations regs
    | .error f => f ≠ .exception
        ∧ ∃ x, handleReq (.start (.ofRegistrations regs) request) = .error (f, x) := by
  have hlookup := lookup_ofRegistrations regs (pathOf request.target)
  rw [handleReq_of_get _ hget hstore, answer, if_pos hget, referenceParse_eq, hstore]
  simp only [Except.map, bind, Except.bind]
  cases hfirst : firstGet regs (pathOf request.target) with
  | none =>
      rw [hfirst] at hlookup
      rw [handleGet_missing hlookup]
      exact ⟨_, rfl, rfl, rfl⟩
  | some handler =>
      rw [hfirst] at hlookup
      rw [handleGet_found hlookup]
      simp only [Exchange.parsed]
      cases handler { request, response := { version := request.version, keepAlive := false },
                      getUrl := pathOf request.target, getParams := params } with
      | ok conn => exact ⟨_, rfl, rfl, rfl⟩
      | error e =>
          obtain ⟨f, left⟩ := e
          cases f with
          | exception => exact ⟨_, rfl, rfl⟩
          | assertLength | assertHex | outOfRange => exact ⟨by simp, _, rfl⟩

/-- A failing assert in the parser ends the handling of a GET. -/
theorem handleReq_of_assert (logic : LogicSystem) (hget : request.method = .get) {f : Fault}
    (hstore : storeAll (retained request.target) ∅ = .error f) :
    ∃ x, handleReq (.start logic request) = .error (f, x) := by
  rw [handleReq]
  simp only [Exchange.start, Exchange.setResponse, HttpConnection.fresh, hget, if_true]
  rw [preParseGetParam_eq]
  simp only [hstore]
  exact ⟨_, rfl⟩

/-- The read callback of a connection that has handled nothing starts the write of the
answer, and of nothing else. -/
theorem readCallback_answer (regs : List Registration) (request : Request) {c : Connection}
    (hfresh : c.http = Connection.new.http) :
    match answer regs request with
    | .ok response => ∃ c', Connection.readCallback (.ofRegistrations regs) c (some request)
        = .ok (.ofRegistrations regs, c') ∧ c'.writes = c.writes ++ response.toList
    | .error f => Connection.readCallback (.ofRegistrations regs) c (some request)
        = .error f := by
  have hexchange : c.exchange (.ofRegistrations regs) request
      = .start (.ofRegistrations regs) request := by
    rw [Connection.exchange, hfresh]
    rfl
  simp only [Connection.readCallback, hexchange]
  by_cases hget : request.method = .get
  · cases hstore : storeAll (retained request.target) ∅ with
    | error f =>
        have hassert := storeAll_error hstore
        obtain ⟨x, hreq⟩ := handleReq_of_assert (.ofRegistrations regs) hget hstore
        rw [answer, if_pos hget, referenceParse_eq, hstore, hreq]
        cases f with
        | assertLength | assertHex => rfl
        | outOfRange | exception => exact hassert.elim
    | ok params =>
        have hanswer := handleGet_answer regs hget hstore
        generalize answer regs request = r at hanswer
        cases r with
        | error f =>
            obtain ⟨hne, x, hx⟩ := hanswer
            rw [hx]
            cases f with
            | exception => exact (hne rfl).elim
            | assertLength | assertHex | outOfRange => rfl
        | ok response =>
            cases response with
            | none =>
                obtain ⟨x, hx, hlogic⟩ := hanswer
                simp only [hx, hlogic]
                refine ⟨_, rfl, ?_⟩
                rw [handled_writes, handleReq_error_writes hx]
                rfl
            | some response =>
                obtain ⟨x, hx, hlogic, hwrites⟩ := hanswer
                simp only [hx, hlogic]
                refine ⟨_, rfl, ?_⟩
                show (c.handled x).writes = c.writes ++ [response]
                rw [handled_writes, hwrites]
  · obtain ⟨x, hx, hwrites⟩ := handleReq_of_not_get (.ofRegistrations regs) hget
    have hlogic : x.logic = .ofRegistrations regs := by
      rw [handleReq] at hx
      simp only [Exchange.start, Exchange.setResponse, HttpConnection.fresh, hget,
        if_false] at hx
      cases hx
      rfl
    rw [answer, if_neg hget]
    simp only [hx, hlogic]
    refine ⟨_, rfl, ?_⟩
    show (c.handled x).writes = c.writes ++ []
    rw [handled_writes, hwrites]

end Callback

/-! ## The log -/

section Runs

variable {U : Type}

/-- For each connection the requests that were read on it, each with the responses whose
write its callback has started. -/
abbrev Log (U : Type) := U → List (Request × List Response)

/-- Nothing was read, or one request, and its answer was written. -/
inductive Answered (regs : List Registration) : List (Request × List Response) → Prop
  | waiting : Answered regs []
  | served {request : Request} {response : Option Response}
      (hanswer : answer regs request = .ok response) :
      Answered regs [(request, response.toList)]

/-- The tables are the ones of the registrations; a connection that reads is as it was
when it was started, and nothing was read on it; and there is nothing to say of objects
that were not made. -/
structure Kept (regs : List Registration) (x : CServer U × Log U) : Prop where
  logic : x.1.logic = .ofRegistrations regs
  reading : ∀ u, 0 < (x.1.connection u).reads →
    x.1.connection u = Connection.new.start ∧ x.2 u = []
  unused : ∀ u ∉ x.1.created, x.1.connection u = .new ∧ x.2 u = []
  answered : ∀ u, Answered regs (x.2 u)

theorem kept_start (regs : List Registration) :
    Kept (U := U) regs ((CServer.new (.ofRegistrations regs)).start, fun _ => []) :=
  ⟨rfl, fun _ hread => absurd hread (Nat.lt_irrefl 0), fun _ _ => ⟨rfl, rfl⟩, fun _ => .waiting⟩

/-- An object something happens to was made. -/
theorem Kept.created {regs : List Registration} {x : CServer U × Log U} (h : Kept regs x) {u : U}
    (hne : x.1.connection u ≠ .new) : u ∈ x.1.created :=
  Classical.byContradiction fun hu => hne (h.unused u hu).1

variable [DecidableEq U]

/-- A request is logged with what its read callback has added to the writes. -/
def note (s : CServer U) (e : Event U) (t : CServer U) (log : Log U) : Log U :=
  match e with
  | .readDone u (some request) =>
      let started := (t.connection u).writes.drop (s.connection u).writes.length
      Function.update log u (log u ++ [(request, started)])
  | _ => log

/-- A connection has read its request, and its log holds the answer. -/
theorem Kept.set {regs : List Registration} {s : CServer U} {log : Log U} (h : Kept regs (s, log))
    {u : U} (hu : u ∈ s.created) {c : Connection} (hc : c.reads = 0)
    {entries : List (Request × List Response)} (hentries : Answered regs entries) :
    Kept regs (s.set u c, Function.update log u entries) := by
  refine ⟨h.logic, fun v hv => ?_, fun v hv => ?_, fun v => ?_⟩
  · by_cases hvu : v = u
    · subst hvu
      simp only [CServer.set, Function.update_self, hc] at hv
      exact absurd hv (Nat.lt_irrefl 0)
    · simp only [CServer.set, Function.update_of_ne hvu] at hv ⊢
      exact h.reading v hv
  · have hvu : v ≠ u := fun heq => hv (heq ▸ hu)
    simp only [CServer.set, Function.update_of_ne hvu]
    exact h.unused v hv
  · by_cases hvu : v = u
    · subst hvu
      simpa only [Function.update_self] using hentries
    · simpa only [Function.update_of_ne hvu] using h.answered v

/-- What happens to a connection that has read its request is not logged. -/
theorem Kept.past {regs : List Registration} {s : CServer U} {log : Log U}
    (h : Kept regs (s, log)) {u : U} (hne : s.connection u ≠ .new)
    (hstart : s.connection u ≠ Connection.new.start) {c : Connection}
    (hc : c.reads = (s.connection u).reads) : Kept regs (s.set u c, log) := by
  have hreads : (s.connection u).reads = 0 :=
    Nat.eq_zero_of_not_pos fun hread => hstart (h.reading u hread).1
  have hkept := h.set (h.created hne) (hc.trans hreads) (h.answered u)
  rwa [Function.update_eq_self] at hkept

theorem kept_accept {regs : List Registration} {s : CServer U} {log : Log U}
    (h : Kept regs (s, log)) {outcome : Outcome U}
    (hnew : ∀ u ∈ s.created, outcome ≠ .connected u) :
    Kept regs (s.acceptCallback outcome, log) := by
  cases outcome with
  | failed => exact ⟨h.logic, h.reading, h.unused, h.answered⟩
  | threw => exact ⟨h.logic, h.reading, h.unused, h.answered⟩
  | connected u =>
      have hu : u ∉ s.created := fun hu => hnew u hu rfl
      refine ⟨h.logic, fun v hv => ?_, fun v hv => ?_, h.answered⟩
      · by_cases hvu : v = u
        · subst hvu
          exact ⟨Function.update_self .., (h.unused v hu).2⟩
        · simp only [CServer.acceptCallback, CServer.start, Function.update_of_ne hvu] at hv ⊢
          exact h.reading v hv
      · obtain ⟨hvu, hv⟩ := not_or.mp (List.mem_cons.not.mp hv)
        simp only [CServer.acceptCallback, CServer.start, Function.update_of_ne hvu]
        exact h.unused v hv

theorem kept_step {regs : List Registration} {x y : CServer U × Log U} {e : Event U}
    (h : Kept regs x) (hstep : Machine.record CServer.step note x e = some y) : Kept regs y := by
  obtain ⟨s, log⟩ := x
  obtain ⟨t, ht, rfl⟩ := Machine.record_eq_some.mp hstep
  dsimp only at ht ⊢
  cases e with
  | accept outcome =>
      obtain ⟨-, hnew, rfl⟩ := CServer.accept_cases ht
      exact kept_accept (s := { s with accepts := s.accepts - 1 }) ⟨h.logic, h.reading, h.unused,
        h.answered⟩ hnew
  | readDone u request =>
      obtain ⟨hread, -, logic, c, hcallback, rfl⟩ := CServer.readDone_cases ht
      obtain ⟨hconnection, hlog⟩ := h.reading u hread
      dsimp only at hconnection hlog
      have hu := h.created (u := u) (by rw [hconnection]; simp [Connection.start, Connection.new])
      rw [hconnection, h.logic] at hcallback
      cases request with
      | none =>
          obtain ⟨rfl, rfl⟩ := Prod.mk.inj (Except.ok.inj hcallback)
          have hkept := h.set hu (c := Connection.new) rfl (h.answered u)
          rw [Function.update_eq_self] at hkept
          exact ⟨rfl, hkept.reading, hkept.unused, hkept.answered⟩
      | some request =>
          have hanswer := readCallback_answer regs request
            (c := { Connection.new.start with reads := 0 }) rfl
          have hreads : c.reads = 0 := by
            obtain ⟨http, rfl | rfl | ⟨response, rfl⟩⟩ := readCallback_cases hcallback <;> rfl
          cases hr : answer regs request with
          | error f =>
              rw [hr] at hanswer
              cases hcallback.symm.trans hanswer
          | ok response =>
              rw [hr] at hanswer
              obtain ⟨c', hc', hwrites⟩ := hanswer
              cases hcallback.symm.trans hc'
              have hkept := h.set hu (c := c.release) hreads (Answered.served hr)
              have hstarted : ((s.set u c.release).connection u).writes.drop
                  (s.connection u).writes.length = response.toList := by
                simp only [hconnection, CServer.set, Function.update_self]
                exact hwrites
              simp only [note, hlog, List.nil_append, hstarted]
              exact ⟨rfl, hkept.reading, hkept.unused, hkept.answered⟩
  | writeDone u =>
      obtain ⟨hne, rfl⟩ := CServer.writeDone_cases ht
      refine h.past (fun hnew => hne ?_) (fun hnew => hne ?_) rfl
      · rw [hnew]
        rfl
      · rw [hnew]
        rfl
  | expire u =>
      obtain ⟨hwait, rfl⟩ := CServer.expire_cases ht
      refine h.past (fun hnew => ?_) (fun hnew => ?_) rfl
      · rw [hnew] at hwait
        cases hwait
      · rw [hnew] at hwait
        cases hwait
  | cancelled u error =>
      obtain ⟨hcancelled, rfl⟩ := CServer.cancelled_cases ht
      refine h.past (fun hnew => ?_) (fun hnew => ?_) (by cases error <;> rfl)
      · rw [hnew] at hcancelled
        cases hcancelled
      · rw [hnew] at hcancelled
        cases hcancelled

/-! ## Runs -/

theorem kept_run (regs : List Registration) (es : List (Event U)) :
    Machine.Throughout (Machine.record CServer.step note) (Kept regs)
      ((CServer.new (.ofRegistrations regs)).start, fun _ => []) es :=
  Machine.throughout_of_step kept_step (kept_start regs) es

/-- The server gets over a request exactly if there is no fault in its answer. -/
theorem Kept.readDone_isSome {regs : List Registration} {s : CServer U} {log : Log U}
    (h : Kept regs (s, log)) {u : U} (hread : 0 < (s.connection u).reads) (request : Request) :
    (s.step (.readDone u (some request))).isSome = (answer regs request).isOk := by
  have hconnection := (h.reading u hread).1
  have hlogic := h.logic
  dsimp only at hconnection hlogic
  have hanswer := readCallback_answer regs request
    (c := { Connection.new.start with reads := 0 }) rfl
  have hguard : 0 < Connection.new.start.reads
      ∧ (Connection.new.start.closed = true → some request = none) :=
    ⟨Nat.one_pos, fun hclosed => nomatch hclosed⟩
  have hnone : Connection.new.start.reads - 1 = 0 := rfl
  simp only [CServer.step, hconnection, hlogic, if_pos hguard, hnone]
  cases hr : answer regs request with
  | error f =>
      rw [hr] at hanswer
      rw [hanswer]
      rfl
  | ok response =>
      rw [hr] at hanswer
      obtain ⟨c, hc, -⟩ := hanswer
      rw [hc]
      rfl

/-- In every run a connection has handled one request at most and has responded what the
answer to it is; and the server goes on with the next request exactly if its answer has no
fault. -/
theorem answers_own_request (regs : List Registration) (es : List (Event U)) :
    Machine.Throughout (Machine.record CServer.step note)
      (fun x => x.1.logic = .ofRegistrations regs ∧ ∀ u, Answered regs (x.2 u)
        ∧ (0 < (x.1.connection u).reads → x.2 u = [] ∧ ∀ request,
          (x.1.step (.readDone u (some request))).isSome = (answer regs request).isOk))
      ((CServer.new (.ofRegistrations regs)).start, fun _ => []) es :=
  (kept_run regs es).mono fun _ h => ⟨h.logic, fun u => ⟨h.answered u, fun hread =>
    ⟨(h.reading u hread).2, h.readDone_isSome hread⟩⟩⟩

end Runs

/-! ## `/get_test` -/

/-- An order in which the parameters can be iterated: every key once, with its value. -/
structure Iteration where
  order : Params → List (Bytes × Bytes)
  nodup : ∀ m, ((order m).map Prod.fst).Nodup
  mem_iff : ∀ m key value, (key, value) ∈ order m ↔ m.lookup key = some value

noncomputable instance : Inhabited Iteration where
  default :=
    { order := fun m => m.entries.toList.map fun kv => (kv.1, kv.2)
      nodup := fun m => by
        have hkeys : (Multiset.ofList (m.entries.toList.map Sigma.fst)).Nodup := by
          rw [← Multiset.map_coe, Multiset.coe_toList]
          exact Multiset.nodup_keys.mpr m.nodupKeys
        rw [List.map_map]
        exact Multiset.coe_nodup.mp hkeys
      mem_iff := fun m key value => by
        rw [← Option.mem_def, Finmap.mem_lookup_iff, ← Multiset.mem_toList, List.mem_map]
        constructor
        · rintro ⟨⟨k, v⟩, hmem, heq⟩
          obtain ⟨rfl, rfl⟩ := Prod.mk.inj heq
          exact hmem
        · exact fun hmem => ⟨⟨key, value⟩, hmem, rfl⟩ }

/-- What the handler of `/get_test` writes for a list of parameters. -/
def listing (pairs : List (Bytes × Bytes)) : Bytes :=
  pairs.zipIdx.flatMap fun (kv, i) =>
    literal "param" ++ literal (toString (i + 1)) ++ literal " key is " ++ kv.1
      ++ literal " value is " ++ kv.2 ++ literal "\n"

/-- The response greets, and lists each key of `pairs` once, with its last value. -/
structure Listed (pairs : List (Bytes × Bytes)) (response : Response) : Prop where
  result : response.result = 200
  contentLength : response.contentLength = some response.body.length
  body : ∃ listed, response.body = literal "receive get_test req\n" ++ listing listed
    ∧ (listed.map Prod.fst).Nodup
    ∧ ∀ key value, (key, value) ∈ listed ↔ Fields.lastValue pairs key = some value

/-- What the server owes to an encoded query: an assert fails, or it lists the pairs as they
are read back. -/
theorem answer_get_test (iteration : Iteration) {request : Request}
    (hget : request.method = .get) {pairs : List (Bytes × Bytes)}
    (htarget : request.target = literal "/get_test" ++ '?'.toUInt8 :: encodeQuery pairs) :
    if anyUnreadable pairs then
      answer [.get (literal "/get_test") (getTest iteration.order)] request = .error .assertHex
    else ∃ response, answer [.get (literal "/get_test") (getTest iteration.order)] request
        = .ok (some response) ∧ Listed (pairsReadBack pairs) response := by
  have hcut : Fields.splitFirst '?'.toUInt8 request.target
      = some (literal "/get_test", encodeQuery pairs) := by
    rw [htarget]
    exact Fields.splitFirst_append (by decide) _
  have hpath : pathOf request.target = literal "/get_test" := by rw [pathOf, hcut]
  have hstore : storeAll (retained request.target) ∅
      = if anyUnreadable pairs then .error .assertHex
        else .ok (Fields.ofPairs (pairsReadBack pairs)) := by
    rw [retained, hcut]
    exact (congrArg (storeAll · ∅) (pairsOf_encodeQuery pairs)).trans
      (storeAll_encoded_eq pairs ∅)
  have hfirst : firstGet [.get (literal "/get_test") (getTest iteration.order)]
      (literal "/get_test") = some (getTest iteration.order) := rfl
  rw [answer, if_pos hget, referenceParse_eq, hstore, hpath]
  cases anyUnreadable pairs with
  | true => rfl
  | false =>
      simp only [Bool.false_eq_true, if_false, Except.map, bind, Except.bind, hfirst]
      refine ⟨_, rfl, rfl, rfl, iteration.order (Fields.ofPairs (pairsReadBack pairs)), rfl,
        iteration.nodup _, ?_⟩
      intro key value
      rw [iteration.mem_iff, Fields.lookup_ofPairs]

/-- A GET of `/get_test` with an encoded query is answered with the parameters of this
query, as they are read back; and a server that waits for it goes on exactly if all bytes
are readable. -/
structure GetTestServed {U : Type} [DecidableEq U] (s : CServer U) (log : Log U)
    (pairs : List (Bytes × Bytes)) (request : Request) : Prop where
  answered : ∀ u responses, (request, responses) ∈ log u →
    ∃ response, responses = [response] ∧ Listed (pairsReadBack pairs) response
  goes_on : ∀ u, 0 < (s.connection u).reads →
    ((s.step (.readDone u (some request))).isSome ↔ anyUnreadable pairs = false)

/-- So it is in every run of the server that `main` starts, and of every query. -/
theorem get_test_served {U : Type} [DecidableEq U] (iteration : Iteration)
    (es : List (Event U)) :
    Machine.Throughout (Machine.record CServer.step note)
      (fun x => ∀ pairs request, request.method = .get →
        request.target = literal "/get_test" ++ '?'.toUInt8 :: encodeQuery pairs →
        GetTestServed x.1 x.2 pairs request)
      ((CServer.new (.new iteration.order)).start, fun _ => []) es := by
  refine (kept_run [.get (literal "/get_test") (getTest iteration.order)] es).mono ?_
  intro x h pairs request hget htarget
  have hanswer := answer_get_test iteration hget htarget
  refine ⟨fun u responses hmem => ?_, fun u hread => ?_⟩
  · have hu := h.answered u
    generalize x.2 u = entries at hu hmem
    cases hu with
    | waiting => cases hmem
    | served hserved =>
        cases List.mem_singleton.mp hmem
        rw [hserved] at hanswer
        cases hbad : anyUnreadable pairs with
        | true =>
            rw [hbad, if_pos rfl] at hanswer
            cases hanswer
        | false =>
            rw [hbad, if_neg Bool.false_ne_true] at hanswer
            obtain ⟨response, hresponse, hlisted⟩ := hanswer
            cases hresponse
            exact ⟨response, rfl, hlisted⟩
  · rw [h.readDone_isSome hread]
    cases hbad : anyUnreadable pairs with
    | true =>
        rw [hbad, if_pos rfl] at hanswer
        simp [hanswer, Except.isOk, Except.toBool]
    | false =>
        rw [hbad, if_neg Bool.false_ne_true] at hanswer
        obtain ⟨response, hresponse, -⟩ := hanswer
        simp [hresponse, Except.isOk, Except.toBool]

end CppNet.Http
