import CppNet.Http.Connection
import CppNet.Http.Url
import CppNet.Lib.Fields

/-!
# Parsing the query of a GET target

`HttpConnection::PreParseGetParam` cuts the query with `find` and `erase`,
one pair after the other, and treats the last pair in a branch of its own.
`preParseGetParam_eq` shows that this is one pass over the fields of the
query: split at every `&`, keep what has an `=`, cut it there, decode both
sides, assign from left to right.
-/

namespace CppNet

open Fields

/-! ## The source function -/

/-- The body shared by the loop and the last pair: decode and store a pair
that has an `=`. -/
def storePair (pair : Bytes) (getParams : Params) : Except Fault Params :=
  match pair.findIdx? (· == '='.toUInt8) with
  | none => .ok getParams
  | some eqPos => do
      let key ← urlDecode (pair.take eqPos)
      let value ← urlDecode (pair.drop (eqPos + 1))
      .ok (getParams.insert key value)

/-- The `while` loop: what is left of `query_string`, and the map. -/
def parseLoop (queryString : Bytes) (getParams : Params) :
    Except Fault (Bytes × Params) :=
  match h : queryString.findIdx? (· == '&'.toUInt8) with
  | none => .ok (queryString, getParams)
  | some pos => do
      let getParams ← storePair (queryString.take pos) getParams
      parseLoop (queryString.drop (pos + 1)) getParams
termination_by queryString.length
decreasing_by
  have := (List.findIdx?_eq_some_iff_getElem.mp h).1
  rw [List.length_drop]
  omega

/-- `HttpConnection::PreParseGetParam`. -/
def preParseGetParam (conn : HttpConnection) : Except Fault HttpConnection :=
  let uri := conn.request.target
  match uri.findIdx? (· == '?'.toUInt8) with
  | none => .ok { conn with getUrl := uri }
  | some queryPos => do
      let conn := { conn with getUrl := uri.take queryPos }
      let (queryString, getParams) ← parseLoop (uri.drop (queryPos + 1)) conn.getParams
      -- the last pair has no `&` behind it
      let getParams ←
        if queryString ≠ [] then storePair queryString getParams else .ok getParams
      .ok { conn with getParams }

/-! ## The reference parser -/

/-- The part of a target before the first `?`. -/
def pathOf (target : Bytes) : Bytes :=
  match splitFirst '?'.toUInt8 target with
  | none => target
  | some (path, _) => path

/-- The keys and values of a query, still encoded. -/
def pairsOf (query : Bytes) : List (Bytes × Bytes) :=
  (query.splitOn '&'.toUInt8).filterMap (splitFirst '='.toUInt8)

/-- The retained pairs of a target. -/
def retained (target : Bytes) : List (Bytes × Bytes) :=
  match splitFirst '?'.toUInt8 target with
  | none => []
  | some (_, query) => pairsOf query

def decodePair (kv : Bytes × Bytes) : Except Fault (Bytes × Bytes) := do
  let key ← urlDecode kv.1
  let value ← urlDecode kv.2
  .ok (key, value)

/-- What a target asks for: its path and its decoded query. -/
def referenceParse (target : Bytes) : Except Fault (Bytes × Params) := do
  let pairs ← (retained target).mapM decodePair
  .ok (pathOf target, ofPairs pairs)

/-! ## The loop is a pass over the fields -/

/-- Decode the pairs and assign them to `m`, from left to right. -/
def storeAll (kvs : List (Bytes × Bytes)) (m : Params) : Except Fault Params := do
  let pairs ← kvs.mapM decodePair
  .ok (assignAll m pairs)

@[simp] theorem storeAll_nil (m : Params) : storeAll [] m = .ok m := rfl

theorem storeAll_cons (kv : Bytes × Bytes) (kvs : List (Bytes × Bytes)) (m : Params) :
    storeAll (kv :: kvs) m = (do
      let p ← decodePair kv
      storeAll kvs (m.insert p.1 p.2)) := by
  simp only [storeAll, List.mapM_cons, bind, Except.bind]
  cases decodePair kv with
  | error f => rfl
  | ok p => cases kvs.mapM decodePair <;> rfl

theorem storePair_eq (pair : Bytes) (m : Params) :
    storePair pair m = storeAll (splitFirst '='.toUInt8 pair).toList m := by
  rw [storePair, splitFirst_eq_findIdx?]
  cases pair.findIdx? (· == '='.toUInt8) with
  | none => rfl
  | some eqPos =>
      simp only [Option.map_some, Option.toList_some, storeAll_cons, storeAll_nil,
        decodePair, bind, Except.bind]
      cases urlDecode (pair.take eqPos) with
      | error f => rfl
      | ok key => cases urlDecode (pair.drop (eqPos + 1)) <;> rfl

theorem storeAll_append (kvs kvs' : List (Bytes × Bytes)) (m : Params) :
    storeAll (kvs ++ kvs') m = (storeAll kvs m).bind (storeAll kvs') := by
  induction kvs generalizing m with
  | nil => rfl
  | cons kv kvs ih =>
      rw [List.cons_append, storeAll_cons, storeAll_cons]
      cases decodePair kv with
      | error f => rfl
      | ok p => exact ih _

theorem parseLoop_eq (queryString : Bytes) (m : Params) :
    (parseLoop queryString m).bind (fun r => storePair r.1 r.2)
      = storeAll (pairsOf queryString) m := by
  rw [parseLoop]
  have hcut := splitFirst_eq_findIdx? '&'.toUInt8 queryString
  split
  case h_1 h =>
    rw [h] at hcut
    rw [pairsOf, splitOn_of_splitFirst_none hcut]
    simp only [Except.bind, storePair_eq]
    cases hp : splitFirst '='.toUInt8 queryString <;> simp [hp]
  case h_2 pos h =>
    rw [h] at hcut
    have hlt := length_lt_of_splitFirst hcut
    rw [pairsOf, splitOn_of_splitFirst_some hcut, ← List.singleton_append,
      List.filterMap_append, storeAll_append, ← pairsOf]
    have hhead : storeAll ([queryString.take pos].filterMap (splitFirst '='.toUInt8)) m
        = storePair (queryString.take pos) m := by
      rw [storePair_eq]
      cases hp : splitFirst '='.toUInt8 (queryString.take pos) <;> simp [hp]
    rw [hhead]
    cases storePair (queryString.take pos) m with
    | error f => rfl
    | ok m' => exact parseLoop_eq (queryString.drop (pos + 1)) m'
termination_by queryString.length

/-- `PreParseGetParam` on any connection: the path, and the decoded pairs
assigned to the map the connection already holds. -/
theorem preParseGetParam_eq (conn : HttpConnection) :
    preParseGetParam conn = (storeAll (retained conn.request.target) conn.getParams).map
      fun m => { conn with getUrl := pathOf conn.request.target, getParams := m } := by
  have hcut := splitFirst_eq_findIdx? '?'.toUInt8 conn.request.target
  rw [preParseGetParam]
  cases h : conn.request.target.findIdx? (· == '?'.toUInt8) with
  | none =>
      rw [h] at hcut
      simp only [retained, pathOf, hcut, Option.map_none, storeAll_nil]
      rfl
  | some queryPos =>
      rw [h] at hcut
      simp only [retained, pathOf, hcut, Option.map_some]
      rw [← parseLoop_eq]
      simp only [bind, Except.bind]
      cases parseLoop (conn.request.target.drop (queryPos + 1)) conn.getParams with
      | error f => rfl
      | ok r =>
          obtain ⟨_ | ⟨ch, query⟩, m⟩ := r
          · rfl
          · simp only [ne_eq, reduceCtorEq, not_false_eq_true, if_true]
            cases storePair (ch :: query) m <;> rfl

/-! ## When parsing returns -/

theorem decodePair_isOk (kv : Bytes × Bytes) :
    (decodePair kv).isOk = (escapesOk kv.1 && escapesOk kv.2) := by
  rw [← urlDecode_isOk, ← urlDecode_isOk, decodePair]
  cases urlDecode kv.1 with
  | error f => rfl
  | ok key => cases urlDecode kv.2 <;> rfl

theorem decodePair_error {kv : Bytes × Bytes} {f : Fault}
    (h : decodePair kv = .error f) : f.IsAssert := by
  rcases bind_eq_error.mp h with hkey | ⟨key, -, h⟩
  · exact urlDecode_error hkey
  · rcases bind_eq_error.mp h with hvalue | ⟨value, -, h⟩
    · exact urlDecode_error hvalue
    · cases h

theorem storeAll_isOk (kvs : List (Bytes × Bytes)) (m : Params) :
    (storeAll kvs m).isOk = kvs.all fun kv => escapesOk kv.1 && escapesOk kv.2 := by
  induction kvs generalizing m with
  | nil => rfl
  | cons kv kvs ih =>
      rw [storeAll_cons, List.all_cons, ← decodePair_isOk]
      cases decodePair kv with
      | error f => rfl
      | ok p => exact ih _

theorem storeAll_error {kvs : List (Bytes × Bytes)} {m : Params} {f : Fault}
    (h : storeAll kvs m = .error f) : f.IsAssert := by
  induction kvs generalizing m with
  | nil => cases h
  | cons kv kvs ih =>
      rw [storeAll_cons] at h
      rcases bind_eq_error.mp h with hkv | ⟨p, -, hrest⟩
      · exact decodePair_error hkv
      · exact ih hrest

theorem preParseGetParam_isOk (conn : HttpConnection) :
    (preParseGetParam conn).isOk =
      (retained conn.request.target).all fun kv => escapesOk kv.1 && escapesOk kv.2 := by
  rw [preParseGetParam_eq, ← storeAll_isOk _ conn.getParams]
  cases storeAll (retained conn.request.target) conn.getParams <;> rfl

theorem preParseGetParam_error {conn : HttpConnection} {f : Fault}
    (h : preParseGetParam conn = .error f) : f.IsAssert := by
  rw [preParseGetParam_eq] at h
  exact storeAll_error (map_eq_error.mp h)

/-- In every field of the query that has an `=`, behind every `%` stand two
letters or digits. -/
def queryEscapesOk (target : Bytes) : Bool :=
  match splitFirst '?'.toUInt8 target with
  | none => true
  | some (_, query) => (query.splitOn '&'.toUInt8).all fun field =>
      !field.contains '='.toUInt8 || escapesOk field

theorem field_escapesOk (field : Bytes) :
    ((splitFirst '='.toUInt8 field).all fun kv => escapesOk kv.1 && escapesOk kv.2)
      = (!field.contains '='.toUInt8 || escapesOk field) := by
  cases h : splitFirst '='.toUInt8 field with
  | none => simp [splitFirst_eq_none.mp h]
  | some kv =>
      obtain ⟨rfl, -⟩ := splitFirst_eq_some.mp h
      rw [escapesOk_append_cons (by decide) (by decide)]
      simp

theorem retained_escapesOk (target : Bytes) :
    ((retained target).all fun kv => escapesOk kv.1 && escapesOk kv.2)
      = queryEscapesOk target := by
  rw [retained, queryEscapesOk]
  cases splitFirst '?'.toUInt8 target with
  | none => rfl
  | some r =>
      simp only [pairsOf, List.all_filterMap]
      refine congrArg _ (funext fun field => ?_)
      rw [← field_escapesOk]
      cases splitFirst '='.toUInt8 field <;> rfl

/-- **No assert fails** exactly on the targets whose query fields have complete
escapes. -/
theorem preParseGetParam_returns_iff (conn : HttpConnection) :
    (∃ conn', preParseGetParam conn = .ok conn')
      ↔ queryEscapesOk conn.request.target = true := by
  rw [← isOk_iff, preParseGetParam_isOk, retained_escapesOk]

/-- A value that ends in `%` aborts the process. -/
theorem preParseGetParam_aborts :
    AssertFails (preParseGetParam
      (.fresh { method := .get, target := literal "/?a=%" })) := by
  rw [assertFails_iff fun f => preParseGetParam_error, preParseGetParam_isOk]
  decide

/-! ## The source function refines the reference parser -/

theorem assertFails_urlDecode (s : Bytes) :
    AssertFails (urlDecode s) ↔ escapesOk s = false := by
  rw [assertFails_iff fun f => urlDecode_error, urlDecode_isOk]

/-- **Refinement.** On a fresh connection `PreParseGetParam` computes what the
reference parser does, and an assert fails exactly when one fails on a
retained key or value. -/
theorem preParseGetParam_fresh (request : Request) :
    preParseGetParam (.fresh request) = ((referenceParse request.target).map fun r =>
        { HttpConnection.fresh request with getUrl := r.1, getParams := r.2 })
      ∧ (AssertFails (preParseGetParam (.fresh request)) ↔
        ∃ kv ∈ retained request.target,
          AssertFails (urlDecode kv.1) ∨ AssertFails (urlDecode kv.2)) := by
  constructor
  · rw [preParseGetParam_eq, referenceParse, storeAll]
    simp only [HttpConnection.fresh, bind, Except.bind]
    cases (retained request.target).mapM decodePair <;> rfl
  · rw [assertFails_iff fun f => preParseGetParam_error, preParseGetParam_isOk,
      List.all_eq_false]
    simp only [assertFails_urlDecode, Bool.and_eq_true, not_and_or, Bool.not_eq_true,
      HttpConnection.fresh]

/-! ## Parsing an encoded query -/

/-- `k=v` fields joined by `&`, both sides encoded. -/
def encodeQuery (pairs : List (Bytes × Bytes)) : Bytes :=
  ['&'.toUInt8].intercalate
    (pairs.map fun kv => urlEncode kv.1 ++ '='.toUInt8 :: urlEncode kv.2)

set_option maxRecDepth 8000 in
/-- The encoder emits no byte the splitter cuts on. -/
theorem separator_not_mem_urlEncode {sep : Byte} (hsep : sep = '&'.toUInt8 ∨ sep = '='.toUInt8)
    (s : Bytes) : sep ∉ urlEncode s := by
  have hch : ∀ ch, '&'.toUInt8 ∉ encodeChar ch ∧ '='.toUInt8 ∉ encodeChar ch :=
    forall_byte (by decide)
  rw [urlEncode_eq_flatMap, List.mem_flatMap]
  rintro ⟨ch, -, hmem⟩
  rcases hsep with rfl | rfl
  · exact (hch ch).1 hmem
  · exact (hch ch).2 hmem

theorem pairsOf_encodeQuery (pairs : List (Bytes × Bytes)) :
    pairsOf (encodeQuery pairs) = pairs.map fun kv => (urlEncode kv.1, urlEncode kv.2) := by
  rcases eq_or_ne pairs [] with rfl | hne
  · rfl
  · rw [pairsOf, encodeQuery, List.splitOn_intercalate _ _ (by simpa using hne),
      List.filterMap_map, ← List.filterMap_eq_map]
    · refine congrArg (List.filterMap · pairs) (funext fun kv => ?_)
      exact splitFirst_append (separator_not_mem_urlEncode (Or.inr rfl) _) _
    · intro field hfield
      obtain ⟨kv, -, rfl⟩ := List.mem_map.mp hfield
      simp only [List.mem_append, List.mem_cons, not_or]
      exact ⟨separator_not_mem_urlEncode (Or.inl rfl) _, by decide,
        separator_not_mem_urlEncode (Or.inl rfl) _⟩

/-- Some key or value has an unreadable byte. -/
def anyUnreadable (pairs : List (Bytes × Bytes)) : Bool :=
  pairs.any fun kv => kv.1.any unreadable || kv.2.any unreadable

/-- The pairs as they are read back. -/
def pairsReadBack (pairs : List (Bytes × Bytes)) : List (Bytes × Bytes) :=
  pairs.map fun kv => (kv.1.map readBack, kv.2.map readBack)

theorem decodePair_encoded (kv : Bytes × Bytes) :
    decodePair (urlEncode kv.1, urlEncode kv.2)
      = if kv.1.any unreadable || kv.2.any unreadable then .error .assertHex
        else .ok (kv.1.map readBack, kv.2.map readBack) := by
  rw [decodePair, urlDecode_urlEncode_eq, urlDecode_urlEncode_eq]
  cases kv.1.any unreadable <;> cases kv.2.any unreadable <;> rfl

theorem storeAll_encoded_eq (pairs : List (Bytes × Bytes)) (m : Params) :
    storeAll (pairs.map fun kv => (urlEncode kv.1, urlEncode kv.2)) m
      = if anyUnreadable pairs then .error .assertHex
        else .ok (assignAll m (pairsReadBack pairs)) := by
  induction pairs generalizing m with
  | nil => rfl
  | cons kv pairs ih =>
      rw [List.map_cons, storeAll_cons, decodePair_encoded, anyUnreadable, List.any_cons]
      cases kv.1.any unreadable || kv.2.any unreadable with
      | true => rfl
      | false => exact ih _

theorem pairsReadBack_of_ascii {pairs : List (Bytes × Bytes)}
    (h : ∀ kv ∈ pairs, (∀ ch ∈ kv.1, ch < 128) ∧ ∀ ch ∈ kv.2, ch < 128) :
    anyUnreadable pairs = false ∧ pairsReadBack pairs = pairs := by
  constructor
  · refine List.any_eq_false.mpr fun kv hkv => ?_
    rw [(map_readBack (h kv hkv).1).1, (map_readBack (h kv hkv).2).1]
    decide
  · refine (List.map_congr_left fun kv hkv => ?_).trans (List.map_id pairs)
    rw [(map_readBack (h kv hkv).1).2, (map_readBack (h kv hkv).2).2]
    rfl

theorem storeAll_encoded {pairs : List (Bytes × Bytes)}
    (h : ∀ kv ∈ pairs, (∀ ch ∈ kv.1, ch < 128) ∧ ∀ ch ∈ kv.2, ch < 128) (m : Params) :
    storeAll (pairs.map fun kv => (urlEncode kv.1, urlEncode kv.2)) m
      = .ok (assignAll m pairs) := by
  obtain ⟨hreadable, hback⟩ := pairsReadBack_of_ascii h
  rw [storeAll_encoded_eq, hreadable, hback]
  rfl

/-- **Round trip of a query.** Seven-bit keys and values come back from an
encoded target, each key bound to the value of its last occurrence. -/
theorem preParseGetParam_encodeQuery {path : Bytes} (hpath : '?'.toUInt8 ∉ path)
    {pairs : List (Bytes × Bytes)}
    (hascii : ∀ kv ∈ pairs, (∀ ch ∈ kv.1, ch < 128) ∧ ∀ ch ∈ kv.2, ch < 128)
    (request : Request)
    (htarget : request.target = path ++ '?'.toUInt8 :: encodeQuery pairs) :
    ∃ conn, preParseGetParam (.fresh request) = .ok conn ∧ conn.getUrl = path
      ∧ ∀ key, conn.getParams.lookup key = lastValue pairs key := by
  have hcut : splitFirst '?'.toUInt8 request.target = some (path, encodeQuery pairs) := by
    rw [htarget]
    exact splitFirst_append hpath _
  have hretained : retained request.target =
      pairs.map fun kv => (urlEncode kv.1, urlEncode kv.2) := by
    rw [retained, hcut]
    exact pairsOf_encodeQuery pairs
  refine ⟨{ HttpConnection.fresh request with getUrl := path, getParams := ofPairs pairs },
    ?_, rfl, lookup_ofPairs pairs⟩
  rw [preParseGetParam_eq, HttpConnection.fresh, hretained, storeAll_encoded hascii, pathOf,
    hcut]
  rfl

/-- A repeated key with a `%`, and an empty key. -/
theorem preParseGetParam_encodeQuery_repeated :
    ∃ conn, preParseGetParam (.fresh
        { method := .get
          target := literal "/a" ++ '?'.toUInt8 :: encodeQuery
            [(literal "k%", literal "1"), ([], literal "&="), (literal "k%", literal "2")] })
        = .ok conn ∧ conn.getUrl = literal "/a"
      ∧ ∀ key, conn.getParams.lookup key = lastValue
          [(literal "k%", literal "1"), ([], literal "&="), (literal "k%", literal "2")] key :=
  preParseGetParam_encodeQuery (by decide) (by decide +kernel) _ rfl

/-! ## Joining queries -/

theorem pairsOf_append (query query' : Bytes) :
    pairsOf (query ++ '&'.toUInt8 :: query') = pairsOf query ++ pairsOf query' := by
  rw [pairsOf, List.splitOn_append_cons_self, List.filterMap_append]
  rfl

/-- The connection with another target in its request. -/
def HttpConnection.withTarget (conn : HttpConnection) (target : Bytes) : HttpConnection :=
  { conn with request := { conn.request with target } }

/-- Parsing two queries joined by `&` is parsing the one and then, on the connection this
leaves, the other. -/
theorem preParseGetParam_append {path : Bytes} (hpath : '?'.toUInt8 ∉ path)
    (query query' : Bytes) (conn : HttpConnection) :
    preParseGetParam
        (conn.withTarget (path ++ '?'.toUInt8 :: (query ++ '&'.toUInt8 :: query')))
      = (do
        let conn' ← preParseGetParam (conn.withTarget (path ++ '?'.toUInt8 :: query))
        let conn' ← preParseGetParam (conn'.withTarget (path ++ '?'.toUInt8 :: query'))
        .ok (conn'.withTarget (path ++ '?'.toUInt8 :: (query ++ '&'.toUInt8 :: query')))) := by
  have hcut : ∀ q, splitFirst '?'.toUInt8 (path ++ '?'.toUInt8 :: q) = some (path, q) :=
    splitFirst_append hpath
  simp only [preParseGetParam_eq, HttpConnection.withTarget, retained, pathOf, hcut,
    pairsOf_append, storeAll_append]
  cases storeAll (pairsOf query) conn.getParams with
  | error f => rfl
  | ok m =>
      simp only [Except.map, Except.bind, bind]
      cases storeAll (pairsOf query') m <;> rfl

/-- The second query assigns to the key of the first. -/
theorem preParseGetParam_append_same :
    preParseGetParam ((HttpConnection.fresh { method := .get, target := [] }).withTarget
        (literal "/p" ++ '?'.toUInt8 :: (literal "k=1" ++ '&'.toUInt8 :: literal "k=2")))
      = (do
        let conn' ← preParseGetParam
          ((HttpConnection.fresh { method := .get, target := [] }).withTarget
            (literal "/p" ++ '?'.toUInt8 :: literal "k=1"))
        let conn' ← preParseGetParam
          (conn'.withTarget (literal "/p" ++ '?'.toUInt8 :: literal "k=2"))
        .ok (conn'.withTarget (literal "/p" ++ '?'.toUInt8 ::
          (literal "k=1" ++ '&'.toUInt8 :: literal "k=2")))) :=
  preParseGetParam_append (by decide) _ _ _

end CppNet
