import CppNet.Cxx
import Mathlib.Data.Finmap

/-!
# The state of an HTTP connection

The members of `HttpConnection` that request handling reads and writes, with
what it uses of beast's request and response. `get_params_` is an
`std::unordered_map`, whose order of iteration is unspecified: a `Finmap`.
-/

namespace CppNet

/-- `beast::http::verb`. -/
inductive Verb
  | unknown | delete | get | head | post | put | connect | options | trace
  | copy | lock | mkcol | move | propfind | proppatch | search | unlock
  | bind | rebind | unbind | acl | report | mkactivity | checkout | merge
  | msearch | notify | subscribe | unsubscribe | patch | purge | mkcalendar
  | link | unlink
deriving Repr, DecidableEq

structure Request where
  method : Verb
  target : Bytes
  version : Nat := 11
deriving Repr, DecidableEq

/-- The parts of a `beast::http::response` the server sets, as beast
initialises them. -/
structure Response where
  version : Nat := 11
  keepAlive : Bool := true
  result : Nat := 200
  contentType : Option String := none
  server : Option String := none
  contentLength : Option Nat := none
  body : Bytes := []
deriving Repr, DecidableEq

abbrev Params := Finmap fun _ : Bytes => Bytes

structure HttpConnection where
  request : Request
  response : Response := {}
  getUrl : Bytes := []
  getParams : Params := ∅

/-- A connection whose request has just been read. -/
def HttpConnection.fresh (request : Request) : HttpConnection := { request }

/-- A string literal of the source. -/
def literal (s : String) : Bytes := s.toList.map Char.toUInt8

end CppNet
