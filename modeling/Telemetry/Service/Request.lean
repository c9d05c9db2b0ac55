import Telemetry.Service
import Telemetry.Service.Query

/-!
Requests to the stream service and the answers to them. Only reading by exact paths is answered.
-/

namespace Telemetry.Service

structure Request where
  method : String
  /-- The path, behind a scheme and a host if they are told, and the query behind a question
  mark. -/
  target : String
  deriving DecidableEq, Repr

inductive Body where
  | json (j : Json)
  | text (s : String)
  deriving Repr

structure Response where
  status : Nat
  body : Body
  deriving Repr

namespace Response

def notFound : Response := ⟨404, .text ""⟩

def ok (j : Json) : Response := ⟨200, .json j⟩

def refused (e : Error) : Response := ⟨e.status, .text e.message⟩

def badQuery (e : Query.Error) : Response := ⟨400, .text e.message⟩

end Response

inductive Route where
  | info
  | range
  | index
  deriving DecidableEq, Repr

/-- What follows the first occurrence of `mark`, if there is one. -/
def after? (mark : List Char) : List Char → Option (List Char)
  | [] => none
  | c :: rest =>
    if mark.isPrefixOf (c :: rest) then some ((c :: rest).drop mark.length) else after? mark rest

/-- A target without the scheme and the host that may stand before its path. -/
def dropHost (target : List Char) : List Char :=
  if target.head? = some '/' then target
  else match after? "://".toList target with
    | some rest => rest.dropWhile fun c => c != '/' && c != '?' && c != '#'
    | none => []

/-- The path of a target and its query, without what follows a number sign. -/
def splitTarget (target : String) : String × String :=
  let cs := (dropHost target.toList).takeWhile (· != '#')
  let path := cs.takeWhile (· != '?')
  (String.ofList path, String.ofList (cs.drop (path.length + 1)))

/-- In a path, an escaped slash, plus or percent sign stays as it is. -/
def decodePath (path : String) : Bytes :=
  Query.percentDecode (fun b => b == 0x25 || b == 0x2B || b == 0x2F) (Bytes.ofText path)

def Route.ofPath? (path : String) : Option Route :=
  let bytes := decodePath path
  if bytes = Bytes.ofText "/info" then some .info
  else if bytes = Bytes.ofText "/range" then some .range
  else if bytes = Bytes.ofText "/index" then some .index
  else none

def answerRange (s : Service) (query : String) : Response × Service :=
  let asked := do
    let found ← Query.numbers ["start", "end"] query
    return (← Query.required found "start", found.lookup "end")
  match asked with
  | .error e => (.badQuery e, s)
  | .ok (start, stop?) =>
    match s.range start stop? with
    | (.error e, s) => (.refused e, s)
    | (.ok j, s) => (.ok j, s)

def answerIndex (s : Service) (query : String) : Response :=
  match Query.numbers ["from", "count"] query with
  | .error e => .badQuery e
  | .ok found =>
    match s.checkpoints (found.lookup "from") (found.lookup "count") with
    | .error e => .refused e
    | .ok j => .ok j

def handle (s : Service) (request : Request) : Response × Service :=
  if request.method ≠ "GET" then (.notFound, s)
  else
    let (path, query) := splitTarget request.target
    match Route.ofPath? path with
    | none => (.notFound, s)
    | some .info => (.ok s.info, s)
    | some .range => s.answerRange query
    | some .index => (s.answerIndex query, s)

end Telemetry.Service
