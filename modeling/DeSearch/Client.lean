import DeSearch.Auditor
import DeSearch.Querier

/-!
# The client

The web server of an end user (`web_server.cpp`). `go_search` takes a path apart, sends one padded
request to a querier of every partition and shows the answer of one of them. `go_verify` hands the
hashes it collected from the replies to the auditor.

Which queriers are asked, and what they answer, is given: a list of node descriptions, each with
the bytes the one call of `recv` delivers. The web server catches what a search throws and goes on
with the next request, so a search leaves the static variables behind whatever comes of it: the
answers that were collected before an exception stay in `v_response`. After an access out of range
they mean nothing.
-/

namespace DeSearch

open JSON

/-! ## The request -/

/-- `sscanf(s, "%x", &ii)` on at most two characters. -/
def scanHex (s : Bytes) : Option Int :=
  let (neg, r) := splitSign ((cString s).dropWhile isSpace)
  match r with
  | [] => none
  | a :: r =>
      (hexVal a).map fun x =>
        let n : Int := match r.head?.bind hexVal with
          | some y => 16 * x + y
          | none => x
        if neg then -n else n

/-- `url_decode`, with the number of characters still to skip and the value of `ii`, which has none
before the first escape. An escape that is no number leaves `ii` alone. -/
def urlDecode : Nat → Option Int → Bytes → Option Bytes
  | _, _, [] => some []
  | k + 1, ii, _ :: s => urlDecode k ii s
  | 0, ii, c :: s =>
      if c = ch '%' then
        match (scanHex (s.take 2)).or ii with
        | none => none
        | some n => (urlDecode 2 (some n) s).map (Fin.ofNat 256 (n % 256).toNat :: ·)
      else (urlDecode 0 ii s).map ((if c = ch '+' then ch ' ' else c) :: ·)

/-- `std::string::find`. -/
def findSub (needle : Bytes) : Bytes → Option Nat
  | [] => if needle = [] then some 0 else none
  | c :: s => if needle <+: c :: s then some 0 else (findSub needle s).map (· + 1)

/-- The two arguments in the path, as `go_search` cuts them out: the second argument of `substr` is
a length. -/
def splitPath (path : Bytes) : Option (Bytes × Bytes) := do
  let pos1 ← findSub (ascii "/query/") path
  let pos2 ← findSub (ascii "/page/") path
  let query := (path.drop pos1).take pos2
  if query.length < 7 then none
  else some (query.drop 7, (path.drop pos2).drop 6)

/-- `q_real_page`: the page number rounded up over the partitions. -/
def realPage (poolMax : Nat) (page : Int) : Int := -(-page / poolMax)

/-- `pos`: the partition whose answer is shown. -/
def pagePos (poolMax : Nat) (page : Int) : Int :=
  if page.tmod poolMax = 0 then poolMax else page.tmod poolMax

/-- `JSON::size`. -/
def JSON.size : JSON → Int
  | object m => m.length
  | array l => l.length
  | _ => -1

/-- The request to the queriers with its padding. -/
def composeQuery (keywords : Bytes) (page : Int) : Bytes :=
  let realQuery := (null.set (ascii "keywords") (string keywords)).set (ascii "page")
    (string (toDecimal page))
  realQuery.dump 1 ++ List.replicate (512 - realQuery.size).toNat (ch 'x')

/-! ## Search -/

/-- The static variables of the client and of its auditor. -/
@[ext]
structure Client where
  witnessInList : List Bytes
  vResponse : List Bytes
  cache : VerifyCache

def Client.init : Client := ⟨[], [], .init⟩

/-- `BUFFER_SIZE`. -/
def bufferSize : Nat := 10240

/-- `send_request`: what the reply is as a string. A full buffer has no room for the terminator. -/
def recvReply (reply : Bytes) : Option Bytes :=
  if reply.length < bufferSize then some (cString reply) else none

/-- What ends a call that finds nothing. -/
def Fault.orElse {α : Type} (fault : Fault) : Option α → Except Fault α
  | none => .error fault
  | some a => .ok a

variable (R : Runtime) (C : Crypto) (L : LastCharSort)

/-- `extract_witness`: the list grows by the `IN` of the reply and loses its last element, which is
the one before its start if it has none. -/
def extractWitness (witnessInList : List Bytes) (witness : Bytes) : Except Fault (List Bytes) :=
  match readIn R witness with
  | none => .error .exception
  | some ins =>
      if witnessInList ++ ins = [] then .error .range else .ok (witnessInList ++ ins).dropLast

/-- One turn of the loop in `go_search`: a node, and its reply. -/
def askNode (client : Client) (node : Bytes × Bytes) : Except Fault Client := do
  let info ← Fault.exception.orElse (load R node.1)
  let _port ← Fault.exception.orElse (stoi ((info.get (ascii "port")).dump 1))
  let response ← Fault.range.orElse (recvReply node.2)
  let parsed ← Fault.exception.orElse (load R response)
  let witnessInList ← extractWitness R client.witnessInList ((parsed.get (ascii "witness")).dump 1)
  return { client with
    witnessInList := witnessInList
    vResponse := client.vResponse ++ [(parsed.get (ascii "response")).dump 1] }

/-- The loop in `go_search`: what ended it early, and the client. -/
def askNodes : Client → List (Bytes × Bytes) → Option Fault × Client
  | client, [] => (none, client)
  | client, node :: nodes =>
      match askNode R client node with
      | .error fault => (some fault, client)
      | .ok client => askNodes client nodes

/-- `v[i]` of a vector. -/
def vectorAt (v : List Bytes) (i : Int) : Option Bytes := if 0 ≤ i then v[i.toNat]? else none

/-- `go_search` from the point where it has the keywords and the page: the request that is sent and
the answer that is shown, and the client. -/
def searchFor (poolMax : Nat) (client : Client) (keywords : Bytes) (page : Int)
    (nodes : List (Bytes × Bytes)) : Except Fault (Bytes × Bytes) × Client :=
  match askNodes R { client with witnessInList := [] } nodes with
  | (some fault, client) => (.error fault, client)
  | (none, client) =>
      match vectorAt client.vResponse (pagePos poolMax page - 1) with
      | none => (.error .range, client)
      | some answer => (.ok (composeQuery keywords (realPage poolMax page), answer),
          { client with vResponse := [] })

/-- `go_search`, with `INDEX_POOL_MAX` as a parameter. -/
def goSearchAt (poolMax : Nat) (client : Client) (path : Bytes) (nodes : List (Bytes × Bytes)) :
    Except Fault (Bytes × Bytes) × Client :=
  match urlDecode 0 none path with
  -- an escape that is no number, before `ii` has a value
  | none => (.error .range, client)
  | some path =>
      match splitPath path with
      | none => (.error .exception, client)
      | some (keywords, qPage) =>
          searchFor R poolMax client keywords (wrapInt (strtol qPage)) nodes

/-- `go_search`. -/
def goSearch (client : Client) (path : Bytes) (nodes : List (Bytes × Bytes)) :
    Except Fault (Bytes × Bytes) × Client :=
  goSearchAt R indexPoolMax client path nodes

/-! ## Verification -/

/-- What `go_verify` shows for a verdict. -/
def verifyResponse (results : Bytes) : Bytes := (null.set (ascii "results") (string results)).dump 1

/-- `go_verify`: what is shown, and the client. -/
def goVerify (kb : Kanban) (fuel : Nat) (client : Client) (response : Bytes) :
    Option (Bytes × Client) :=
  if client.witnessInList = [] then some (response, client)
  else (doLocalVerify R C L kb fuel client.cache (verifyIn client.witnessInList)
      (ascii "Please search first!")).map fun (results, cache) =>
    (verifyResponse results, { client with cache := cache })

end DeSearch
