import LogEngine.Coordinator.Cache
import LogEngine.Coordinator.Merge
import LogEngine.Metadata.State

namespace LogEngine.Coordinator
open Lib Storage Query Metadata
open Ingest (entryToProto protoToEntry)

/-- `types.QueryResult` of the coordinator, without its duration. -/
structure Result where
  entries : List LogEntry
  total : Int32
  isPartial : Bool
  deriving DecidableEq

def cacheTTL : Int := 30 * 1000000000

def cacheMaxItems : Int := 256

/-- The text that `CacheKey` hashes. -/
def keyText (req : QueryRequest) : String :=
  req.queryString ++ "|" ++ req.namespace ++ "|" ++ req.service ++ "|" ++
    decimal req.startTime.toInt ++ "|" ++ decimal req.endTime.toInt ++ "|" ++
    decimal req.limit.toInt ++ "|" ++ decimal req.offset.toInt

/-- `CacheKey`, with `sha256` for the hash and its hexadecimal form. -/
def cacheKey (sha256 : Bytes → String) (req : QueryRequest) : String :=
  sha256 (utf8 (keyText req))

/-- `FanOutExecutor` without its connections. -/
structure FanOutExecutor where
  fanOutLimit : Int32
  cache : QueryCache String Result

def FanOutExecutor.new (fanOutLimit : Int32) : FanOutExecutor :=
  ⟨fanOutLimit, .new cacheTTL cacheMaxItems⟩

/-- What one call of `Execute` meets: the cluster state and the order in which it ranges over the
nodes, the order in which the answers arrive, the store of the node that answers at an address
within the deadline, the error of the caller's context after the answers, and the clock when the
cache is asked and when it is filled. -/
structure World (B : BloomPackage) where
  state : ClusterState
  targetOrder : Order String
  arrival : Order NodeResult
  reach : String → Option (Store B)
  ctxErr : Option CtxError
  asked : Int
  filled : Int

variable {B : BloomPackage} (P : ProtoPackage)

/-- The node that a target's ID stands for, where it is one. -/
def targetAddress (cs : ClusterState) (id : String) : Option (String × String) :=
  match cs.nodes.get id with
  | some n => if n.status = .healthy ∧ n.address ≠ "" then some (id, n.address) else none
  | none => none

/-- The targets: healthy nodes with an address. -/
def targets (w : World B) : List (String × String) :=
  (w.targetOrder.arrange w.state.nodes.keys).filterMap (targetAddress w.state)

/-- The limit of the client, 100 where it gives none. -/
def clientLimit (req : QueryRequest) : Int32 := if req.limit = 0 then 100 else req.limit

/-- The limit sent to each node. The sum wraps on 32 bits. -/
def nodeLimit (fanOutLimit : Int32) (req : QueryRequest) : Int32 :=
  let sum := req.offset + clientLimit req
  if fanOutLimit < sum then sum else fanOutLimit

/-- The request sent to each node. -/
def fanRequest (fanOutLimit : Int32) (req : QueryRequest) : QueryRequest :=
  { req with limit := nodeLimit fanOutLimit req, offset := 0 }

/-- One target's goroutine. -/
def ask (w : World B) (fanReq : QueryRequest) (target : String × String) : NodeResult :=
  match w.reach target.2 with
  | none => ⟨target.1, [], 0, some .unreachable⟩
  | some s =>
    match serve P s .background fanReq with
    | .error status => ⟨target.1, [], 0, some (.status status)⟩
    | .ok resp => ⟨target.1, resp.entries.map protoToEntry, resp.total, none⟩

/-- `Execute` below the cache. -/
def fanOut (fanOutLimit : Int32) (w : World B) (req : QueryRequest) : Except CtxError Result :=
  match w.ctxErr with
  | some err => .error err
  | none =>
    let parts := w.arrival.arrange ((targets w).map (ask P w (fanRequest fanOutLimit req)))
    let out := mergeResults parts req.offset (clientLimit req)
    .ok ⟨out.entries, out.total, out.isPartial⟩

def FanOutExecutor.execute (sha256 : Bytes → String) (e : FanOutExecutor) (w : World B)
    (req : QueryRequest) : FanOutExecutor × Except CtxError Result :=
  let key := cacheKey sha256 req
  match e.cache.get w.asked key with
  | (cache, some cached) => ({ e with cache }, .ok cached)
  | (cache, none) =>
    match fanOut P e.fanOutLimit w req with
    | .error err => ({ e with cache }, .error err)
    | .ok result =>
      if result.isPartial then ({ e with cache }, .ok result)
      else ({ e with cache := cache.put w.filled key result }, .ok result)

/-- The status for an error of the fan-out. -/
def contextStatus : CtxError → QueryStatus
  | .canceled => .canceled
  | .deadlineExceeded => .deadlineExceeded

def FanOutExecutor.query (sha256 : Bytes → String) (e : FanOutExecutor) (w : World B)
    (req : QueryRequest) : FanOutExecutor × Except QueryStatus QueryResponse :=
  if req.limit < 0 then (e, .error .negativeLimit)
  else if req.offset < 0 then (e, .error .negativeOffset)
  else
    match e.execute P sha256 w req with
    | (e', .error err) => (e', .error (contextStatus err))
    | (e', .ok result) =>
      (e', .ok ⟨result.entries.map entryToProto, result.total, result.isPartial⟩)

end LogEngine.Coordinator
