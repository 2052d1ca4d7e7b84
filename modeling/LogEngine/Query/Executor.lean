import LogEngine.Lib.Firsts
import LogEngine.Query.Parser
import LogEngine.Storage.Manager

namespace LogEngine.Query
open Lib Storage

def tokenize (s : String) : List String := alnumRuns (toLower s)

def matchField (e : LogEntry) (field value : String) : Bool :=
  let f := toLower field
  if f = "level" then equalFold e.level value
  else if f = "service" then e.service = value
  else if f = "namespace" then e.namespace = value
  else if f = "message" then (tokenize e.message).contains (toLower value)
  else e.fields.get field = value

/-- `matchesNode` below the nil test. -/
def matchesTree (e : LogEntry) : Node → Bool
  | .and l r => matchesTree e l && matchesTree e r
  | .or l r => matchesTree e l || matchesTree e r
  | .term token => (tokenize e.message).contains token
  | .field field value => matchField e field value

def matchesNode (e : LogEntry) : Option Node → Bool
  | none => true
  | some node => matchesTree e node

variable {B : BloomPackage}

def bloomDefiniteMiss (bf : B.Filter) : Node → Bool
  | .and l r => bloomDefiniteMiss bf l || bloomDefiniteMiss bf r
  | .or _ _ => false
  | .term token => !B.testString bf token
  | .field _ value => !B.testString bf (toLower value)

def collectTermTokens : Node → List String
  | .and l r => collectTermTokens l ++ collectTermTokens r
  | .or _ _ => []
  | .term token => [token]
  | .field _ _ => []

def indexTokens (ast : Option Node) : List String :=
  match ast with
  | none => []
  | some node => collectTermTokens node

/-- The bloom test of `Execute` on one resolved path. -/
def pruned (blooms : GoMap String B.Filter) (ast : Option Node) (path : String) : Bool :=
  match blooms.get path, ast with
  | some bf, some node => bloomDefiniteMiss bf node
  | _, _ => false

/-- The loop of `Execute` that keeps the first record of each ID. -/
def dedup (raw : List LogEntry) : List LogEntry := firsts LogEntry.id [] raw

/-- The filter loop of `Execute`. -/
def selects (req : QueryRequest) (ast : Option Node) (e : LogEntry) : Bool :=
  !(req.namespace ≠ "" && e.namespace ≠ req.namespace) &&
  !(req.service ≠ "" && e.service ≠ req.service) &&
  matchesNode e ast &&
  !(req.startTime > 0 && e.timestamp < req.startTime) &&
  !(req.endTime > 0 && e.timestamp > req.endTime)

/-- Newest first, then by ID: the order of the less function given to `sort.Slice`. -/
def before (a b : LogEntry) : Prop :=
  b.timestamp.toInt < a.timestamp.toInt ∨ (a.timestamp = b.timestamp ∧ a.id ≤ b.id)

instance (a b : LogEntry) : Decidable (before a b) := inferInstanceAs (Decidable (_ ∨ _))

def defaultLimit : Int32 := 100

/-- The entries of a page: offset and limit are cut to the length of what is left. -/
def page (limit offset : Int32) (matched : List LogEntry) : List LogEntry :=
  (matched.drop offset.toInt.toNat).take limit.toInt.toNat

/-- The entries that `Execute` counts, in the order in which it pages through them. -/
def matched (req : QueryRequest) (ast : Option Node) (raw : List LogEntry) : List LogEntry :=
  ((dedup raw).filter (selects req ast)).insertionSort before

/-- `Execute` from the raw entries on: dedup, filter, sort, count, page. -/
def finishQuery (req : QueryRequest) (ast : Option Node) (raw : List LogEntry) : QueryResult :=
  { entries := page (if req.limit = 0 then defaultLimit else req.limit) req.offset
      (matched req ast raw)
    total := Int32.ofNat (matched req ast raw).length }

inductive CtxError where
  | canceled
  | deadlineExceeded
  deriving DecidableEq

/-- What the two calls of `ctx.Err` in `Execute` return. -/
structure Ctx where
  atStart : Option CtxError
  atRead : Option CtxError

/-- A context that is never cancelled. -/
def Ctx.background : Ctx := ⟨none, none⟩

inductive ExecError where
  | negativeLimit
  | negativeOffset
  | canceled (err : CtxError)
  | parse (err : ParseError)
  | canceledBeforeRead (err : CtxError)
  | read (err : ReadError)
  deriving DecidableEq

/-- The segments `Execute` looks into for a parsed query. -/
def resolved (s : Store B) (req : QueryRequest) (ast : Option Node) : List String :=
  s.index.resolve (indexTokens ast) req.namespace req.service req.startTime req.endTime

/-- `Execute` once the query is parsed. -/
def runQuery (P : ProtoPackage) (s : Store B) (ctx : Ctx) (req : QueryRequest)
    (ast : Option Node) : Except ExecError QueryResult :=
  let paths := (resolved s req ast).filter (fun p => !pruned s.manager.blooms ast p)
  if paths = [] then .ok (finishQuery req ast [])
  else
    match ctx.atRead with
    | some err => .error (.canceledBeforeRead err)
    | none =>
      match readSegments P s.disk paths with
      | .error err => .error (.read err)
      | .ok raw => .ok (finishQuery req ast raw)

def execute (P : ProtoPackage) (s : Store B) (ctx : Ctx) (req : QueryRequest) :
    Except ExecError QueryResult :=
  if req.limit < 0 then .error .negativeLimit
  else if req.offset < 0 then .error .negativeOffset
  else
    match ctx.atStart with
    | some err => .error (.canceled err)
    | none =>
      match parse req.queryString with
      | .error err => .error (.parse err)
      | .ok ast => runQuery P s ctx req ast

end LogEngine.Query
