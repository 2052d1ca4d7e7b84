import LogEngine.Ingest.Convert
import LogEngine.Query.Result

namespace LogEngine.Query
open Lib Storage Ingest

/-- `QueryResponse` without its duration. -/
structure QueryResponse where
  entries : List LogEntryPB
  total : Int32
  isPartial : Bool
  deriving DecidableEq

inductive QueryStatus where
  | negativeLimit
  | negativeOffset
  | canceled
  | deadlineExceeded
  | failed (err : ExecError)
  deriving DecidableEq

def statusOf : ExecError → QueryStatus
  | .canceled .canceled => .canceled
  | .canceledBeforeRead .canceled => .canceled
  | .canceled .deadlineExceeded => .deadlineExceeded
  | .canceledBeforeRead .deadlineExceeded => .deadlineExceeded
  | err => .failed err

variable {B : BloomPackage}

/-- `QueryServer.Query`. -/
def serve (P : ProtoPackage) (s : Store B) (ctx : Ctx) (req : QueryRequest) :
    Except QueryStatus QueryResponse :=
  if req.limit < 0 then .error .negativeLimit
  else if req.offset < 0 then .error .negativeOffset
  else
    match execute P s ctx req with
    | .error err => .error (statusOf err)
    | .ok result => .ok ⟨result.entries.map entryToProto, result.total, false⟩

end LogEngine.Query
