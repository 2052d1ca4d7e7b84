import LogEngine.Storage.Read

namespace LogEngine.Ingest
open Lib

/-- FNV-1a over bytes, as `hash/fnv` computes it on 32 bits. -/
def fnv32a (bs : Bytes) : UInt32 :=
  bs.foldl (fun h b => (h ^^^ b.toUInt32) * 16777619) 2166136261

def shardID («namespace» service : String) (totalShards : Int) : Int :=
  if totalShards ≤ 0 then 0
  else (fnv32a (utf8 («namespace» ++ ":" ++ service))).toNat % totalShards

/-- `ShardID` of an entry's own namespace and service. -/
def shardOf (totalShards : Int) (e : LogEntry) : Int :=
  shardID e.namespace e.service totalShards

def protoToEntry (pb : LogEntryPB) : LogEntry where
  id := pb.id
  timestamp := pb.timestamp
  receivedAt := pb.receivedAt
  «namespace» := pb.namespace
  service := pb.service
  level := pb.level
  message := pb.message
  fields := pb.fields

def entryToProto (e : LogEntry) : LogEntryPB where
  id := e.id
  timestamp := e.timestamp
  receivedAt := e.receivedAt
  «namespace» := e.namespace
  service := e.service
  level := e.level
  message := e.message
  fields := e.fields

@[simp] theorem proto_round_trip (e : LogEntry) : protoToEntry (entryToProto e) = e := rfl

theorem shardID_nonneg («namespace» service : String) (totalShards : Int) :
    0 ≤ shardID «namespace» service totalShards := by
  unfold shardID
  split
  · exact Int.le_refl 0
  · exact Int.emod_nonneg _ (by omega)

theorem shardID_lt («namespace» service : String) {totalShards : Int} (h : 0 < totalShards) :
    shardID «namespace» service totalShards < totalShards := by
  unfold shardID
  rw [if_neg (Int.not_le.mpr h)]
  exact Int.emod_lt_of_pos _ h

end LogEngine.Ingest
