import LogEngine.Lib.GoMap
import LogEngine.Storage.Record

namespace LogEngine.Storage
open Lib

def storageProtoToEntry (pb : LogEntryPB) : LogEntry where
  id := pb.id
  timestamp := pb.timestamp
  receivedAt := pb.receivedAt
  «namespace» := pb.namespace
  service := pb.service
  level := pb.level
  message := pb.message
  fields := pb.fields

/-- The message that `appendLocked` and `marshalLogEntry` both build. -/
def storageEntryToProto (e : LogEntry) : LogEntryPB where
  id := e.id
  timestamp := e.timestamp
  receivedAt := e.receivedAt
  service := e.service
  level := e.level
  message := e.message
  fields := e.fields
  «namespace» := e.namespace

def marshalLogEntry (P : ProtoPackage) (e : LogEntry) : Bytes := P.marshal (storageEntryToProto e)

/-- The bytes `Segment.Append` adds to the file for an entry. -/
def record (P : ProtoPackage) (e : LogEntry) : Bytes := frame (marshalLogEntry P e)

/-- The entry's encoding is one that `ReadRecord` does not refuse. -/
def Fits (P : ProtoPackage) (e : LogEntry) : Prop :=
  (marshalLogEntry P e).length ≤ maxRecordSize

instance (P : ProtoPackage) (e : LogEntry) : Decidable (Fits P e) :=
  inferInstanceAs (Decidable (_ ≤ _))

/-- The loop of `ReadSegment` over the payloads that `ReadRecord` returned and the error
that ended them. -/
def decodeRecords (P : ProtoPackage) :
    List Bytes → Option ReadError → Except ReadError (List LogEntry)
  | [], none => .ok []
  | [], some err => .error err
  | data :: rest, err =>
    match P.unmarshal data with
    | none => .error .unmarshal
    | some pb => (decodeRecords P rest err).map (storageProtoToEntry pb :: ·)

/-- `ReadSegment` on the content of the opened file. -/
def decodeSegment (P : ProtoPackage) (bs : Bytes) : Except ReadError (List LogEntry) :=
  decodeRecords P (scanRecords bs).1 (scanRecords bs).2

/-- The files of a node's data directory under their base names. The text of the ACTIVE
marker is kept apart: no other file shares its name. -/
structure Disk where
  files : GoMap String Bytes
  marker : Option String

def Disk.empty : Disk := ⟨.empty, none⟩

def readSegment (P : ProtoPackage) (d : Disk) (path : String) : Except ReadError (List LogEntry) :=
  match d.files.get path with
  | none => .error (.notExist path)
  | some bs => decodeSegment P bs

/-- `Manager.ReadSegments`: paths that no longer exist are skipped. -/
def readSegments (P : ProtoPackage) (d : Disk) : List String → Except ReadError (List LogEntry)
  | [] => .ok []
  | path :: rest =>
    match readSegment P d path with
    | .error (.notExist _) => readSegments P d rest
    | .error err => .error err
    | .ok entries => (readSegments P d rest).map (entries ++ ·)

@[simp] theorem storage_round_trip (e : LogEntry) :
    storageProtoToEntry (storageEntryToProto e) = e := rfl

theorem map_ok {α β ε : Type} {x : Except ε α} {f : α → β} {b : β} :
    x.map f = .ok b ↔ ∃ a, x = .ok a ∧ f a = b := by
  cases x <;> simp [Except.map]

theorem decodeRecords_ok {P : ProtoPackage} {ds : List Bytes} {err : Option ReadError}
    {es : List LogEntry} (h : decodeRecords P ds err = .ok es) : err = none := by
  induction ds generalizing es with
  | nil =>
    cases err with
    | none => rfl
    | some e => simp [decodeRecords] at h
  | cons data rest ih =>
    simp only [decodeRecords] at h
    split at h
    · cases h
    · obtain ⟨tail, ht, _⟩ := map_ok.mp h
      exact ih ht

theorem decodeRecords_append {P : ProtoPackage} {ds more : List Bytes} {err : Option ReadError}
    {es : List LogEntry} (h : decodeRecords P ds none = .ok es) :
    decodeRecords P (ds ++ more) err = (decodeRecords P more err).map (es ++ ·) := by
  induction ds generalizing es with
  | nil =>
    simp only [decodeRecords, Except.ok.injEq] at h
    subst es
    cases h : decodeRecords P more err <;> simp [h, Except.map]
  | cons data rest ih =>
    simp only [decodeRecords, List.cons_append] at h ⊢
    cases hu : P.unmarshal data with
    | none => simp [hu] at h
    | some pb =>
      simp only [hu] at h
      obtain ⟨tail, ht, he⟩ := map_ok.mp h
      subst es
      simp only [ih ht]
      cases decodeRecords P more err <;> simp [Except.map]

/-- A readable file followed by more bytes reads as its entries followed by whatever
those bytes read as on their own. -/
theorem decodeSegment_append {P : ProtoPackage} {bs : Bytes} {es : List LogEntry}
    (h : decodeSegment P bs = .ok es) (tail : Bytes) :
    decodeSegment P (bs ++ tail) = (decodeSegment P tail).map (es ++ ·) := by
  have hend := decodeRecords_ok h
  rw [decodeSegment, hend] at h
  rw [decodeSegment, scanRecords_append hend, decodeRecords_append h]
  rfl

@[simp] theorem decodeSegment_nil (P : ProtoPackage) : decodeSegment P [] = .ok [] := rfl

theorem decodeSegment_record {P : ProtoPackage} (hP : P.Inverts) {e : LogEntry}
    (h : Fits P e) : decodeSegment P (record P e) = .ok [e] := by
  have hs := scanRecords_frame h []
  rw [List.append_nil, scanRecords_nil] at hs
  rw [decodeSegment, record, hs]
  simp [decodeRecords, marshalLogEntry, hP (storageEntryToProto e), Except.map]

/-- Appending one record to a readable file appends one entry. -/
theorem decodeSegment_snoc {P : ProtoPackage} (hP : P.Inverts) {bs : Bytes}
    {es : List LogEntry} {e : LogEntry} (h : decodeSegment P bs = .ok es) (he : Fits P e) :
    decodeSegment P (bs ++ record P e) = .ok (es ++ [e]) := by
  rw [decodeSegment_append h, decodeSegment_record hP he]
  rfl

theorem decodeSegment_records {P : ProtoPackage} (hP : P.Inverts) {es : List LogEntry}
    (h : ∀ e ∈ es, Fits P e) : decodeSegment P (es.flatMap (record P)) = .ok es := by
  induction es with
  | nil => rfl
  | cons e es ih =>
    rw [List.flatMap_cons, decodeSegment_append (decodeSegment_record hP (h e (by simp))),
      ih (fun x hx => h x (by simp [hx]))]
    rfl

theorem readSegments_cons (P : ProtoPackage) (d : Disk) (p : String) (paths : List String) :
    readSegments P d (p :: paths) =
      (readSegments P d [p]).bind (fun es => (readSegments P d paths).map (es ++ ·)) := by
  simp only [readSegments]
  generalize readSegments P d paths = rest
  cases readSegment P d p with
  | error err =>
    cases err with
    | notExist path => cases rest <;> rfl
    | _ => rfl
  | ok es => cases rest <;> simp [Except.map, Except.bind]

/-- Reading segments is reading one after another. -/
theorem readSegments_mapM (P : ProtoPackage) (d : Disk) (paths : List String) :
    (paths.mapM (fun p => readSegments P d [p])).map List.flatten = readSegments P d paths := by
  induction paths with
  | nil => rfl
  | cons p paths ih =>
    rw [List.mapM_cons, readSegments_cons P d p paths, ← ih]
    generalize paths.mapM (fun p => readSegments P d [p]) = rest
    cases readSegments P d [p] with
    | error err => rfl
    | ok es => cases rest <;> rfl

end LogEngine.Storage
