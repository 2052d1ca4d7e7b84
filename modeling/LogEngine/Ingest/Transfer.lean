import LogEngine.Ingest.CatchUp
import LogEngine.Storage.Sound

namespace LogEngine.Ingest
open Lib Storage

variable {B : BloomPackage} {P : ProtoPackage}

/-- A node that can answer the calls of catch-up: its segments are readable. -/
structure Serving (P : ProtoPackage) (totalShards : Int) (n : Node B) : Prop where
  readable : Readable P n.store.disk
  segs : ∀ p ∈ n.store.manager.paths, IsSeg p
  totalShards : n.totalShards = totalShards

theorem transferBuffer_eq {totalShards shard : Int} {es : List LogEntry}
    (h : ∀ e ∈ es, Fits P e) :
    transferBuffer P totalShards shard es =
      .ok ((es.filter (inShard totalShards shard)).flatMap (record P)) := by
  induction es with
  | nil => rfl
  | cons e es ih =>
    have hlen : ¬ (P.marshal (entryToProto e)).length > 2 ^ 32 - 1 := by
      have hle : (P.marshal (entryToProto e)).length ≤ 64 * 1024 * 1024 := h e List.mem_cons_self
      omega
    have htail := ih (fun x hx => h x (List.mem_cons_of_mem _ hx))
    simp only [transferBuffer, writeRecord, if_neg hlen, htail, List.filter_cons]
    split
    · rfl
    · rfl

theorem chunksOf_flatten {fuel : Nat} {payload : Bytes} (h : payload.length ≤ fuel) :
    (chunksOf fuel payload).flatten = payload := by
  induction fuel generalizing payload with
  | zero =>
    have hnil : payload = [] := List.length_eq_zero_iff.mp (Nat.le_zero.mp h)
    rw [hnil]
    rfl
  | succ fuel ih =>
    cases payload with
    | nil => rfl
    | cons b bs =>
      have hlen : ((b :: bs).drop transferChunkSize).length ≤ fuel := by
        have hpos : 0 < transferChunkSize := by decide
        simp only [List.length_drop, List.length_cons] at h ⊢
        omega
      rw [chunksOf, List.flatten_cons, ih hlen, List.take_append_drop]
      simp

/-- What arrives of a transferred segment: the peer's entries of the shard, in a file that
reads back as them. -/
theorem Serving.transferred (hP : P.Inverts) {n : Node B} {totalShards : Int}
    (h : Serving P totalShards n) {name : String} {shardId : Int32} {chunks : List Bytes}
    (ht : n.transferSegment P name shardId = .ok chunks) :
    IsSeg name ∧ decodeSegment P chunks.flatten =
      .ok ((entriesAt P n.store.disk name).filter (inShard totalShards shardId.toInt)) := by
  unfold Node.transferSegment at ht
  split at ht
  · cases ht
  · rename_i hvalid
    have hseg : IsSeg name := by
      simp only [invalidName, Bool.or_eq_true, Bool.not_eq_true', not_or,
        Bool.not_eq_false] at hvalid
      exact hvalid.2
    have hfits := h.readable.fits name hseg
    split at ht
    · cases ht
    · rw [readSegments_single h.readable hseg] at ht
      simp only [transferBuffer_eq hfits, h.totalShards] at ht
      have hshard : ∀ e ∈ (entriesAt P n.store.disk name).filter
          (inShard totalShards shardId.toInt), Fits P e :=
        fun e he => hfits e (List.mem_of_mem_filter he)
      have hdec := decodeSegment_records hP hshard
      split at ht
      · cases ht
      · cases ht
      · rename_i payload hne hpay
        cases ht
        cases hpay
        rw [chunksOf_flatten (Nat.le_refl _)]
        exact ⟨hseg, hdec⟩

/-- The chunks of a transfer that completes. -/
def completed (P : ProtoPackage) (net : Network B) (shard : Int) (name : String) :
    Option (List Bytes) :=
  let faults := net.faults shard
  if faults.call (.transfer name) || faults.createTmp name then none
  else
    match (net.peer shard (.transfer name)).transferSegment P name (Int32.ofInt shard) with
    | .error _ => none
    | .ok chunks => if (faults.stream name).isSome || faults.rename name then none else some chunks

/-- Steps that change neither a segment file nor memory. -/
def Harmless (st : Step B) : Prop :=
  (∀ q ∈ st.touches, ¬ IsSeg q) ∧ st.keepsManager = true ∧ st.keepsIndex = true

theorem received_harmless {name : String} {chunks : List Bytes} {st : Step B}
    (h : st ∈ received (tmpPath name) chunks) : Harmless st := by
  have htmp := tmpPath_not_seg name
  rcases List.mem_cons.mp h with rfl | h
  · exact ⟨by simpa [Step.touches] using htmp, rfl, rfl⟩
  · obtain ⟨c, _, rfl⟩ := List.mem_map.mp h
    exact ⟨by simpa [Step.touches] using htmp, rfl, rfl⟩

theorem abandoned_harmless {name : String} {chunks : List Bytes} {st : Step B}
    (h : st ∈ received (tmpPath name) chunks ++ [.remove (tmpPath name)]) : Harmless st := by
  rcases List.mem_append.mp h with h | h
  · exact received_harmless h
  · rw [List.mem_singleton.mp h]
    exact ⟨by simpa [Step.touches] using tmpPath_not_seg name, rfl, rfl⟩

/-- A turn of the transfer loop installs the segment or leaves the store as it was. -/
theorem transferOne_cases (net : Network B) (shard : Int) (name : String) :
    (∃ chunks, completed P net shard name = some chunks ∧
      (transferOne P net shard name).1 = install P name chunks) ∨
    (completed P net shard name = none ∧ ∀ st ∈ (transferOne P net shard name).1, Harmless st) := by
  unfold completed transferOne
  by_cases hcall : ((net.faults shard).call (.transfer name) ||
      (net.faults shard).createTmp name) = true
  · simp only [if_pos hcall]
    exact .inr ⟨trivial, fun st hst => absurd hst List.not_mem_nil⟩
  simp only [if_neg hcall]
  cases (net.peer shard (.transfer name)).transferSegment P name (Int32.ofInt shard) with
  | error err => exact .inr ⟨rfl, fun st hst => abandoned_harmless hst⟩
  | ok chunks =>
    cases (net.faults shard).stream name with
    | some k => exact .inr ⟨rfl, fun st hst => abandoned_harmless hst⟩
    | none =>
      cases (net.faults shard).rename name with
      | true => exact .inr ⟨rfl, fun st hst => abandoned_harmless hst⟩
      | false => exact .inl ⟨chunks, rfl, rfl⟩

/-- What installing a transferred segment does. -/
structure Installed (t t' : Store B) (name : String) (bs : Bytes) : Prop where
  content : t'.disk.files.get name = some bs
  others : ∀ q, IsSeg q → q ≠ name → t'.disk.files.get q = t.disk.files.get q
  paths : t'.manager.paths = t.manager.paths.dropLast ++ [name] ++ t.manager.paths.getLast?.toList
  active : t'.manager.active = t.manager.active
  nextSeq : t'.manager.nextSeq = t.manager.nextSeq
  marker : t'.disk.marker = t.disk.marker

theorem received_run (t : Store B) (name : String) (chunks : List Bytes) :
    let t' := t.run (received (tmpPath name) chunks)
    t'.disk.files.get (tmpPath name) = some chunks.flatten ∧
      (∀ q, IsSeg q → t'.disk.files.get q = t.disk.files.get q) ∧
      t'.manager = t.manager ∧ t'.disk.marker = t.disk.marker := by
  refine ⟨?_, fun q hq => run_get t (fun st hst hmem => (received_harmless hst).1 q hmem hq),
    run_manager t (fun st hst => (received_harmless hst).2.1), ?_⟩
  · have hempty : (Step.apply t (.truncate (tmpPath name))).disk.files.get (tmpPath name) =
        some [] := by
      simp [Step.apply, Disk.write]
    rw [received, run_cons, appends_run _ chunks hempty, List.nil_append]
  · refine run_preserves (I := fun u => u.disk.marker = t.disk.marker) ?_ rfl
    intro u st hst hu
    rcases List.mem_cons.mp hst with rfl | hst
    · exact hu
    · obtain ⟨c, _, rfl⟩ := List.mem_map.mp hst
      exact hu

theorem loadSegment_layout (m : Manager B) (d : Disk) (path : String) :
    (m.loadSegment d path).paths = m.paths.dropLast ++ [path] ++ m.paths.getLast?.toList ∧
      (m.loadSegment d path).active = m.active ∧ (m.loadSegment d path).nextSeq = m.nextSeq := by
  simp only [Manager.loadSegment]
  split
  · have h := loadBloom_layout
      { m with paths := m.paths.dropLast ++ [path] ++ m.paths.getLast?.toList } d path
    exact ⟨h.paths, h.active, h.nextSeq⟩
  · exact ⟨rfl, rfl, rfl⟩

theorem indexAdds_run (t : Store B) (es : List LogEntry) (name : String) :
    (t.run (es.map (fun e => .indexAdd e name))).disk = t.disk ∧
      (t.run (es.map (fun e => .indexAdd e name))).manager = t.manager := by
  refine ⟨run_preserves (I := fun u => u.disk = t.disk) ?_ rfl,
    run_preserves (I := fun u => u.manager = t.manager) ?_ rfl⟩ <;>
  · intro u st hst hu
    obtain ⟨e, _, rfl⟩ := List.mem_map.mp hst
    simpa only [Step.apply] using hu

theorem install_spec (t : Store B) (name : String) (chunks : List Bytes) :
    Installed t (t.run (install P name chunks)) name chunks.flatten := by
  obtain ⟨htmp, hget, hman, hmark⟩ := received_run t name chunks
  rw [install, run_append, run_append]
  generalize t.run (received (tmpPath name) chunks) = u at *
  obtain ⟨hd, hm⟩ := indexAdds_run (u.run [.rename (tmpPath name) name, .loadSegment name])
    (indexable P chunks) name
  have hne : ∀ q, IsSeg q → q ≠ tmpPath name := fun q hq he => tmpPath_not_seg name (he ▸ hq)
  have hrun : u.run [.rename (tmpPath name) name, .loadSegment name] =
      { u with
        disk := { u.disk with
          files := (u.disk.files.delete (tmpPath name)).set name chunks.flatten }
        manager := u.manager.loadSegment { u.disk with
          files := (u.disk.files.delete (tmpPath name)).set name chunks.flatten } name } := by
    simp only [run_cons, run_nil, Step.apply, Disk.rename, htmp]
  obtain ⟨lpaths, lactive, lseq⟩ := loadSegment_layout u.manager
    { u.disk with files := (u.disk.files.delete (tmpPath name)).set name chunks.flatten } name
  constructor
  · rw [hd, hrun]
    exact GoMap.get_set_self _ _ _
  · intro q hq hqn
    rw [hd, hrun, ← hget q hq]
    exact (GoMap.get_set_ne _ _ hqn).trans (GoMap.get_delete_ne _ (hne q hq))
  · rw [hm, hrun, ← hman]
    exact lpaths
  · rw [hm, hrun, ← hman]
    exact lactive
  · rw [hm, hrun, ← hman]
    exact lseq
  · rw [hd, hrun]
    exact hmark

theorem Installed.mem_paths {t t' : Store B} {name : String} {bs : Bytes}
    (h : Installed t t' name bs) (p : String) :
    p ∈ t'.manager.paths ↔ p ∈ t.manager.paths ∨ p = name := by
  rw [h.paths]
  rcases List.eq_nil_or_concat' t.manager.paths with hnil | ⟨front, last, hcat⟩
  · simp [hnil]
  · simp only [hcat, List.dropLast_concat, List.getLast?_concat, Option.toList_some,
      List.mem_append, List.mem_singleton]
    tauto

theorem Installed.getLast? {t t' : Store B} {name last : String} {bs : Bytes}
    (h : Installed t t' name bs) (hlast : t.manager.paths.getLast? = some last) :
    t'.manager.paths.getLast? = some last := by
  rw [h.paths, hlast, Option.toList_some, List.getLast?_concat]

/-- Installing a readable segment keeps the store sound and replaces one file. -/
theorem Installed.sound {t t' : Store B} {name : String} {bs : Bytes} {es : List LogEntry}
    (h : Installed t t' name bs) (ht : Sound P t) (hseg : IsSeg name)
    (hdec : decodeSegment P bs = .ok es) (hfits : ∀ e ∈ es, Fits P e) :
    Sound P t' ∧ ∀ q, IsSeg q →
      entriesAt P t'.disk q = if q = name then es else entriesAt P t.disk q := by
  have hentries : ∀ q, IsSeg q →
      entriesAt P t'.disk q = if q = name then es else entriesAt P t.disk q := by
    intro q hq
    split
    · rename_i heq
      exact entriesAt_some (heq ▸ h.content) hdec
    · rename_i hne
      exact entriesAt_congr (h.others q hq hne)
  refine ⟨⟨⟨?_, ?_⟩, ?_, ?_, ?_⟩, hentries⟩
  · intro q bs' hq hget
    by_cases hqn : q = name
    · subst q
      rw [h.content] at hget
      cases hget
      exact ⟨es, hdec⟩
    · rw [h.others q hq hqn] at hget
      exact ht.readable.decodes q bs' hq hget
  · intro q hq e he
    rw [hentries q hq] at he
    split at he
    · exact hfits e he
    · exact ht.readable.fits q hq e he
  · obtain ⟨seg, hactive, hlast⟩ := ht.active
    exact ⟨seg, h.active.trans hactive, h.getLast? hlast⟩
  · intro p hp
    rcases (h.mem_paths p).mp hp with hp | rfl
    · exact ht.segs p hp
    · exact hseg
  · intro p hp hsome
    by_cases hpn : p = name
    · exact (h.mem_paths p).mpr (.inr hpn)
    · rw [h.others p hp hpn] at hsome
      exact (h.mem_paths p).mpr (.inl (ht.listed p hp hsome))

theorem Harmless.run {t : Store B} {steps : List (Step B)} (h : ∀ st ∈ steps, Harmless st) :
    (∀ q, IsSeg q → (t.run steps).disk.files.get q = t.disk.files.get q) ∧
      (t.run steps).manager = t.manager :=
  ⟨fun q hq => run_get t (fun st hst hmem => (h st hst).1 q hmem hq),
    run_manager t (fun st hst => (h st hst).2.1)⟩

/-- The entries that a transfer of some names leaves in a file, when it replaces it. -/
def delivered (P : ProtoPackage) (net : Network B) (shard : Int) (names : List String)
    (q : String) : Option (List LogEntry) :=
  if q ∈ names then (completed P net shard q).map (indexable P) else none

theorem completed_spec (hP : P.Inverts) {net : Network B} {totalShards shard : Int}
    (hnet : ∀ call, Serving P totalShards (net.peer shard call)) {name : String}
    {chunks : List Bytes} (h : completed P net shard name = some chunks) :
    IsSeg name ∧ decodeSegment P chunks.flatten = .ok (indexable P chunks) ∧
      indexable P chunks = (entriesAt P (net.peer shard (.transfer name)).store.disk name).filter
        (inShard totalShards (Int32.ofInt shard).toInt) := by
  unfold completed at h
  by_cases hcall : ((net.faults shard).call (.transfer name) ||
      (net.faults shard).createTmp name) = true
  · simp [hcall] at h
  · simp only [if_neg hcall] at h
    split at h
    · cases h
    · rename_i chunks' ht
      split at h
      · cases h
      · cases h
        obtain ⟨hseg, hdec⟩ := (hnet (.transfer name)).transferred hP ht
        simp only [indexable, hdec]
        exact ⟨hseg, trivial, trivial⟩

theorem completed_fits (hP : P.Inverts) {net : Network B} {totalShards shard : Int}
    (hnet : ∀ call, Serving P totalShards (net.peer shard call)) {name : String}
    {chunks : List Bytes} (h : completed P net shard name = some chunks) :
    ∀ e ∈ indexable P chunks, Fits P e := by
  obtain ⟨hseg, -, heq⟩ := completed_spec hP hnet h
  rw [heq]
  exact fun e he => (hnet (.transfer name)).readable.fits name hseg e (List.mem_of_mem_filter he)

/-- What the transfer loop over some names does: each completed transfer replaces the file of
its name and lists it as closed, and nothing else changes. -/
structure Transferred (P : ProtoPackage) (net : Network B) (shard : Int) (names : List String)
    (t t' : Store B) : Prop where
  sound : Sound P t'
  last : t'.manager.paths.getLast? = t.manager.paths.getLast?
  active : t'.manager.active = t.manager.active
  closed : ∀ p, p ∈ t'.manager.listClosedSegments ↔
    p ∈ t.manager.listClosedSegments ∨ p ∈ names ∧ (completed P net shard p).isSome = true
  entries : ∀ q, IsSeg q →
    entriesAt P t'.disk q = (delivered P net shard names q).getD (entriesAt P t.disk q)

theorem Installed.closed {t t' : Store B} {name : String} {bs : Bytes}
    (h : Installed t t' name bs) (ht : Sound P t) :
    t'.manager.listClosedSegments = t.manager.listClosedSegments ++ [name] := by
  obtain ⟨seg, -, hlast⟩ := ht.active
  rw [Manager.listClosedSegments, h.paths, hlast, Option.toList_some, List.dropLast_concat]
  rfl

theorem transfers_run (hP : P.Inverts) {net : Network B} {totalShards shard : Int}
    (hnet : ∀ call, Serving P totalShards (net.peer shard call)) (names : List String)
    {t : Store B} (ht : Sound P t) :
    Transferred P net shard names t
      (t.run ((names.map (transferOne P net shard)).flatMap Prod.fst)) := by
  induction names generalizing t with
  | nil => exact ⟨ht, rfl, rfl, fun p => by simp, fun q _ => by simp [delivered]⟩
  | cons name names ih =>
    simp only [List.map_cons, List.flatMap_cons, run_append]
    rcases transferOne_cases (P := P) net shard name with ⟨chunks, hc, heq⟩ | ⟨hc, hharm⟩
    · obtain ⟨hseg, hdec, -⟩ := completed_spec hP hnet hc
      have hinst := install_spec (P := P) t name chunks
      obtain ⟨hsound, hentries⟩ :=
        hinst.sound ht hseg hdec (completed_fits hP hnet hc)
      obtain ⟨seg, -, hlast⟩ := ht.active
      rw [heq]
      have hrest := ih hsound
      refine ⟨hrest.sound, hrest.last.trans ((hinst.getLast? hlast).trans hlast.symm),
        hrest.active.trans hinst.active, fun p => ?_, fun q hq => ?_⟩
      · rw [hrest.closed p, hinst.closed ht, List.mem_append, List.mem_singleton, List.mem_cons]
        by_cases hpn : p = name
        · simp [hpn, hc]
        · simp [hpn]
      · rw [hrest.entries q hq, hentries q hq]
        by_cases hqn : q = name
        · subst hqn
          by_cases hmem : q ∈ names <;> simp [delivered, hc, hmem]
        · simp [delivered, hqn]
    · obtain ⟨hget, hman⟩ := Harmless.run (t := t) hharm
      have hrest := ih (ht.congr hman hget)
      refine ⟨hrest.sound, hrest.last.trans (by rw [hman]), hrest.active.trans (by rw [hman]),
        fun p => ?_, fun q hq => ?_⟩
      · rw [hrest.closed p, hman, List.mem_cons]
        by_cases hpn : p = name
        · simp [hpn, hc]
        · simp [hpn]
      · rw [hrest.entries q hq, entriesAt_congr (hget q hq)]
        by_cases hqn : q = name
        · subst hqn
          simp [delivered, hc]
        · simp [delivered, hqn]

theorem transferMissing_run (hP : P.Inverts) {net : Network B} {totalShards shard : Int}
    (hnet : ∀ call, Serving P totalShards (net.peer shard call)) {s : Store B} (hs : Sound P s) :
    Transferred P net shard (missingNames P net totalShards shard s) s
      (s.run (transferMissingSegments P net totalShards shard s).1) :=
  transfers_run hP hnet _ hs

end LogEngine.Ingest
