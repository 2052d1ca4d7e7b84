import Mathlib.Data.List.Perm.Basic
import LogEngine.Query.FullScan
import LogEngine.Query.InFlight
import LogEngine.Storage.LiveRead
import LogEngine.Storage.MidAppend
import LogEngine.Storage.Torn

namespace LogEngine.Query
open Lib Storage

variable {B : BloomPackage} {P : ProtoPackage}

/-- Handlers of a node that ingest at the same time. One of them may hold the manager's lock, with
the steps of its append that are left; those that have appended wait to add their entry to the
index. -/
structure Race (B : BloomPackage) where
  store : Store B
  writing : Option (LogEntry × List (Step B))
  waiting : List (LogEntry × String)
  acked : List LogEntry

inductive RaceStep where
  | lock (e : LogEntry)
  | write
  | add (k : Nat)

namespace Race

/-- A node at rest with the entries it has stored. -/
def init (s : Store B) (stored : List LogEntry) : Race B := ⟨s, none, [], stored⟩

/-- `writeLocal` step by step. A step that cannot be taken now changes nothing. -/
def step (P : ProtoPackage) (r : Race B) : RaceStep → Race B
  | .lock e =>
    match r.writing with
    | some _ => r
    | none =>
      match (appendLocked P r.store e true).2 with
      | some _ => { r with store := r.store.run (appendLocked P r.store e true).1 }
      | none => { r with writing := some (e, (appendLocked P r.store e true).1) }
  | .write =>
    match r.writing with
    | none => r
    | some (e, []) =>
      { r with
        writing := none
        waiting := r.waiting ++ [(e, r.store.manager.activeSegmentName)] }
    | some (e, st :: steps) =>
      { r with store := Step.apply r.store st, writing := some (e, steps) }
  | .add k =>
    match r.waiting[k]? with
    | none => r
    | some (e, path) =>
      { r with
        store := ⟨r.store.disk, r.store.manager, r.store.index.add e path⟩
        waiting := r.waiting.eraseIdx k
        acked := r.acked ++ [e] }

def run (P : ProtoPackage) (r : Race B) (steps : List RaceStep) : Race B := steps.foldl (step P) r

/-- The entries whose append has begun. -/
def known (r : Race B) : List LogEntry :=
  r.acked ++ r.waiting.map Prod.fst ++ r.writing.toList.map Prod.fst

/-- The append that holds the lock has written a record's length to the file and none of its
data. -/
def MidRecord (r : Race B) (p : String) : Prop :=
  ∃ e data n, r.writing = some (e, [.append p data, .grow n]) ∧ data ≠ []

end Race

/-- When a query opens and reads the files: the number of steps that the handlers have taken. A
read may return less than what is there. -/
structure ReadSchedule where
  opened : String → Nat
  reads : String → Nat → Nat
  quota : String → Nat → Nat
  reads_mono : ∀ p i j, i ≤ j → reads p i ≤ reads p j

section Reading

variable (P : ProtoPackage) (r : Race B) (during : List RaceStep) (τ : ReadSchedule)

/-- The content of a file at each read of it. -/
def fileAt (p : String) (k : Nat) : Bytes :=
  (r.run P (during.take (τ.reads p k))).store.content p

/-- The size that the file has in the end. -/
def finalSize (p : String) : Nat := ((r.run P during).store.content p).length

/-- One path of `ReadSegments`: a file that is not there is skipped. -/
def raceRead (p : String) : Except ReadError (List LogEntry) :=
  match (r.run P (during.take (τ.opened p))).store.disk.files.get p with
  | none => .ok []
  | some _ => liveSegment P (fileAt P r during τ p) (τ.quota p) (finalSize P r during p)

/-- The state of the node at the last read of a path. -/
def lastSeen (p : String) : Race B :=
  r.run P (during.take (τ.reads p
    (liveReads (fileAt P r during τ p) (τ.quota p) (finalSize P r during p) - 1)))

/-- `Execute` from `Resolve` on, while handlers go on. -/
def raceQuery (req : QueryRequest) (ast : Option Node) : Except ExecError QueryResult :=
  match (readPaths r.store req ast).mapM (raceRead P r during τ) with
  | .error err => .error (.read err)
  | .ok raws => .ok (finishQuery req ast raws.flatten)

end Reading

namespace Race

/-- The append that holds the lock is somewhere in its steps, and otherwise the files are the
log. -/
def Aligned (P : ProtoPackage) (r : Race B) (log : String → List LogEntry) : Prop :=
  match r.writing with
  | none => Logged P r.store log
  | some (e, todo) => ∃ s done, Logged P s log ∧ s.manager.bloomEnabled = false ∧ Writable P e ∧
      (appendLocked P s e true).1 = done ++ todo ∧ r.store.disk = (s.run done).disk ∧
      r.store.manager = (s.run done).manager

/-- The index leads to the acknowledged entries, and only to what is stored. -/
structure Reachable (P : ProtoPackage) (r : Race B) (log : String → List LogEntry) : Prop where
  aligned : r.Aligned P log
  off : r.store.manager.bloomEnabled = false
  bloomless : r.store.manager.blooms = .empty
  waits : ∀ w ∈ r.waiting, w.1 ∈ log w.2
  stored : ∀ p, ∀ e ∈ log p, e ∈ r.acked ++ r.waiting.map Prod.fst
  indexed : ∃ live, Index.Rep r.store.index live ∧ (∀ p e, (p, e) ∈ live → e ∈ log p) ∧
    ∀ e ∈ r.acked, ∃ p, (p, e) ∈ live

variable {r : Race B} {log : String → List LogEntry}

theorem Reachable.lock (h : r.Reachable P log) (e : LogEntry) :
    (r.step P (.lock e)).Reachable P log := by
  simp only [step]
  cases hw : r.writing with
  | some w => exact h
  | none =>
    have hlogged : Logged P r.store log := by
      have haligned := h.aligned
      simp only [Aligned, hw] at haligned
      exact haligned
    obtain ⟨n, size, hactive, -⟩ := hlogged.active
    by_cases he : Writable P e
    · have hsteps : appendLocked P r.store e true = _ := appendLocked_eq hactive he
      simp only [hsteps]
      refine ⟨?_, h.off, h.bloomless, h.waits, h.stored, h.indexed⟩
      exact ⟨r.store, [], hlogged, h.off, he, by rw [hsteps, List.nil_append], rfl, rfl⟩
    · have hsteps : appendLocked P r.store e true = _ := appendLocked_refused hactive he
      have honly := appendLocked_onlyAdds (P := P) hactive h.off e true
      rw [hsteps] at honly
      simp only [hsteps]
      obtain ⟨hopened, -⟩ := (rotateIfFull_opened (P := P) e true hactive).logged hlogged
      have hkept :
          (r.store.run (rotateIfFull P r.store ⟨segmentName n, size⟩ e true)).manager.blooms =
            r.store.manager.blooms ∧ _ = r.store.manager.bloomEnabled ∧ _ = r.store.index :=
        run_preserves (I := fun t => t.manager.blooms = r.store.manager.blooms ∧
          t.manager.bloomEnabled = r.store.manager.bloomEnabled ∧ t.index = r.store.index)
          (fun t st hst ht => by
            obtain ⟨hb, ho, hi⟩ := Step.onlyAdds_blooms (honly st hst) t
            exact ⟨hb.trans ht.1, ho.trans ht.2.1, hi.trans ht.2.2⟩) ⟨rfl, rfl, rfl⟩
      refine ⟨?_, hkept.2.1.trans h.off, hkept.1.trans h.bloomless, h.waits, h.stored, ?_⟩
      · simp only [Aligned]
        exact hopened
      · rw [hkept.2.2]
        exact h.indexed

theorem init_reachable {s : Store B} {stored : List LogEntry} (hlogged : Logged P s log)
    (hcat : Catalogued s.index log) (hoff : s.manager.bloomEnabled = false)
    (hblooms : s.manager.blooms = .empty) (hstored : ∀ x, (∃ p, x ∈ log p) ↔ x ∈ stored) :
    (init s stored).Reachable P log := by
  obtain ⟨live, hrep, hlive⟩ := hcat
  refine ⟨hlogged, hoff, hblooms, by simp [init], fun p e he => ?_, live, hrep, ?_, fun e he => ?_⟩
  · exact List.mem_append_left _ ((hstored e).mp ⟨p, he⟩)
  · exact fun p e he => (hlive p e).mp he
  · obtain ⟨p, hp⟩ := (hstored e).mpr he
    exact ⟨p, (hlive p e).mpr hp⟩

theorem Aligned.isSeg (h : r.Aligned P log) {p : String} {e : LogEntry} (he : e ∈ log p) :
    IsSeg p := by
  unfold Aligned at h
  split at h
  · exact h.segs p (h.mem_paths he)
  · obtain ⟨s, done, hlogged, -⟩ := h
    exact hlogged.segs p (hlogged.mem_paths he)

/-- A step that is left only adds to files. -/
theorem Aligned.onlyAdds (h : r.Aligned P log) {e : LogEntry} {todo : List (Step B)}
    (hw : r.writing = some (e, todo)) : ∀ st ∈ todo, st.onlyAdds = true := by
  simp only [Aligned, hw] at h
  obtain ⟨s, done, hlogged, hoff, -, hsplit, -, -⟩ := h
  obtain ⟨n, size, hactive, -⟩ := hlogged.active
  intro st hst
  exact appendLocked_onlyAdds hactive hoff e true st (hsplit ▸ List.mem_append_right _ hst)

theorem Reachable.write (h : r.Reachable P log) :
    ∃ log', (r.step P .write).Reachable P log' ∧ ∀ p, log p <+: log' p := by
  have haligned := h.aligned
  simp only [step]
  cases hw : r.writing with
  | none => exact ⟨log, h, fun p => List.prefix_rfl⟩
  | some w =>
    obtain ⟨e, todo⟩ := w
    cases todo with
    | nil =>
      simp only [Aligned, hw] at haligned
      obtain ⟨s, done, hlogged, -, he, hsplit, hdisk, hmanager⟩ := haligned
      obtain ⟨path, hnext, hname, -⟩ := hlogged.append he true
      rw [hsplit, List.append_nil] at hnext hname
      refine ⟨addTo log path e, ⟨hnext.congr hdisk hmanager, h.off, h.bloomless, ?_, ?_, ?_⟩, ?_⟩
      · intro w hwaits
        rcases List.mem_append.mp hwaits with hwaits | hlast
        · have hin := h.waits w hwaits
          unfold addTo
          split
          · exact List.mem_append_left _ hin
          · exact hin
        · rw [List.mem_singleton.mp hlast, hmanager, hname]
          simp [addTo]
      · intro p x hx
        rw [List.map_append, ← List.append_assoc]
        rcases mem_addTo.mp ⟨p, hx⟩ with ⟨q, hq⟩ | rfl
        · exact List.mem_append_left _ (h.stored q x hq)
        · exact List.mem_append_right _ (List.mem_singleton_self _)
      · obtain ⟨live, hrep, hlive, hacked⟩ := h.indexed
        refine ⟨live, hrep, fun p x hx => ?_, hacked⟩
        have hin := hlive p x hx
        unfold addTo
        split
        · exact List.mem_append_left _ hin
        · exact hin
      · intro p
        unfold addTo
        split
        · exact List.prefix_append _ _
        · exact List.prefix_rfl
    | cons st todo =>
      have honly := haligned.onlyAdds hw st List.mem_cons_self
      obtain ⟨hblooms, hoff, hindex⟩ := Step.onlyAdds_blooms honly r.store
      simp only [Aligned, hw] at haligned
      obtain ⟨s, done, hlogged, hsoff, he, hsplit, hdisk, hmanager⟩ := haligned
      have hnext : (Step.apply r.store st).disk = (s.run (done ++ [st])).disk ∧
          (Step.apply r.store st).manager = (s.run (done ++ [st])).manager := by
        rw [run_append, run_cons, run_nil]
        exact Step.onlyAdds_congr honly hdisk hmanager
      refine ⟨log, ⟨?_, hoff.trans h.off, hblooms.trans h.bloomless, h.waits, h.stored, ?_⟩,
        fun p => List.prefix_rfl⟩
      · exact ⟨s, done ++ [st], hlogged, hsoff, he, by rw [hsplit]; simp, hnext.1, hnext.2⟩
      · rw [hindex]
        exact h.indexed

theorem Reachable.add (h : r.Reachable P log) (k : Nat) : (r.step P (.add k)).Reachable P log := by
  simp only [step]
  split
  · exact h
  · rename_i e path hk
    have hin : (e, path) ∈ r.waiting := List.mem_of_getElem? hk
    refine ⟨?_, h.off, h.bloomless, ?_, ?_, ?_⟩
    · have haligned := h.aligned
      unfold Aligned at haligned ⊢
      cases hw : r.writing with
      | none =>
        simp only [hw] at haligned ⊢
        exact haligned.congr rfl rfl
      | some w =>
        simp only [hw] at haligned ⊢
        exact haligned
    · exact fun w hwaits => h.waits w (List.mem_of_mem_eraseIdx hwaits)
    · intro p x hx
      obtain ⟨hlt, hget⟩ := List.getElem?_eq_some_iff.mp hk
      have hperm := (List.getElem_cons_eraseIdx_perm hlt).map Prod.fst
      rw [hget] at hperm
      rcases List.mem_append.mp (h.stored p x hx) with hacked | hwaits
      · exact List.mem_append_left _ (List.mem_append_left _ hacked)
      · rcases List.mem_cons.mp (hperm.symm.subset hwaits) with rfl | hrest
        · exact List.mem_append_left _ (List.mem_append_right _ (List.mem_singleton_self _))
        · exact List.mem_append_right _ hrest
    · obtain ⟨live, hrep, hlive, hacked⟩ := h.indexed
      refine ⟨live ++ [(path, e)], hrep.add e path, fun p x hx => ?_, fun x hx => ?_⟩
      · rcases List.mem_append.mp hx with hx | hx
        · exact hlive p x hx
        · obtain ⟨rfl, rfl⟩ := Prod.mk.inj (List.mem_singleton.mp hx)
          exact h.waits _ hin
      · rcases List.mem_append.mp hx with hx | hx
        · obtain ⟨p, hp⟩ := hacked x hx
          exact ⟨p, List.mem_append_left _ hp⟩
        · rw [List.mem_singleton.mp hx]
          exact ⟨path, List.mem_append_right _ (List.mem_singleton_self _)⟩

/-- Every step keeps the log or adds to it. -/
theorem Reachable.step (h : r.Reachable P log) (st : RaceStep) :
    ∃ log', (r.step P st).Reachable P log' ∧ ∀ p, log p <+: log' p := by
  cases st with
  | lock e => exact ⟨log, h.lock e, fun p => List.prefix_rfl⟩
  | write => exact h.write
  | add k => exact ⟨log, h.add k, fun p => List.prefix_rfl⟩

theorem Reachable.run (h : r.Reachable P log) (steps : List RaceStep) :
    ∃ log', (r.run P steps).Reachable P log' ∧ ∀ p, log p <+: log' p := by
  induction steps generalizing r log with
  | nil => exact ⟨log, h, fun p => List.prefix_rfl⟩
  | cons st steps ih =>
    obtain ⟨log₁, h₁, hsub₁⟩ := h.step st
    obtain ⟨log₂, h₂, hsub₂⟩ := ih h₁
    exact ⟨log₂, h₂, fun p => (hsub₁ p).trans (hsub₂ p)⟩

theorem known_step {x : LogEntry} (hx : x ∈ r.known) (st : RaceStep) :
    x ∈ (r.step P st).known := by
  simp only [known, List.mem_append] at hx ⊢
  cases st with
  | lock e =>
    simp only [step]
    cases hw : r.writing with
    | some w => simpa only [hw] using hx
    | none =>
      rw [hw] at hx
      have hold := hx.resolve_right List.not_mem_nil
      cases (appendLocked P r.store e true).2 <;> exact .inl hold
  | write =>
    simp only [step]
    cases hw : r.writing with
    | none => simpa only [hw] using hx
    | some w =>
      obtain ⟨e, todo⟩ := w
      cases todo with
      | nil =>
        rw [hw] at hx
        simp only [List.map_append, List.mem_append]
        rcases hx with (hx | hx) | hx
        · exact .inl (.inl hx)
        · exact .inl (.inr (.inl hx))
        · exact .inl (.inr (.inr hx))
      | cons st todo =>
        rw [hw] at hx
        exact hx
  | add k =>
    simp only [step]
    split
    · exact hx
    · rename_i e path hk
      obtain ⟨hlt, hget⟩ := List.getElem?_eq_some_iff.mp hk
      have hperm := (List.getElem_cons_eraseIdx_perm hlt).map Prod.fst
      rw [hget] at hperm
      rcases hx with (hx | hx) | hx
      · exact .inl (.inl (List.mem_append_left _ hx))
      · rcases List.mem_cons.mp (hperm.symm.subset hx) with rfl | hx
        · exact .inl (.inl (List.mem_append_right _ (List.mem_singleton_self _)))
        · exact .inl (.inr hx)
      · exact .inr hx

theorem known_run {x : LogEntry} (hx : x ∈ r.known) (steps : List RaceStep) :
    x ∈ (r.run P steps).known := by
  induction steps generalizing r with
  | nil => exact hx
  | cons st steps ih => exact ih (known_step hx st)

/-- A segment file is whole records, or ends with the length of a record that is being written. -/
theorem Reachable.content (h : r.Reachable P log) {p : String} (hp : IsSeg p) :
    ∃ es, log p <+: es ∧ (∀ x ∈ es, x ∈ r.known) ∧
      ((¬ r.MidRecord p ∧ r.store.content p = es.flatMap (record P)) ∨
        (r.MidRecord p ∧ ∃ data : Bytes, data.length < 2 ^ 32 ∧ data ≠ [] ∧
          r.store.content p = es.flatMap (record P) ++ be32 data.length)) := by
  have hlog : ∀ x ∈ log p, x ∈ r.known := fun x hx => List.mem_append_left _ (h.stored p x hx)
  have haligned := h.aligned
  cases hw : r.writing with
  | none =>
    simp only [Aligned, hw] at haligned
    refine ⟨log p, List.prefix_rfl, hlog, .inl ⟨fun hmid => ?_, haligned.getD hp⟩⟩
    obtain ⟨e, data, n, hmid, -⟩ := hmid
    rw [hw] at hmid
    cases hmid
  | some w =>
    obtain ⟨e, todo⟩ := w
    simp only [Aligned, hw] at haligned
    obtain ⟨s, done, hlogged, hoff, he, hsplit, hdisk, -⟩ := haligned
    obtain ⟨n, size, hactive, -⟩ := hlogged.active
    have hsame : r.store.content p = (s.run done).content p := by
      rw [Store.content, hdisk, Store.content]
    have hbefore : s.content p = (log p).flatMap (record P) := hlogged.getD hp
    have hmid : ∀ data n, data ≠ [] → todo = [.append p data, .grow n] → r.MidRecord p :=
      fun data n hdata htodo => ⟨e, data, n, by rw [hw, htodo], hdata⟩
    have hmid' : r.MidRecord p → ∃ data n, data ≠ [] ∧ todo = [.append p data, .grow n] := by
      intro h
      obtain ⟨e', data, n, hwriting, hdata⟩ := h
      rw [hw, Option.some.injEq, Prod.mk.injEq] at hwriting
      exact ⟨data, n, hdata, hwriting.2⟩
    have hnext : ∀ x ∈ log p ++ [e], x ∈ r.known := by
      intro x hx
      rcases List.mem_append.mp hx with hx | hx
      · exact hlog x hx
      · rw [List.mem_singleton.mp hx]
        exact List.mem_append_right _ (by simp [hw])
    rw [hsame]
    rcases append_content hactive hoff he hsplit p with ⟨hno, hcontent⟩ | ⟨htodo, hcontent⟩ |
      ⟨htodo, hcontent⟩
    · refine ⟨log p, List.prefix_rfl, hlog, .inl ⟨fun hm => ?_, hcontent.trans hbefore⟩⟩
      obtain ⟨data, n, -, htodo⟩ := hmid' hm
      exact hno data n htodo
    · rw [hbefore] at hcontent
      by_cases hdata : marshalLogEntry P e = []
      · refine ⟨log p ++ [e], List.prefix_append _ _, hnext, .inl ⟨fun hm => ?_, ?_⟩⟩
        · obtain ⟨data, n, hne, hlast⟩ := hmid' hm
          rw [htodo] at hlast
          simp only [List.cons.injEq, Step.append.injEq] at hlast
          exact hne (hlast.1.2 ▸ hdata)
        · rw [hcontent, List.flatMap_append, hdata]
          simp [record, frame, hdata]
      · exact ⟨log p, List.prefix_rfl, hlog, .inr ⟨hmid _ _ hdata htodo, _, he, hdata, hcontent⟩⟩
    · refine ⟨log p ++ [e], List.prefix_append _ _, hnext, .inl ⟨fun hm => ?_, ?_⟩⟩
      · obtain ⟨data, n, -, hlast⟩ := hmid' hm
        rcases htodo with htodo | htodo <;> simp [htodo] at hlast
      · rw [hcontent, hbefore, List.flatMap_append]
        simp

theorem Reachable.content_step (h : r.Reachable P log) (st : RaceStep) (p : String) :
    r.store.content p <+: (r.step P st).store.content p := by
  cases st with
  | lock e =>
    simp only [Race.step]
    cases hw : r.writing with
    | some w => exact List.prefix_rfl
    | none =>
      have haligned := h.aligned
      simp only [Aligned, hw] at haligned
      obtain ⟨n, size, hactive, -⟩ := haligned.active
      have hgrows : r.store.content p <+:
          (r.store.run (appendLocked P r.store e true).1).content p := by
        rw [run_onlyAdds_content (appendLocked_onlyAdds hactive h.off e true)]
        exact List.prefix_append _ _
      cases (appendLocked P r.store e true).2 with
      | none => exact List.prefix_rfl
      | some err => exact hgrows
  | write =>
    simp only [Race.step]
    cases hw : r.writing with
    | none => exact List.prefix_rfl
    | some w =>
      obtain ⟨e, todo⟩ := w
      cases todo with
      | nil => exact List.prefix_rfl
      | cons st todo =>
        dsimp only
        rw [Step.onlyAdds_content (h.aligned.onlyAdds hw st List.mem_cons_self)]
        exact List.prefix_append _ _
  | add k =>
    simp only [Race.step]
    split
    · exact List.prefix_rfl
    · simp only [Store.content]
      exact List.prefix_rfl

theorem Reachable.content_run (h : r.Reachable P log) (steps : List RaceStep) (p : String) :
    r.store.content p <+: (r.run P steps).store.content p := by
  induction steps generalizing r log with
  | nil => exact List.prefix_rfl
  | cons st steps ih =>
    obtain ⟨log', h', -⟩ := h.step st
    exact (h.content_step st p).trans (ih h')

theorem run_append (r : Race B) (past later : List RaceStep) :
    r.run P (past ++ later) = (r.run P past).run P later := List.foldl_append

/-- Files only grow. -/
theorem Reachable.content_take (h : r.Reachable P log) (during : List RaceStep) {m n : Nat}
    (hmn : m ≤ n) (p : String) : (r.run P (during.take m)).store.content p <+:
      (r.run P (during.take n)).store.content p := by
  obtain ⟨log', h', -⟩ := h.run (during.take m)
  have hsplit : during.take n = during.take m ++ (during.drop m).take (n - m) := by
    rw [← List.take_add, Nat.add_sub_cancel' hmn]
  rw [hsplit, run_append]
  exact h'.content_run _ p

end Race

section Reads

variable {r : Race B} {log : String → List LogEntry} {during : List RaceStep} {τ : ReadSchedule}

theorem fileAt_growing (h : r.Reachable P log) (p : String) : Growing (fileAt P r during τ p) :=
  fun i j hij => h.content_take during (τ.reads_mono p i j hij) p

theorem fileAt_length (h : r.Reachable P log) (p : String) (k : Nat) :
    (fileAt P r during τ p k).length ≤ finalSize P r during p := by
  have hgrows := h.content_take during (Nat.le_max_left (τ.reads p k) during.length) p
  rw [List.take_of_length_le (Nat.le_max_right _ _)] at hgrows
  exact hgrows.length_le

theorem record_ne_nil (e : LogEntry) : record P e ≠ [] := by
  simp [record, frame, be32]

/-- The read of a segment that had entries at the start is the read of its content at the last
read. -/
theorem raceRead_eq (h : r.Reachable P log) {p : String} (hp : IsSeg p) (hsome : log p ≠ []) :
    raceRead P r during τ p = decodeSegment P ((lastSeen P r during τ p).store.content p) := by
  have hthere : ((r.run P (during.take (τ.opened p))).store.disk.files.get p).isSome = true := by
    obtain ⟨log', h', hsub⟩ := h.run (during.take (τ.opened p))
    obtain ⟨es, hes, -, hcontent⟩ := h'.content hp
    obtain ⟨e, he⟩ := List.exists_mem_of_ne_nil _ hsome
    have hin : e ∈ es := hes.subset ((hsub p).subset he)
    have hbytes : es.flatMap (record P) ≠ [] := fun hnil =>
      record_ne_nil e (List.flatMap_eq_nil_iff.mp hnil e hin)
    by_contra hnone
    rw [Bool.not_eq_true, Option.isSome_eq_false_iff, Option.isNone_iff_eq_none] at hnone
    rw [Store.content, hnone, Option.getD_none] at hcontent
    rcases hcontent with ⟨-, hnil⟩ | ⟨-, data, -, -, hnil⟩
    · exact hbytes hnil.symm
    · exact hbytes (List.append_eq_nil_iff.mp hnil.symm).1
  obtain ⟨bs, hbs⟩ := Option.isSome_iff_exists.mp hthere
  simp only [raceRead, hbs]
  exact liveSegment_eq (fileAt_growing h p) (fileAt_length h p)

/-- What a segment gives at its last read: whole records, or an error in the middle of one. -/
theorem raceRead_cases (hP : P.Inverts) (h : r.Reachable P log)
    (hfits : ∀ x ∈ (r.run P during).known, Fits P x) {p : String} (hp : IsSeg p)
    (hsome : log p ≠ []) :
    ∃ es, log p <+: es ∧ (∀ x ∈ es, x ∈ (lastSeen P r during τ p).known) ∧
      ((¬ (lastSeen P r during τ p).MidRecord p ∧ raceRead P r during τ p = .ok es) ∨
        ((lastSeen P r during τ p).MidRecord p ∧
          ∃ err, raceRead P r during τ p = .error err)) := by
  rw [raceRead_eq h hp hsome]
  generalize hm : τ.reads p
    (liveReads (fileAt P r during τ p) (τ.quota p) (finalSize P r during p) - 1) = m
  have hseen : lastSeen P r during τ p = r.run P (during.take m) := by rw [lastSeen, hm]
  rw [hseen]
  obtain ⟨log', h', hsub⟩ := h.run (during.take m)
  obtain ⟨es, hes, hknown, hcontent⟩ := h'.content hp
  have hend : ∀ x ∈ es, Fits P x := by
    intro x hx
    refine hfits x ?_
    rw [← List.take_append_drop m during, Race.run_append]
    exact Race.known_run (hknown x hx) _
  refine ⟨es, (hsub p).trans hes, hknown, hcontent.imp ?_ ?_⟩
  · intro hwhole
    rw [hwhole.2]
    exact ⟨hwhole.1, decodeSegment_records hP hend⟩
  · intro hcut
    obtain ⟨hmid, data, hlen, hdata, hbytes⟩ := hcut
    have hpos := List.length_pos_of_ne_nil hdata
    obtain ⟨err, herr, -⟩ := readRecord_torn (k := 4) hlen (by omega) (by rw [frame_length]; omega)
    rw [hbytes, decodeSegment_append (decodeSegment_records hP hend)]
    have hhead : be32 data.length = (frame data).take 4 := rfl
    rw [hhead, decodeSegment_failed herr]
    exact ⟨hmid, err, rfl⟩

end Reads

/-- A query that races with appends. Handlers append and acknowledge entries step by step, each
record in two writes, while the query reads the files piece by piece at any moments. If the last
read of some segment falls between the two writes of a record, the query fails. Otherwise it counts
every satisfying entry that was acknowledged before it began, and it counts no entry that was not
written completely when its segment was last read. -/
theorem query_races_appends (hP : P.Inverts) {s : Store B} {log : String → List LogEntry}
    (hlogged : Logged P s log) (hcat : Catalogued s.index log)
    (hoff : s.manager.bloomEnabled = false) (hblooms : s.manager.blooms = .empty)
    (stored : List LogEntry) (hstored : ∀ x, (∃ p, x ∈ log p) ↔ x ∈ stored)
    (past during : List RaceStep)
    (hfits : ∀ x ∈ ((Race.init s stored).run P (past ++ during)).known, Fits P x)
    (hids : ∀ a ∈ ((Race.init s stored).run P (past ++ during)).known,
      ∀ b ∈ ((Race.init s stored).run P (past ++ during)).known, a.id = b.id → a = b)
    (τ : ReadSchedule) (req : QueryRequest) (ast : Option Node) :
    let start := (Race.init s stored).run P past
    let paths := readPaths start.store req ast
    ((∃ p ∈ paths, (lastSeen P start during τ p).MidRecord p) →
      ∃ err, raceQuery P start during τ req ast = .error (.read err)) ∧
    ((∀ p ∈ paths, ¬ (lastSeen P start during τ p).MidRecord p) →
      ∃ raw, raceQuery P start during τ req ast = .ok (finishQuery req ast raw) ∧
        (∀ x ∈ start.acked, Satisfies req ast x → x ∈ matched req ast raw) ∧
        ∀ x ∈ matched req ast raw, Satisfies req ast x ∧ ∃ p ∈ paths,
          x ∈ entriesAt P (lastSeen P start during τ p).store.disk p ∧
          x ∈ (lastSeen P start during τ p).known) := by
  intro start paths
  obtain ⟨log₀, h, -⟩ := (Race.init_reachable hlogged hcat hoff hblooms hstored).run past
  rw [Race.run_append] at hfits hids
  obtain ⟨live, hrep, hlive, hacked⟩ := h.indexed
  have hpaths : ∀ p ∈ paths, IsSeg p ∧ log₀ p ≠ [] := by
    intro p hp
    have hresolved := (List.mem_filter.mp hp).1
    rw [resolved, hrep.mem_resolve] at hresolved
    obtain ⟨⟨x, hx⟩, -⟩ := hresolved
    have hin := hlive p x hx
    exact ⟨h.aligned.isSeg hin, List.ne_nil_of_mem hin⟩
  have hread := fun p hp => raceRead_cases (τ := τ) hP h hfits (hpaths p hp).1 (hpaths p hp).2
  constructor
  · intro hmid
    obtain ⟨p, hp, hmid⟩ := hmid
    obtain ⟨es, -, -, ⟨hnot, -⟩ | ⟨-, herr⟩⟩ := hread p hp
    · exact absurd hmid hnot
    · obtain ⟨err, herr⟩ := mapM_error hp herr
      exact ⟨err, by simp only [raceQuery]; rw [herr]⟩
  · intro hwhole
    have hentries : ∀ p ∈ paths, raceRead P start during τ p =
        .ok (entriesAt P (lastSeen P start during τ p).store.disk p) ∧
        log₀ p <+: entriesAt P (lastSeen P start during τ p).store.disk p ∧
        ∀ x ∈ entriesAt P (lastSeen P start during τ p).store.disk p,
          x ∈ (lastSeen P start during τ p).known := by
      intro p hp
      obtain ⟨es, hes, hknown, ⟨-, hok⟩ | ⟨hmid, -⟩⟩ := hread p hp
      · have hsame : entriesAt P (lastSeen P start during τ p).store.disk p = es := by
          refine entriesAt_content ?_
          rw [← raceRead_eq h (hpaths p hp).1 (hpaths p hp).2, hok]
        rw [hsame]
        exact ⟨hok, hes, hknown⟩
      · exact absurd hmid (hwhole p hp)
    have hraw := mapM_ok (fun p hp => (hentries p hp).1)
    have hmem : ∀ x, x ∈ (paths.map (fun p =>
        entriesAt P (lastSeen P start during τ p).store.disk p)).flatten ↔
        ∃ p ∈ paths, x ∈ entriesAt P (lastSeen P start during τ p).store.disk p := by
      intro x
      simp
    have hend : ∀ p ∈ paths, ∀ x ∈ entriesAt P (lastSeen P start during τ p).store.disk p,
        x ∈ (start.run P during).known := by
      intro p hp x hx
      have hknown := (hentries p hp).2.2 x hx
      rw [lastSeen] at hknown
      have hrun := Race.known_run (P := P) hknown (during.drop (τ.reads p
        (liveReads (fileAt P start during τ p) (τ.quota p) (finalSize P start during p) - 1)))
      rwa [← Race.run_append, List.take_append_drop] at hrun
    refine ⟨_, by simp only [raceQuery]; rw [hraw], fun x hx hsat => ?_, fun x hx => ?_⟩
    · obtain ⟨p, hp⟩ := hacked x hx
      have hsel : selects req ast x = true := selects_iff.mpr hsat
      have hin : p ∈ paths := by
        refine List.mem_filter.mpr ⟨resolved_of_live hrep hp hsel, ?_⟩
        rw [unpruned (fun q => by rw [h.bloomless]; rfl)]
        rfl
      have hxraw := (hmem x).mpr ⟨p, hin, (hentries p hin).2.1.subset (hlive p x hp)⟩
      refine mem_matched.mpr ⟨hsel, isFirst_of_mem (fun b hb hid => ?_) hxraw⟩
      obtain ⟨q, hq, hbq⟩ := (hmem b).mp hb
      obtain ⟨q', hq', hxq⟩ := (hmem x).mp hxraw
      exact hids b (hend q hq b hbq) x (hend q' hq' x hxq) hid
    · obtain ⟨hsel, hfirst⟩ := mem_matched.mp hx
      obtain ⟨p, hp, hxp⟩ := (hmem x).mp hfirst.mem
      exact ⟨selects_iff.mp hsel, p, hp, hxp, (hentries p hp).2.2 x hxp⟩

/-- One entry is acknowledged, and of the second the length is written. -/
def secondBegun : List RaceStep :=
  [.lock (line "1" "" "api" "up" 0), .write, .write, .write, .write, .add 0,
    .lock (line "2" "" "api" "down" 1), .write]

/-- Each read of the query comes after one more step. -/
def inStep : ReadSchedule where
  opened _ := 0
  reads _ k := k
  quota _ _ := 1000
  reads_mono _ _ _ h := h

theorem query_races_second :
    ∃ raw, raceQuery protobuf ((Race.init (fresh exactFilter 1000 false) []).run protobuf
        secondBegun) [.write, .write, .write] inStep everything none =
          .ok (finishQuery everything none raw) ∧
      line "1" "" "api" "up" 0 ∈ matched everything none raw := by
  obtain ⟨-, hwhole⟩ := query_races_appends protobuf_inverts
    (fresh_logged protobuf exactFilter 1000 false) (fresh_catalogued exactFilter 1000 false) rfl rfl
    [] (by simp) secondBegun [.write, .write, .write] (by decide +kernel) (by decide +kernel) inStep
    everything none
  obtain ⟨raw, hraw, hfinds, -⟩ := hwhole (fun p hp hmid => by
    have hpath : p ∈ [segmentName 1] := by
      have hpaths : readPaths ((Race.init (fresh exactFilter 1000 false) []).run protobuf
          secondBegun).store everything none = [segmentName 1] := by decide +kernel
      rwa [hpaths] at hp
    rw [List.mem_singleton.mp hpath] at hmid
    obtain ⟨e, data, n, hwriting, -⟩ := hmid
    have hnone : (lastSeen protobuf ((Race.init (fresh exactFilter 1000 false) []).run protobuf
        secondBegun) [.write, .write, .write] inStep (segmentName 1)).writing.isNone = true := by
      decide +kernel
    rw [hwriting] at hnone
    cases hnone)
  exact ⟨raw, hraw, hfinds _ (by decide +kernel) (by decide +kernel)⟩

end LogEngine.Query
