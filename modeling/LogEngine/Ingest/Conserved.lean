import LogEngine.Ingest.Faithful
import LogEngine.Ingest.Routing
import LogEngine.Ingest.Traffic
import LogEngine.Storage.Bag

namespace LogEngine.Replication
open Lib Storage Ingest

variable {cancelled : Bool} {c c' : Channel} {step : DrainStep}

/-- A step of `drain` takes jobs from the front, and sends no other. -/
theorem Channel.drain_waiting (h : c.drain cancelled step = some c') :
    ((c.outgoing cancelled step).toList ++ c'.waiting).Sublist c.waiting := by
  obtain ⟨ok, rfl, hphase, rfl⟩ | ⟨now, rfl, hphase, -, rfl⟩ |
    ⟨job, queue, rfl, hphase, hqueue, rfl⟩ | ⟨job, rfl, hphase, rfl⟩ |
    ⟨deadline, job, queue, rfl, hphase, hqueue, rfl⟩ | ⟨now, deadline, job, rfl, hphase, rfl⟩ |
    ⟨deadline, rfl, hphase, hqueue, rfl⟩ := drain_cases h
  · cases ok <;> simp [waiting, outgoing, hphase, Phase.held]
  · simp [waiting, outgoing, hphase, Phase.held]
  · simp [waiting, outgoing, hphase, hqueue, Phase.held]
  · cases cancelled <;> simp [waiting, outgoing, hphase, Phase.held, sent]
  · simp [waiting, outgoing, hphase, hqueue, Phase.held]
  · by_cases hlive : now < deadline <;>
      simp [waiting, outgoing, hphase, Phase.held, sent, hlive]
  · simp [waiting, outgoing, hphase, Phase.held]

theorem Channel.offer_waiting (c : Channel) (job : ReplicaJob) :
    (c.offer job).waiting.Sublist (c.waiting ++ [job]) := by
  unfold offer
  split
  · simp [waiting]
  · simp

theorem Replicator.channel_set (r : Replicator) (addr a : String) (c : Channel)
    (cancelled : Bool) : (Replicator.mk (r.channels.set addr c) cancelled).channel a =
      if a = addr then c else r.channel a := by
  simp only [channel, GoMap.get_set]
  split <;> rfl

end LogEngine.Replication

namespace LogEngine.Ingest
open Lib Storage Replication

variable {B : BloomPackage} {P : ProtoPackage} {bloom : Bool}

/-- `HandleIngest` writes by `writeLocal` alone. -/
theorem Node.handleIngest_writes {n : Node B} {entry : Option LogEntryPB} {now : Int64}
    {freshID : String}
    {result : Node B × Option ReplicaJob × Except RpcError String}
    (h : n.handleIngest P entry now freshID = .wrote result) :
    ∃ pb, entry = some pb ∧ result = n.writeLocal P pb (n.replicaFor pb) now freshID := by
  unfold Node.handleIngest at h
  split at h
  · cases h
  · rename_i pb
    split_ifs at h with _ _ hlocal
    · cases h
      exact ⟨pb, rfl, by rw [Node.replicaFor, if_pos hlocal]⟩
    · split at h
      · cases h
      · rename_i reader hreader
        dsimp only at h
        split_ifs at h
        cases h
        exact ⟨pb, rfl, by rw [Node.replicaFor, if_neg hlocal, hreader, Option.elim_some]⟩

theorem replicaJob_entry {n : Node B} {e : LogEntry} {replicaID : String} {job : ReplicaJob}
    (h : replicaJob n e replicaID = some job) : job.entry = e := by
  unfold replicaJob at h
  split at h
  · cases h
  · dsimp only at h
    split at h
    · cases h
      rfl
    · cases h

namespace Traffic

variable {ι : Type}

/-- The call that is handled leaves the list. -/
theorem inFlight_erase {w : Traffic ι B} {i : ι} {k : Nat} {entry : Option LogEntryPB}
    (hk : w.inFlight[k]? = some (i, entry)) :
    (w.inFlight.map Prod.snd : Multiset (Option LogEntryPB)) =
      entry ::ₘ ((w.inFlight.eraseIdx k).map Prod.snd : List (Option LogEntryPB)) := by
  obtain ⟨hlt, hget⟩ := List.getElem?_eq_some_iff.mp hk
  have hperm := (List.getElem_cons_eraseIdx_perm hlt).map Prod.snd
  rw [hget] at hperm
  rw [Multiset.cons_coe, Multiset.coe_eq_coe]
  exact hperm.symm

variable [DecidableEq ι]

/-- The jobs that were sent so far, with the nodes that sent them. -/
def sent (w : Traffic ι B) : List (ι × ReplicaJob) := w.copied.map (fun x => (x.source, x.job))

/-- The jobs on the way from a node to an address. -/
def route (i : ι) (addr : String) (jobs : List (ι × ReplicaJob)) : List (ι × ReplicaJob) :=
  jobs.filter (fun x => (x.1, x.2.addr) = (i, addr))

/-- All entries that a node has stored, as a primary or as a replica. -/
def arrived (w : Traffic ι B) (j : ι) : Multiset LogEntry :=
  (w.wrote.filterMap (fun x => if x.node = j then some x.entry else none) : List LogEntry) +
    (w.copied.filterMap (fun x =>
      if x.target = some j then some (replicated x.job.entry) else none) : List LogEntry)

/-- A retention pass of the node may have taken out the entry. -/
def Expires (w : Traffic ι B) (j : ι) (e : LogEntry) : Prop :=
  ∃ cutoff, (j, cutoff) ∈ w.passes ∧ e.timestamp < cutoff

/-- The node has what has arrived at it, except for what retention has taken out. -/
def Stocked (P : ProtoPackage) (bloom : Bool) (w : Traffic ι B) (j : ι) : Prop :=
  ∃ E, Holding P bloom (w.fleet.node j).store E ∧ E ≤ w.arrived j ∧
    ∀ e ∈ w.arrived j, e ∉ E → w.Expires j e

/-- The entries that were enqueued so far, with the nodes that enqueued them. -/
def offered (w : Traffic ι B) : List (ι × LogEntry) := w.enqueued.map (fun x => (x.1, x.2.entry))

/-- The books balance: calls are written at most once, writes are acknowledged and enqueued at most
once, jobs are sent at most once and in order, and nodes store what has arrived. -/
structure Conserved (P : ProtoPackage) (bloom : Bool) (called : List (Option LogEntryPB))
    (w : Traffic ι B) : Prop where
  calls : ((w.wrote.map (fun x => some x.pb) : List (Option LogEntryPB)) +
    (w.inFlight.map Prod.snd : List (Option LogEntryPB)) : Multiset (Option LogEntryPB)) ≤ called
  acks : (w.acked + w.pending : Multiset (Write ι)) ≤ w.wrote
  jobs : (w.offered : Multiset (ι × LogEntry)) ≤ w.acked.map (fun x => (x.node, x.entry))
  queues : ∀ i addr, (route i addr w.sent ++ ((w.replicator i).channel addr).waiting.map
    (Prod.mk i)).Sublist (route i addr w.enqueued)
  writes : ∀ x ∈ w.wrote, Fits P x.entry ∧ Fits P (replicated x.entry) ∧
    ∃ now freshID, x.entry = stamped x.pb now freshID
  stores : ∀ j, w.Stocked P bloom j

section Steps

variable {called : List (Option LogEntryPB)} {w v : Traffic ι B} {i j : ι}

theorem Stocked.congr (h : w.Stocked P bloom j)
    (hstore : (v.fleet.node j).store = (w.fleet.node j).store)
    (harrived : v.arrived j = w.arrived j) (hpasses : v.passes = w.passes) :
    v.Stocked P bloom j := by
  obtain ⟨E, hE, hle, hlost⟩ := h
  refine ⟨E, hstore ▸ hE, harrived ▸ hle, fun e he hnot => ?_⟩
  rw [Expires, hpasses]
  exact hlost e (harrived ▸ he) hnot

theorem Stocked.gain (hP : P.Inverts) (hB : B.Sound) (hB' : B.RoundTrips)
    (h : w.Stocked P bloom j) {e : LogEntry} (he : Fits P e)
    (hleft : SeqLeft P (w.fleet.node j).store e)
    (hstore : (v.fleet.node j).store = (w.fleet.node j).store.ingest P e)
    (harrived : v.arrived j = e ::ₘ w.arrived j) (hpasses : v.passes = w.passes) :
    v.Stocked P bloom j := by
  obtain ⟨E, hE, hle, hlost⟩ := h
  refine ⟨e ::ₘ E, hstore ▸ hE.ingest hP hB hB' he hleft, ?_, fun x hx hnot => ?_⟩
  · rw [harrived]
    exact Multiset.cons_le_cons e hle
  · rw [harrived, Multiset.mem_cons] at hx
    rw [Multiset.mem_cons, not_or] at hnot
    rw [Expires, hpasses]
    exact hlost x (hx.resolve_left hnot.1) hnot.2

theorem Stocked.sound (hP : P.Inverts) (h : w.Stocked P bloom j) :
    Sound P (w.fleet.node j).store := by
  obtain ⟨E, hE, -⟩ := h
  obtain ⟨log, hsteady, hlog⟩ := hE.stored
  exact hsteady.kept.logged.sound hP (fun p e he => hE.fits e (hlog ▸ hsteady.stored p e he))

theorem setReplicator_replicator (w : Traffic ι B) (i j : ι) (r : Replicator) :
    (w.setReplicator i r).replicator j = if j = i then r else w.replicator j :=
  Function.update_apply _ _ _ _

theorem route_append (i : ι) (addr : String) (xs ys : List (ι × ReplicaJob)) :
    route i addr (xs ++ ys) = route i addr xs ++ route i addr ys := List.filter_append _ _

theorem route_single (i j : ι) (addr : String) (job : ReplicaJob) :
    route j addr [(i, job)] = if i = j ∧ job.addr = addr then [(i, job)] else [] := by
  simp only [route, List.filter_cons, List.filter_nil, Prod.mk.injEq, decide_eq_true_eq]

theorem arrived_write (w : Traffic ι B) (i : ι) (n : Node B) (x : Write ι) (j : ι) :
    (w.write i n x).arrived j = if x.node = j then x.entry ::ₘ w.arrived j else w.arrived j := by
  by_cases hij : x.node = j
  · simp only [arrived, Traffic.write, setNode, List.filterMap_append, List.filterMap_cons,
      List.filterMap_nil, if_pos hij, coe_concat, Multiset.cons_add]
  · simp only [arrived, Traffic.write, setNode, List.filterMap_append, List.filterMap_cons,
      List.filterMap_nil, if_neg hij, List.append_nil]

/-- The jobs of a node after an `Enqueue`. -/
theorem enqueue_waiting (r : Replicator) (i : ι) (job : Option ReplicaJob) (addr : String) :
    (((job.elim r r.enqueue).channel addr).waiting.map (Prod.mk i)).Sublist
      ((r.channel addr).waiting.map (Prod.mk i) ++
        route i addr (job.map (Prod.mk i)).toList) := by
  cases job with
  | none => exact List.sublist_append_left _ _
  | some jb =>
    rw [Option.elim_some, Replicator.enqueue, Replicator.channel_set, Option.map_some,
      Option.toList_some, route_single]
    split
    · rename_i haddr
      subst haddr
      rw [if_pos ⟨rfl, rfl⟩]
      simpa using (Channel.offer_waiting (r.channel jb.addr) jb).map (Prod.mk i)
    · exact List.sublist_append_left _ _

theorem Conserved.write (hP : P.Inverts) (hB : B.Sound) (hB' : B.RoundTrips)
    (h : w.Conserved P bloom called) {pb : LogEntryPB} {now : Int64} {freshID : String} {n : Node B}
    (hst : Storable P (w.fleet.node i).store (stamped pb now freshID))
    (hn : n.store = (w.fleet.node i).store.ingest P (stamped pb now freshID)) (replicaNode : String)
    (hcall : ((w.wrote.map (fun x => some x.pb) : List (Option LogEntryPB)) +
      some pb ::ₘ (w.inFlight.map Prod.snd : List (Option LogEntryPB)) :
        Multiset (Option LogEntryPB)) ≤ called) :
    (w.write i n ⟨i, pb, stamped pb now freshID, replicaNode⟩).Conserved P bloom called := by
  obtain ⟨hfits, hfits', hleft⟩ := hst
  refine ⟨?_, ?_, h.jobs, h.queues, fun x hx => ?_, fun j => ?_⟩
  · simp only [Traffic.write, setNode, List.map_append, List.map_cons, List.map_nil]
    rw [coe_concat, Multiset.cons_add, ← Multiset.add_cons]
    exact hcall
  · simp only [Traffic.write, setNode]
    rw [coe_concat, coe_concat, Multiset.add_cons]
    exact Multiset.cons_le_cons _ h.acks
  · rcases List.mem_append.mp hx with hx | hx
    · exact h.writes x hx
    · rw [List.mem_singleton.mp hx]
      exact ⟨hfits, hfits', now, freshID, rfl⟩
  · have harrived := arrived_write w i n ⟨i, pb, stamped pb now freshID, replicaNode⟩ j
    by_cases hi : i = j
    · subst hi
      rw [if_pos rfl] at harrived
      refine (h.stores i).gain hP hB hB' hfits hleft ?_ harrived rfl
      simp [Traffic.write, setNode, Fleet.set, hn]
    · rw [if_neg hi] at harrived
      refine (h.stores j).congr ?_ harrived rfl
      simp [Traffic.write, setNode, Fleet.set, Ne.symm hi]

/-- A handler that comes to its `Enqueue`. -/
theorem Conserved.finish (h : w.Conserved P bloom called) {k : Nat} {x : Write ι}
    (hk : w.pending[k]? = some x) :
    (({ w with pending := w.pending.eraseIdx k } : Traffic ι B).finish x).Conserved P bloom
      called := by
  obtain ⟨hlt, hget⟩ := List.getElem?_eq_some_iff.mp hk
  have hpending : (w.pending : Multiset (Write ι)) = x ::ₘ (w.pending.eraseIdx k : List _) := by
    rw [Multiset.cons_coe, Multiset.coe_eq_coe, ← hget]
    exact (List.getElem_cons_eraseIdx_perm hlt).symm
  have hacks := h.acks
  rw [hpending, Multiset.add_cons] at hacks
  refine ⟨h.calls, ?_, ?_, fun j addr => ?_, h.writes, h.stores⟩
  · simp only [Traffic.finish, setReplicator]
    rw [coe_concat, Multiset.cons_add]
    exact hacks
  · simp only [offered, Traffic.finish, setReplicator, List.map_append, List.map_singleton]
    rw [coe_concat]
    cases hjob : replicaJob (w.fleet.node x.node) x.entry x.replicaNode with
    | none =>
      simp only [Option.map_none, Option.toList_none, List.map_nil, List.append_nil]
      exact h.jobs.trans (Multiset.le_cons_self _ _)
    | some job =>
      simp only [Option.map_some, Option.toList_some, List.map_cons, List.map_nil,
        replicaJob_entry hjob]
      rw [coe_concat]
      exact Multiset.cons_le_cons _ h.jobs
  · simp only [Traffic.finish]
    rw [route_append]
    generalize replicaJob (w.fleet.node x.node) x.entry x.replicaNode = job
    have hold := h.queues j addr
    simp only [setReplicator, Function.update_apply]
    split
    · rename_i hj
      subst hj
      refine ((enqueue_waiting (w.replicator x.node) x.node job addr).append_left _).trans ?_
      rw [← List.append_assoc]
      exact hold.append_right _
    · exact hold.trans (List.sublist_append_left _ _)

/-- A call that is handled is written once, passed on or answered with an error. -/
theorem Conserved.handle (hP : P.Inverts) (hB : B.Sound) (hB' : B.RoundTrips)
    (h : w.Conserved P bloom called) {k : Nat} {entry : Option LogEntryPB}
    (hk : w.inFlight[k]? = some (i, entry)) {now : Int64} {freshID : String}
    (hst : ∀ pb ∈ entry, Storable P (w.fleet.node i).store (stamped pb now freshID)) :
    (({ w with inFlight := w.inFlight.eraseIdx k } : Traffic ι B).handle P i entry now
      freshID).Conserved P bloom called := by
  have hcalls := h.calls
  rw [inFlight_erase hk] at hcalls
  have hrest : ({ w with inFlight := w.inFlight.eraseIdx k } : Traffic ι B).Conserved P bloom
      called :=
    ⟨le_trans (add_le_add_right (Multiset.le_cons_self _ _) _) hcalls, h.acks, h.jobs, h.queues,
      h.writes, h.stores⟩
  unfold Traffic.handle
  split
  · exact hrest
  · exact hrest
  · rename_i n job id hwrote
    obtain ⟨pb, rfl, hresult⟩ := Node.handleIngest_writes hwrote
    have hfits := hst pb rfl
    rw [writeLocal_eq ((h.stores i).sound hP) hfits.1] at hresult
    simp only [Prod.mk.injEq] at hresult
    obtain ⟨rfl, -⟩ := hresult
    exact hrest.write hP hB hB' hfits rfl _ hcalls
  · rename_i n job err hwrote
    obtain ⟨pb, rfl, hresult⟩ := Node.handleIngest_writes hwrote
    rw [writeLocal_eq ((h.stores i).sound hP) (hst pb rfl).1] at hresult
    simp at hresult
  · split
    · exact hrest
    · refine ⟨?_, h.acks, h.jobs, h.queues, h.writes, h.stores⟩
      rw [List.map_append, List.map_singleton, coe_concat]
      exact hcalls

/-- A handler that nothing interrupts does what `writeLocal` says. -/
theorem handle_finish {pb : LogEntryPB} {now : Int64} {freshID id : String} {n : Node B}
    {job : Option ReplicaJob} (h : (w.fleet.node i).handleIngest P (some pb) now freshID =
      .wrote (n, job, .ok id)) :
    let v := (w.handle P i (some pb) now freshID).step P (.finish w.pending.length)
    v.fleet = w.fleet.set i n ∧ v.pending = w.pending ∧
      v.replicator = Function.update w.replicator i
        (job.elim (w.replicator i) (w.replicator i).enqueue) ∧
      v.enqueued = w.enqueued ++ (job.map (Prod.mk i)).toList := by
  obtain ⟨pb', hpb, hresult⟩ := Node.handleIngest_writes h
  cases hpb
  have hjob : replicaJob n (stamped pb now freshID) ((w.fleet.node i).replicaFor pb) = job := by
    simp only [Node.writeLocal, Node.write] at hresult
    split at hresult
    · simp at hresult
    · rename_i hwrite
      simp only [Prod.mk.injEq] at hresult
      obtain ⟨rfl, rfl, -⟩ := hresult
      split at hwrite
      · simp at hwrite
      · rw [← (Prod.mk.inj hwrite).1]
        rfl
  have herase : ∀ x, (w.pending ++ [x]).eraseIdx w.pending.length = w.pending := by
    intro x
    rw [List.eraseIdx_append_of_length_le (Nat.le_refl _), Nat.sub_self, List.eraseIdx_cons_zero,
      List.append_nil]
  simp [Traffic.handle, h, Traffic.write, Traffic.step, Traffic.finish, setNode, setReplicator,
    Fleet.set, hjob, herase]

/-- What is enqueued was written. -/
theorem Conserved.job_written (h : w.Conserved P bloom called) {x : ι × ReplicaJob}
    (hx : x ∈ w.enqueued) : ∃ y ∈ w.wrote, x.2.entry = y.entry := by
  have hin : (x.1, x.2.entry) ∈ w.offered := List.mem_map.mpr ⟨x, hx, rfl⟩
  obtain ⟨y, hy, hpair⟩ := List.mem_map.mp (Multiset.mem_of_le h.jobs hin)
  refine ⟨y, Multiset.mem_of_le h.acks (Multiset.mem_add.mpr (.inl hy)), ?_⟩
  exact (Prod.mk.inj hpair).2.symm

/-- What `ReplicateEntry` does to the node: it refuses the entry or it stores it. -/
theorem send_cases {n : Node B} (hn : Sound P n.store) {job : ReplicaJob}
    (hfits : Fits P (replicated job.entry)) :
    (∃ err, send P job n = (n, .error err)) ∨
      send P job n = ({ n with store := n.store.ingest P (replicated job.entry) }, .ok ()) := by
  unfold send Node.replicateEntry request
  dsimp only
  split
  · exact .inl ⟨_, rfl⟩
  · exact .inr (write_eq hn hfits)

theorem arrived_concat {x : Copy ι} (hwrote : v.wrote = w.wrote)
    (h : v.copied = w.copied ++ [x]) (j : ι) : v.arrived j =
      if x.target = some j then replicated x.job.entry ::ₘ w.arrived j else w.arrived j := by
  rw [arrived, hwrote, h, List.filterMap_append, List.filterMap_cons, List.filterMap_nil]
  by_cases hx : x.target = some j
  · rw [if_pos hx, if_pos hx, coe_concat, Multiset.add_cons, arrived]
  · rw [if_neg hx, if_neg hx, List.append_nil, arrived]

theorem arrived_missed {x : Copy ι} (hwrote : v.wrote = w.wrote)
    (h : v.copied = w.copied ++ [x]) (hx : x.target = none) (j : ι) :
    v.arrived j = w.arrived j := by
  rw [arrived_concat hwrote h, if_neg (by simp [hx])]

/-- A job that goes out is copied at most once. -/
theorem Conserved.deliver (hP : P.Inverts) (hB : B.Sound) (hB' : B.RoundTrips)
    (h : w.Conserved P bloom called) {job : ReplicaJob} (hfits : Fits P (replicated job.entry))
    {listener : Option ι}
    (hleft : ∀ j ∈ listener, SeqLeft P (w.fleet.node j).store (replicated job.entry))
    (hqueues : ∀ j addr, (route j addr (w.sent ++ [(i, job)]) ++
      ((w.replicator j).channel addr).waiting.map (Prod.mk j)).Sublist (route j addr w.enqueued)) :
    (w.deliver P i job listener).Conserved P bloom called := by
  have hsent : ∀ {v : Traffic ι B} {t : Option ι}, v.copied = w.copied ++ [⟨i, job, t⟩] →
      v.replicator = w.replicator → v.enqueued = w.enqueued → ∀ j addr,
        (route j addr v.sent ++ ((v.replicator j).channel addr).waiting.map (Prod.mk j)).Sublist
          (route j addr v.enqueued) := by
    intro v t hcopied hr henqueued j addr
    rw [sent, hcopied, hr, henqueued, List.map_append]
    exact hqueues j addr
  unfold Traffic.deliver
  split
  · refine ⟨h.calls, h.acks, h.jobs, hsent rfl rfl rfl, h.writes, fun j => ?_⟩
    refine (h.stores j).congr rfl ?_ rfl
    refine arrived_missed (x := ⟨i, job, none⟩) ?_ ?_ rfl j <;> rfl
  · rename_i j
    rcases send_cases ((h.stores j).sound hP) hfits with ⟨err, hsend⟩ | hsend
    · simp only [hsend]
      refine ⟨h.calls, h.acks, h.jobs, hsent rfl rfl rfl, h.writes, fun k => ?_⟩
      refine (h.stores k).congr ?_ ?_ rfl
      · simp only [setNode, Fleet.set]
        split
        · rename_i hk
          rw [hk]
        · rfl
      · refine arrived_missed (x := ⟨i, job, none⟩) ?_ ?_ rfl k <;> rfl
    · simp only [hsend]
      refine ⟨h.calls, h.acks, h.jobs, hsent rfl rfl rfl, h.writes, fun k => ?_⟩
      have harrived := arrived_concat (w := w) (v := { w.setNode j
        { w.fleet.node j with store := (w.fleet.node j).store.ingest P (replicated job.entry) } with
          copied := w.copied ++ [⟨i, job, some j⟩] }) rfl rfl k
      by_cases hk : j = k
      · subst hk
        rw [if_pos rfl] at harrived
        refine (h.stores j).gain hP hB hB' hfits (hleft j rfl) ?_ harrived rfl
        simp [setNode, Fleet.set]
      · rw [if_neg (by simpa using hk)] at harrived
        refine (h.stores k).congr ?_ harrived rfl
        simp [setNode, Fleet.set, Ne.symm hk]

section Drain

variable {addr : String} {step : DrainStep} {c c' : Channel}

theorem Conserved.queue (h : w.Conserved P bloom called)
    (hc : (w.replicator i).channels.get addr = some c) :
    (route i addr w.sent ++ c.waiting.map (Prod.mk i)).Sublist (route i addr w.enqueued) := by
  have hchannel : (w.replicator i).channel addr = c := by rw [Replicator.channel, hc]; rfl
  exact hchannel ▸ h.queues i addr

/-- A job that goes out has been enqueued for the address. -/
theorem Conserved.outgoing_enqueued (h : w.Conserved P bloom called)
    (hc : (w.replicator i).channels.get addr = some c)
    (hc' : c.drain (w.replicator i).cancelled step = some c') {job : ReplicaJob}
    (hjob : c.outgoing (w.replicator i).cancelled step = some job) :
    (i, job) ∈ route i addr w.enqueued := by
  have hwaits : job ∈ c.waiting := by
    refine (Channel.drain_waiting hc').subset ?_
    rw [hjob]
    exact List.mem_append_left _ (List.mem_singleton_self job)
  exact (h.queue hc).subset (List.mem_append_right _ (List.mem_map_of_mem hwaits))

/-- What has been sent, with what goes out and what still waits, is in order. -/
theorem Conserved.drain_queues (h : w.Conserved P bloom called)
    (hc : (w.replicator i).channels.get addr = some c)
    (hc' : c.drain (w.replicator i).cancelled step = some c') (j : ι) (a : String) :
    (route j a (w.sent ++ (c.outgoing (w.replicator i).cancelled step).toList.map (Prod.mk i)) ++
      (((w.setReplicator i { w.replicator i with
        channels := (w.replicator i).channels.set addr c' }).replicator j).channel
          a).waiting.map (Prod.mk j)).Sublist (route j a w.enqueued) := by
  have hout : route j a ((c.outgoing (w.replicator i).cancelled step).toList.map (Prod.mk i)) =
      if i = j ∧ addr = a then
        (c.outgoing (w.replicator i).cancelled step).toList.map (Prod.mk i) else [] := by
    cases hjob : c.outgoing (w.replicator i).cancelled step with
    | none => simp [route]
    | some job =>
      have hkey := (List.mem_filter.mp (h.outgoing_enqueued hc hc' hjob)).2
      have haddr : job.addr = addr := (Prod.mk.inj (of_decide_eq_true hkey)).2
      rw [Option.toList_some, List.map_singleton, route_single, haddr]
  rw [route_append, hout]
  by_cases hj : i = j
  · subst hj
    rw [setReplicator_replicator, if_pos rfl, Replicator.channel_set]
    by_cases ha : addr = a
    · subst ha
      rw [if_pos ⟨rfl, rfl⟩, if_pos rfl, List.append_assoc, ← List.map_append]
      exact (((Channel.drain_waiting hc').map _).append_left _).trans (h.queue hc)
    · rw [if_neg (fun hand => ha hand.2), if_neg (Ne.symm ha), List.append_nil]
      exact h.queues i a
  · rw [setReplicator_replicator, if_neg (Ne.symm hj), if_neg (fun hand => hj hand.1),
      List.append_nil]
    exact h.queues j a

theorem Conserved.drain (hP : P.Inverts) (hB : B.Sound) (hB' : B.RoundTrips)
    (h : w.Conserved P bloom called) {arrives : Bool}
    (hallowed : (Event.drain i addr step arrives).Allowed P bloom w) :
    (w.drain P i addr step arrives).Conserved P bloom called := by
  unfold Traffic.drain
  dsimp only
  split
  · exact h
  rename_i c hc
  split
  · exact h
  rename_i c' hc'
  have hqueues := h.drain_queues hc hc'
  split
  · rename_i hnone
    refine ⟨h.calls, h.acks, h.jobs, fun j a => ?_, h.writes, h.stores⟩
    have hj := hqueues j a
    rw [hnone, Option.toList_none, List.map_nil, List.append_nil] at hj
    exact hj
  · rename_i job hjob
    have hin := h.outgoing_enqueued hc hc' hjob
    obtain ⟨x, hx, hentry⟩ := h.job_written (List.mem_of_mem_filter hin)
    obtain ⟨-, hfits, -⟩ := h.writes x hx
    have hconserved : (w.setReplicator i { w.replicator i with
        channels := (w.replicator i).channels.set addr c' }).Conserved P bloom called := by
      refine ⟨h.calls, h.acks, h.jobs, fun j a => ?_, h.writes, h.stores⟩
      refine List.Sublist.trans ?_ (hqueues j a)
      rw [route_append]
      exact (List.sublist_append_left _ _).append_right _
    refine hconserved.deliver hP hB hB' (hentry ▸ hfits) (fun j hj => ?_) (fun j a => ?_)
    · split at hj
      · exact hallowed c hc job hjob j hj
      · cases hj
    · have hj := hqueues j a
      rw [hjob, Option.toList_some, List.map_singleton] at hj
      exact hj

end Drain

theorem setStore_store (w : Traffic ι B) (i j : ι) (s : Store B) :
    ((w.setStore i s).fleet.node j).store = if j = i then s else (w.fleet.node j).store := by
  simp only [setStore, setNode, Fleet.set]
  split <;> rfl

/-- A store that is replaced by one with the same entries. -/
theorem Conserved.setStore (h : w.Conserved P bloom called) {s : Store B}
    (hs : ∀ E, Holding P bloom (w.fleet.node i).store E → Holding P bloom s E) :
    (w.setStore i s).Conserved P bloom called := by
  refine ⟨h.calls, h.acks, h.jobs, h.queues, h.writes, fun j => ?_⟩
  obtain ⟨E, hE, hrest⟩ := h.stores j
  refine ⟨E, ?_, hrest⟩
  rw [setStore_store]
  split
  · rename_i hj
    exact hs E (hj ▸ hE)
  · exact hE

theorem Conserved.retain (hP : P.Inverts) (hB : B.Sound) (hB' : B.RoundTrips)
    (h : w.Conserved P bloom called) (i : ι) (now : Int64) (days : Int) :
    (w.step P (.retain i now days)).Conserved P bloom called := by
  refine ⟨h.calls, h.acks, h.jobs, h.queues, h.writes, fun j => ?_⟩
  obtain ⟨E, hE, hle, hlost⟩ := h.stores j
  have hstore : ((w.step P (.retain i now days)).fleet.node j).store = _ :=
    setStore_store w i j _
  have hearlier : ∀ e, w.Expires j e → (w.step P (.retain i now days)).Expires j e := by
    intro e he
    obtain ⟨cutoff, hin, hlt⟩ := he
    exact ⟨cutoff, List.mem_append_left _ hin, hlt⟩
  by_cases hj : j = i
  · subst hj
    obtain ⟨E', hle', hE', hold⟩ := hE.retain hP hB hB' now days
    refine ⟨E', ?_, hle'.trans hle, fun e he hnot => ?_⟩
    · rw [hstore, if_pos rfl]
      exact hE'
    · by_cases hin : e ∈ E
      · obtain ⟨hdays, hlt⟩ := hold e hin hnot
        refine ⟨retentionCutoff now days, List.mem_append_right _ ?_, hlt⟩
        rw [if_neg (by omega)]
        exact List.mem_singleton_self _
      · exact hearlier e (hlost e he hin)
  · refine ⟨E, ?_, hle, fun e he hnot => hearlier e (hlost e he hnot)⟩
    rw [hstore, if_neg hj]
    exact hE

theorem Conserved.setReplicator (h : w.Conserved P bloom called) {r : Replicator}
    (hr : ∀ addr, (r.channel addr).waiting.Sublist ((w.replicator i).channel addr).waiting) :
    (w.setReplicator i r).Conserved P bloom called := by
  refine ⟨h.calls, h.acks, h.jobs, fun j addr => ?_, h.writes, h.stores⟩
  rw [setReplicator_replicator]
  split
  · rename_i hj
    subst hj
    exact (((hr addr).map _).append_left _).trans (h.queues j addr)
  · exact h.queues j addr

/-- The handlers of a node that stops get no further. -/
theorem Conserved.interrupt (h : w.Conserved P bloom called) (i : ι) :
    ({ w with pending := w.pending.filter (fun x => x.node ≠ i) } : Traffic ι B).Conserved P bloom
      called := by
  refine ⟨h.calls, le_trans (add_le_add_right ?_ _) h.acks, h.jobs, h.queues, h.writes, h.stores⟩
  rw [Multiset.coe_le]
  exact List.filter_sublist.subperm

/-- Whatever happens, the books stay balanced. -/
theorem Conserved.step (hP : P.Inverts) (hB : B.Sound) (hB' : B.RoundTrips)
    (h : w.Conserved P bloom called) {ev : Event ι} (hallowed : ev.Allowed P bloom w) :
    (w.step P ev).Conserved P bloom (called ++ ev.calls) := by
  have hsame : ∀ {v : Traffic ι B}, v.Conserved P bloom called →
      v.Conserved P bloom (called ++ []) := fun hv => (List.append_nil called).symm ▸ hv
  cases ev with
  | call i entry =>
    refine ⟨?_, h.acks, h.jobs, h.queues, h.writes, h.stores⟩
    simp only [Traffic.step, Event.calls, List.map_append, List.map_singleton]
    rw [coe_concat, coe_concat, Multiset.add_cons]
    exact Multiset.cons_le_cons entry h.calls
  | handle k now freshID =>
    refine hsame ?_
    simp only [Traffic.step]
    split
    · exact h
    · rename_i i entry hk
      exact h.handle hP hB hB' hk (fun pb hpb => hallowed _ hk pb hpb)
  | finish k =>
    refine hsame ?_
    simp only [Traffic.step]
    split
    · exact h
    · rename_i x hk
      exact h.finish hk
  | abandon k =>
    refine hsame ⟨le_trans (add_le_add_right ?_ _) h.calls, h.acks, h.jobs, h.queues, h.writes,
      h.stores⟩
    rw [Multiset.coe_le]
    exact ((List.eraseIdx_sublist _ _).map _).subperm
  | drain i addr step arrives => exact hsame (h.drain hP hB hB' hallowed)
  | cancel i => exact hsame (h.setReplicator (fun addr => List.Sublist.refl _))
  | refresh i reader =>
    refine hsame ⟨h.calls, h.acks, h.jobs, h.queues, h.writes,
      fun j => (h.stores j).congr ?_ rfl rfl⟩
    simp only [Traffic.step, setNode, Fleet.set]
    split
    · rename_i hj
      rw [hj]
    · rfl
  | listen listens => exact hsame ⟨h.calls, h.acks, h.jobs, h.queues, h.writes, h.stores⟩
  | merge i threshold faults =>
    exact hsame (h.setStore (fun E hE => hE.merge hP hB hB' threshold hallowed))
  | retain i now days => exact hsame (h.retain hP hB hB' i now days)
  | restart i maxSegmentBytes bloomEnabled =>
    refine hsame ?_
    simp only [Traffic.step]
    split
    · exact h
    · rename_i s hs
      rw [show bloomEnabled = bloom from hallowed] at hs
      have hstore : (w.setStore i s).Conserved P bloom called := by
        refine h.setStore (fun E hE => ?_)
        obtain ⟨t, ht, hholding⟩ := hE.restart hP hB hB' maxSegmentBytes
        rw [hs] at ht
        exact Option.some.inj ht ▸ hholding
      have hqueues : ((w.setStore i s).setReplicator i .new).Conserved P bloom called :=
        hstore.setReplicator (fun addr => List.nil_sublist _)
      exact hqueues.interrupt i

theorem Conserved.run (hP : P.Inverts) (hB : B.Sound) (hB' : B.RoundTrips)
    (h : w.Conserved P bloom called) {events : List (Event ι)}
    (hallowed : AllowedRun P bloom w events) :
    (w.run P events).Conserved P bloom (called ++ events.flatMap Event.calls) := by
  induction events generalizing w called with
  | nil =>
    rw [List.flatMap_nil, List.append_nil]
    exact h
  | cons ev events ih =>
    rw [List.flatMap_cons, ← List.append_assoc]
    exact ih (h.step hP hB hB' hallowed.1) hallowed.2

end Steps

section Counts

variable {called : List (Option LogEntryPB)} {w : Traffic ι B}

/-- What the node would return if all of it were read. -/
def contents (P : ProtoPackage) (w : Traffic ι B) (j : ι) : List LogEntry :=
  match (w.fleet.node j).store.readAll P with
  | .ok es => es
  | .error _ => []

theorem Stocked.contents (hP : P.Inverts) {j : ι} (h : w.Stocked P bloom j) :
    (w.contents P j : Multiset LogEntry) ≤ w.arrived j ∧
      ∀ e ∈ w.arrived j, e ∉ w.contents P j → w.Expires j e := by
  obtain ⟨E, hE, hle, hlost⟩ := h
  obtain ⟨es, hes, hbag⟩ := hE.readAll hP
  have hcontents : w.contents P j = es := by rw [Traffic.contents, hes]
  rw [hcontents]
  refine ⟨hbag ▸ hle, fun e he hnot => hlost e he (fun hin => hnot ?_)⟩
  rw [← hbag] at hin
  exact hin

/-- Every job that is sent was enqueued, and none is sent twice. -/
theorem Conserved.sent_le (h : w.Conserved P bloom called) :
    (w.sent : Multiset (ι × ReplicaJob)) ≤ w.enqueued := by
  refine le_of_keys (fun x => (x.1, x.2.addr)) (fun key => ?_)
  obtain ⟨i, addr⟩ := key
  rw [Multiset.filter_coe, Multiset.filter_coe, Multiset.coe_le]
  exact ((List.sublist_append_left _ _).trans (h.queues i addr)).subperm

/-- The copies with an ID are no more than the writes with it. -/
theorem Conserved.copies_le (h : w.Conserved P bloom called) (id : String) :
    w.copied.countP (fun x => (replicated x.job.entry).id = id) ≤
      w.wrote.countP (fun x => x.entry.id = id) := by
  have hsent := Multiset.countP_le_of_le (fun x : ι × ReplicaJob => x.2.entry.id = id) h.sent_le
  have hjobs := Multiset.countP_le_of_le (fun x : ι × LogEntry => x.2.id = id) h.jobs
  have hacks := Multiset.countP_le_of_le (fun x : Write ι => x.entry.id = id) h.acks
  rw [Multiset.coe_countP, Multiset.coe_countP, sent, List.countP_map] at hsent
  rw [Multiset.coe_countP, Multiset.coe_countP, offered, List.countP_map, List.countP_map] at hjobs
  rw [Multiset.countP_add, Multiset.coe_countP, Multiset.coe_countP, Multiset.coe_countP] at hacks
  exact hsent.trans (hjobs.trans ((Nat.le_add_right _ _).trans hacks))

theorem Conserved.stored_le [Fintype ι] (hP : P.Inverts) (h : w.Conserved P bloom called)
    (id : String) : ∑ j, (w.contents P j).countP (fun e => e.id = id) ≤
      2 * w.wrote.countP (fun x => x.entry.id = id) := by
  have hnode : ∀ j, (w.contents P j).countP (fun e => e.id = id) ≤
      (w.wrote.filterMap (fun x => if x.node = j then some x.entry else none)).countP
        (fun e => e.id = id) +
      (w.copied.filterMap (fun x => if x.target = some j then some (replicated x.job.entry)
        else none)).countP (fun e => e.id = id) := by
    intro j
    have hle := Multiset.countP_le_of_le (fun e : LogEntry => e.id = id)
      ((h.stores j).contents hP).1
    rw [arrived, Multiset.countP_add, Multiset.coe_countP, Multiset.coe_countP,
      Multiset.coe_countP] at hle
    exact hle
  have hwrote := sum_countP_le (R := fun (x : Write ι) j => x.node = j)
    (fun x j k hj hk => hj.symm.trans hk) Write.entry (fun e => e.id = id) w.wrote
  have hcopied := sum_countP_le (R := fun (x : Copy ι) j => x.target = some j)
    (fun x j k hj hk => Option.some.inj (hj.symm.trans hk)) (fun x => replicated x.job.entry)
    (fun e => e.id = id) w.copied
  have hcopies := h.copies_le id
  have hsum := Finset.sum_le_sum (fun j (_ : j ∈ Finset.univ) => hnode j)
  rw [Finset.sum_add_distrib] at hsum
  omega

/-- What a node stores came in a call, directly or as a copy. -/
theorem Conserved.arrived_from (h : w.Conserved P bloom called) {j : ι} {e : LogEntry}
    (he : e ∈ w.arrived j) : ∃ x ∈ w.wrote, e = x.entry ∨
      e = replicated x.entry ∧ ∃ y ∈ w.copied, y.target = some j ∧ y.job.entry = x.entry := by
  rcases Multiset.mem_add.mp he with he | he
  · obtain ⟨x, hx, hsome⟩ := List.mem_filterMap.mp he
    split at hsome
    · exact ⟨x, hx, .inl (Option.some.inj hsome).symm⟩
    · cases hsome
  · obtain ⟨y, hy, hsome⟩ := List.mem_filterMap.mp he
    split at hsome
    · rename_i htarget
      have hsent : (y.source, y.job) ∈ w.sent := List.mem_map.mpr ⟨y, hy, rfl⟩
      have hin : (y.source, y.job) ∈ w.enqueued := Multiset.mem_of_le h.sent_le hsent
      obtain ⟨x, hx, hsame⟩ := h.job_written hin
      exact ⟨x, hx, .inr ⟨hsame ▸ (Option.some.inj hsome).symm, y, hy, htarget, hsame⟩⟩
    · cases hsome

/-- What a primary has stored is there unless it has expired. -/
theorem Conserved.stored (hP : P.Inverts) (h : w.Conserved P bloom called) {x : Write ι}
    (hx : x ∈ w.wrote) : x.entry ∈ w.contents P x.node ∨ w.Expires x.node x.entry := by
  have harrived : x.entry ∈ w.arrived x.node :=
    Multiset.mem_add.mpr (.inl (List.mem_filterMap.mpr ⟨x, hx, if_pos rfl⟩))
  by_cases hin : x.entry ∈ w.contents P x.node
  · exact .inl hin
  · exact .inr (((h.stores x.node).contents hP).2 x.entry harrived hin)

theorem initial_conserved {fleet : Fleet ι B} (hfresh : ∀ i, ∃ maxSegmentBytes,
      (fleet.node i).store = fresh B maxSegmentBytes bloom) :
    (initial fleet).Conserved P bloom [] := by
  refine ⟨by simp [initial], by simp [initial], by simp [initial, offered],
    fun i addr => List.nil_sublist _, by simp [initial], fun j => ?_⟩
  obtain ⟨maxSegmentBytes, hstore⟩ := hfresh j
  refine ⟨0, ?_, Multiset.zero_le _, fun e he => ?_⟩
  · rw [initial, hstore]
    exact fresh_holding P B maxSegmentBytes bloom
  · simp [arrived, initial] at he

end Counts

end Traffic

variable {ι : Type} [DecidableEq ι]

/-- A client calls the node that is not the primary; the primary writes and copies back. -/
def hopAndCopy : List (Event Bool) :=
  [.call false (some (Ingest.entryToProto (line "1" "" "api" "up" 0))), .handle 0 5 "x",
    .handle 0 6 "x", .finish 0, .drain true "host-a" (.connect true) true,
    .drain true "host-a" .receive true, .drain true "host-a" .send true]

end LogEngine.Ingest
