import LogEngine.Metadata.Liveness

namespace LogEngine.Metadata
open Lib

def Member.dead (m : Member) : Member := { m with status := .unhealthy }

/-- What a command does to the entry of one node. -/
def Op.on (id : String) (m : Option Member) : Op → Option Member
  | .registerNode p => if id = p.nodeID then some ⟨p.address, .healthy, p.nowUnixNs⟩ else m
  | .updateHeartbeat p =>
    if id = p.nodeID then m.map (fun m => { m with lastSeen := p.nowUnixNs }) else m
  | .markUnhealthy p => if id = p.nodeID then m.map Member.dead else m

def Op.Registers (id : String) : Op → Prop
  | .registerNode p => p.nodeID = id
  | .updateHeartbeat _ => False
  | .markUnhealthy _ => False

instance (id : String) : (op : Op) → Decidable (op.Registers id)
  | .registerNode p => inferInstanceAs (Decidable (p.nodeID = id))
  | .updateHeartbeat _ => .isFalse not_false
  | .markUnhealthy _ => .isFalse not_false

/-- The commands of a run that are not the checker's. -/
def LivenessEvent.others (events : List LivenessEvent) : List Op :=
  events.filterMap (fun
    | .command _ op => some op
    | .tick _ _ => none
    | .turn _ _ => none)

/-- The turns of the loop in a run. -/
def LivenessEvent.turns (events : List LivenessEvent) : List Bool :=
  events.filterMap (fun
    | .command _ _ => none
    | .tick _ _ => none
    | .turn _ committed => some committed)

/-- An event while a check is under way: the ticker waits. -/
def LivenessEvent.Inside : LivenessEvent → Prop
  | .command _ _ => True
  | .tick _ _ => False
  | .turn _ _ => True

instance : (e : LivenessEvent) → Decidable e.Inside
  | .command _ _ => .isTrue trivial
  | .tick _ _ => .isFalse not_false
  | .turn _ _ => .isTrue trivial

namespace Checker

def run (timeout : Int64) (c : Checker) (events : List LivenessEvent) : Checker :=
  events.foldl (step timeout) c

/-- A check that starts at `now` finds the node stale. -/
def Silent (timeout : Int64) (c : Checker) (now : Int64) (id : String) : Prop :=
  ∃ n ∈ c.fsm.nodes.get id, isStale timeout now n = true

instance (timeout : Int64) (c : Checker) (now : Int64) (id : String) :
    Decidable (c.Silent timeout now id) :=
  inferInstanceAs (Decidable (∃ n ∈ c.fsm.nodes.get id, isStale timeout now n = true))

/-- The check under way has still to mark the node. -/
def Due (timeout : Int64) (c : Checker) (id : String) : Prop :=
  ∃ node ∈ c.remaining, node.id = id ∧ isStale timeout c.now node = true

end Checker

theorem Registry.step_on (r : Registry) (op : Op) (id : String) :
    (r.step op).1 id = op.on id (r id) := by
  cases op with
  | registerNode p => rfl
  | updateHeartbeat p | markUnhealthy p =>
    simp only [Registry.step, Op.on]
    by_cases hid : id = p.nodeID
    · subst hid
      cases hm : r p.nodeID <;> simp [Registry.put, hm, Member.dead]
    · cases hm : r p.nodeID <;> simp [Registry.put, hid]

theorem Registry.after_on (r : Registry) (ops : List Op) (id : String) :
    r.after ops id = ops.foldl (fun m op => op.on id m) (r id) := by
  induction ops generalizing r with
  | nil => rfl
  | cons op ops ih =>
    rw [List.foldl_cons, ← Registry.step_on]
    exact ih _

/-- Only a registration brings a dead node back. -/
theorem Op.on_dead {id : String} {op : Op} (h : ¬ op.Registers id) (m : Option Member) :
    op.on id (m.map Member.dead) = (op.on id m).map Member.dead := by
  cases op with
  | registerNode p =>
    have hid : id ≠ p.nodeID := fun hid => h hid.symm
    simp [Op.on, hid]
  | updateHeartbeat p | markUnhealthy p =>
    by_cases hid : id = p.nodeID <;> cases m <;> simp [Op.on, Member.dead, hid]

theorem Canonical.applyOp_on {T : Int} {s : ClusterState} (h : Canonical T s) (o : Orders) (op : Op)
    (id : String) : members (applyOp o s op).1 id = op.on id (members s id) := by
  have hs : Represents T s (members s) := ⟨h, rfl⟩
  rw [(hs.applyOp o op).1.registry, Registry.step_on]

theorem Canonical.applyOp {T : Int} {s : ClusterState} (h : Canonical T s) (o : Orders) (op : Op) :
    Canonical T (applyOp o s op).1 := by
  have hs : Represents T s (members s) := ⟨h, rfl⟩
  exact (hs.applyOp o op).1.canonical

/-- The nodes that the shard map names are healthy. -/
theorem Canonical.named_healthy {T : Int} {s : ClusterState} (h : Canonical T s) {i : Int}
    {sr : ShardRecord} (hi : s.shards.get i = some sr) {id : String} (hid : id ≠ "")
    (hnamed : sr.primaryNode = id ∨ sr.replicaNode = id) : id ∈ healthyIDs s := by
  rw [h.shards] at hi
  split at hi
  · rw [← Option.some.inj hi] at hnamed
    rcases hnamed with hprimary | hreplica
    · rcases Option.getD_eq_iff.mp hprimary with hturn | ⟨-, hempty⟩
      · exact List.mem_of_getElem? hturn
      · exact absurd hempty.symm hid
    · rcases Option.getD_eq_iff.mp hreplica with hfind | ⟨-, hempty⟩
      · exact List.mem_of_find?_eq_some hfind
      · exact absurd hempty.symm hid
  · cases hi

/-- As long as a node is healthy every shard has a primary, and that is healthy. -/
theorem Canonical.covered {T : Int} {s : ClusterState} (h : Canonical T s)
    (hne : healthyIDs s ≠ []) {i : Int} (hi : 0 ≤ i ∧ i < T) :
    ∃ sr, s.shards.get i = some sr ∧ sr.primaryNode ∈ healthyIDs s := by
  refine ⟨_, (h.shards i).trans (if_pos hi), ?_⟩
  exact List.mem_of_getElem? ((primaryOf_eq_iff hne i.toNat _).mp rfl)

namespace Checker

variable {T : Int} {timeout : Int64} {c : Checker}

/-- A turn of the loop takes a node off the snapshot and marks it if it is stale. -/
theorem turn_members (h : Canonical T c.fsm) {node : NodeRecord} {rest : List NodeRecord}
    (hremaining : c.remaining = node :: rest) (o : Orders) (committed : Bool) (id : String) :
    members (c.step timeout (.turn o committed)).fsm id =
      if (isStale timeout c.now node ∧ committed) ∧ id = node.id then
        (members c.fsm id).map Member.dead else members c.fsm id := by
  simp only [step, hremaining]
  by_cases hstale : isStale timeout c.now node ∧ committed
  · have hmark := h.applyOp_on o (.markUnhealthy ⟨node.id⟩) id
    rw [if_pos hstale]
    simp only [hstale, true_and]
    exact hmark
  · rw [if_neg hstale, if_neg (fun hboth => hstale hboth.1)]

theorem turn_remaining (c : Checker) (o : Orders) (committed : Bool) :
    (c.step timeout (.turn o committed)).remaining = c.remaining.tail := by
  simp only [step]
  split
  · rename_i hnone
    rw [hnone]
    rfl
  · rename_i hremaining
    rw [hremaining]
    split <;> rfl

theorem turn_now (c : Checker) (o : Orders) (committed : Bool) :
    (c.step timeout (.turn o committed)).now = c.now := by
  simp only [step]
  split
  · rfl
  · split <;> rfl

theorem step_canonical (h : Canonical T c.fsm) (e : LivenessEvent) :
    Canonical T (c.step timeout e).fsm := by
  cases e with
  | command o op => exact h.applyOp o op
  | tick nodes now =>
    simp only [step]
    split <;> exact h
  | turn o committed =>
    simp only [step]
    split
    · exact h
    · split
      · exact h.applyOp o (.markUnhealthy _)
      · exact h

theorem run_canonical (h : Canonical T c.fsm) (events : List LivenessEvent) :
    Canonical T (c.run timeout events).fsm := by
  induction events generalizing c with
  | nil => exact h
  | cons e events ih => exact ih (step_canonical h e)

/-- Enough turns end the check. -/
theorem run_remaining (events : List LivenessEvent) (hinside : ∀ e ∈ events, e.Inside) :
    (c.run timeout events).remaining.length =
      c.remaining.length - (LivenessEvent.turns events).length := by
  induction events generalizing c with
  | nil => rfl
  | cons e events ih =>
    have hrest := ih (c := c.step timeout e) (fun x hx => hinside x (List.mem_cons_of_mem _ hx))
    rw [run, List.foldl_cons, ← run, hrest]
    cases e with
    | command o op => rfl
    | tick nodes now => exact absurd (hinside _ List.mem_cons_self) id
    | turn o committed =>
      rw [turn_remaining, List.length_tail]
      simp only [LivenessEvent.turns, List.filterMap_cons, List.length_cons]
      omega

/-- While a check runs: the entry of a node that it has not to mark is the one that the commands
of the others make. -/
structure Spares (timeout : Int64) (c : Checker) (id : String) (m : Option Member) : Prop where
  entry : members c.fsm id = m
  passed : ¬ c.Due timeout id

/-- The entry of a node that it has to mark is that one until its turn, and dead from then on. -/
def Evicts (timeout : Int64) (c : Checker) (id : String) (m : Option Member) : Prop :=
  members c.fsm id = m.map Member.dead ∨ members c.fsm id = m ∧ c.Due timeout id

theorem Due.of_turn {o : Orders} {committed : Bool} {id : String}
    (h : (c.step timeout (.turn o committed)).Due timeout id) : c.Due timeout id := by
  obtain ⟨node, hnode, hid, hstale⟩ := h
  rw [turn_remaining] at hnode
  rw [turn_now] at hstale
  exact ⟨node, List.mem_of_mem_tail hnode, hid, hstale⟩

theorem Spares.turn (h : Canonical T c.fsm) {id : String} {m : Option Member}
    (hm : c.Spares timeout id m) (o : Orders) (committed : Bool) :
    (c.step timeout (.turn o committed)).Spares timeout id m := by
  refine ⟨?_, fun hdue => hm.passed hdue.of_turn⟩
  cases hremaining : c.remaining with
  | nil =>
    simp only [step, hremaining]
    exact hm.entry
  | cons node rest =>
    rw [turn_members h hremaining, if_neg ?_]
    · exact hm.entry
    · intro hmark
      obtain ⟨⟨hstale, -⟩, hid⟩ := hmark
      exact hm.passed ⟨node, by simp [hremaining], hid.symm, hstale⟩

theorem Evicts.turn (h : Canonical T c.fsm) {id : String} {m : Option Member}
    (hm : c.Evicts timeout id m) (o : Orders) :
    (c.step timeout (.turn o true)).Evicts timeout id m := by
  cases hremaining : c.remaining with
  | nil =>
    simp only [step, hremaining]
    exact hm
  | cons node rest =>
    have hmembers : members (c.step timeout (.turn o true)).fsm id = _ :=
      turn_members h hremaining o true id
    by_cases hmark : isStale timeout c.now node = true ∧ id = node.id
    · left
      rw [hmembers, if_pos ⟨⟨hmark.1, rfl⟩, hmark.2⟩]
      rcases hm with hdead | ⟨hsame, -⟩
      · rw [hdead, Option.map_map]
        rfl
      · rw [hsame]
    · rw [if_neg (fun hboth => hmark ⟨hboth.1.1, hboth.2⟩)] at hmembers
      rw [Evicts, hmembers]
      refine hm.imp_right (And.imp_right ?_)
      intro hdue
      obtain ⟨x, hx, hid, hstale⟩ := hdue
      rw [hremaining] at hx
      -- The head of the snapshot is not the record that is due.
      rcases List.mem_cons.mp hx with hhead | hrest
      · rw [hhead] at hid hstale
        exact absurd ⟨hstale, hid.symm⟩ hmark
      · refine ⟨x, ?_, hid, ?_⟩
        · rw [turn_remaining, hremaining]
          exact hrest
        · rw [turn_now]
          exact hstale

theorem Spares.run (h : Canonical T c.fsm) {id : String} {m : Option Member}
    (hm : c.Spares timeout id m) {events : List LivenessEvent}
    (hinside : ∀ e ∈ events, e.Inside) :
    (c.run timeout events).Spares timeout id
      ((LivenessEvent.others events).foldl (fun m op => op.on id m) m) := by
  induction events generalizing c m with
  | nil => exact hm
  | cons e events ih =>
    have hrest := fun x hx => hinside x (List.mem_cons_of_mem _ hx)
    have hcan : Canonical T (c.step timeout e).fsm := step_canonical h e
    cases e with
    | command o op =>
      refine ih hcan ⟨?_, hm.passed⟩ hrest
      rw [← hm.entry]
      exact h.applyOp_on o op id
    | tick nodes now => exact absurd (hinside _ List.mem_cons_self) not_false
    | turn o committed => exact ih hcan (hm.turn h o committed) hrest

theorem Evicts.run (h : Canonical T c.fsm) {id : String} {m : Option Member}
    (hm : c.Evicts timeout id m) {events : List LivenessEvent}
    (hinside : ∀ e ∈ events, e.Inside) (hcommitted : ∀ b ∈ LivenessEvent.turns events, b = true)
    (hgone : ∀ op ∈ LivenessEvent.others events, ¬ op.Registers id) :
    (c.run timeout events).Evicts timeout id
      ((LivenessEvent.others events).foldl (fun m op => op.on id m) m) := by
  induction events generalizing c m with
  | nil => exact hm
  | cons e events ih =>
    have hrest := fun x hx => hinside x (List.mem_cons_of_mem _ hx)
    have hcan : Canonical T (c.step timeout e).fsm := step_canonical h e
    cases e with
    | command o op =>
      refine ih hcan ?_ hrest hcommitted (fun x hx => hgone x (List.mem_cons_of_mem _ hx))
      have hentry : members (c.step timeout (.command o op)).fsm id = _ := h.applyOp_on o op id
      rcases hm with hdead | ⟨hsame, hdue⟩
      · left
        rw [hentry, hdead, Op.on_dead (hgone op List.mem_cons_self)]
      · exact .inr ⟨by rw [hentry, hsame], hdue⟩
    | tick nodes now => exact absurd (hinside _ List.mem_cons_self) not_false
    | turn o committed =>
      have htrue : committed = true := hcommitted _ List.mem_cons_self
      subst htrue
      exact ih hcan (hm.turn h o) hrest (fun b hb => hcommitted b (List.mem_cons_of_mem _ hb)) hgone

/-- The state right after a tick that starts a check. -/
theorem tick_eq (hidle : c.remaining = []) (nodes : Order String) (now : Int64) :
    c.step timeout (.tick nodes now) = { c with
      now := now, remaining := (nodes.arrange c.fsm.nodes.keys).filterMap c.fsm.nodes.get } := by
  simp only [step, hidle]

/-- A check has to mark the nodes that it finds stale. -/
theorem due_tick (h : Canonical T c.fsm) (hidle : c.remaining = []) {nodes : Order String}
    {now : Int64} {id : String} :
    (c.step timeout (.tick nodes now)).Due timeout id ↔ c.Silent timeout now id := by
  rw [tick_eq hidle]
  simp only [Due, Silent, List.mem_filterMap]
  constructor
  · intro hdue
    obtain ⟨node, ⟨key, -, hget⟩, hid, hstale⟩ := hdue
    rw [← hid, (h.nodes key node hget).1]
    exact ⟨node, hget, hstale⟩
  · intro hsilent
    obtain ⟨n, hn, hstale⟩ := hsilent
    refine ⟨n, ⟨id, ?_, hn⟩, (h.nodes id n hn).1, hstale⟩
    rw [nodes.mem, c.fsm.nodes.mem_keys, show c.fsm.nodes.get id = some n from hn]
    rfl

/-- A turn for each node ends the check. -/
theorem check_ends (hidle : c.remaining = []) (nodes : Order String) (now : Int64)
    {events : List LivenessEvent} (hinside : ∀ e ∈ events, e.Inside)
    (hturns : c.fsm.nodes.keys.length ≤ (LivenessEvent.turns events).length) :
    (c.run timeout (.tick nodes now :: events)).remaining = [] := by
  have hlength : (c.run timeout (.tick nodes now :: events)).remaining.length = _ :=
    run_remaining (c := c.step timeout (.tick nodes now)) events hinside
  have hsnapshot : ((nodes.arrange c.fsm.nodes.keys).filterMap c.fsm.nodes.get).length ≤
      c.fsm.nodes.keys.length :=
    (List.length_filterMap_le _ _).trans_eq (nodes.perm _).length_eq
  rw [tick_eq hidle] at hlength
  exact List.eq_nil_of_length_eq_zero (by simp only at hlength; omega)

end Checker

theorem mem_healthyIDs_members {s : ClusterState} {id : String} :
    id ∈ healthyIDs s ↔ (members s id).map Member.status = some .healthy := by
  rw [mem_healthyIDs, isHealthy_eq, decide_eq_true_eq]

/-- A check takes exactly the silent nodes out of service. Whatever happened before, and whatever
commands of others come between its turns, it ends after a turn for each node. A node that was not
stale has then the entry that the commands of the others alone make of it. A stale one, unless it
has registered anew or a command was refused, has that entry with the status unhealthy, heartbeats
notwithstanding, and no shard names it. If a node that was not stale is in service then every
shard has a primary that is. -/
theorem check_evicts_silent (T : Int) (timeout : Int64) (before : List LivenessEvent)
    (nodes : Order String) (now : Int64) (events : List LivenessEvent)
    (hidle : ((Checker.start T).run timeout before).remaining = [])
    (hinside : ∀ e ∈ events, e.Inside)
    (hturns : ((Checker.start T).run timeout before).fsm.nodes.keys.length ≤
      (LivenessEvent.turns events).length) :
    let c := (Checker.start T).run timeout before
    let after := c.run timeout (.tick nodes now :: events)
    let told := (members c.fsm).after (LivenessEvent.others events)
    after.remaining = [] ∧
    (∀ id, ¬ c.Silent timeout now id → members after.fsm id = told id) ∧
    (∀ id, c.Silent timeout now id → (∀ b ∈ LivenessEvent.turns events, b = true) →
      (∀ op ∈ LivenessEvent.others events, ¬ op.Registers id) →
      members after.fsm id = (told id).map Member.dead ∧
      (id ≠ "" → ∀ i sr, after.fsm.shards.get i = some sr →
        sr.primaryNode ≠ id ∧ sr.replicaNode ≠ id)) ∧
    ∀ id, ¬ c.Silent timeout now id → (told id).map Member.status = some .healthy →
      ∀ i, 0 ≤ i ∧ i < T → ∃ sr, after.fsm.shards.get i = some sr ∧
        (members after.fsm sr.primaryNode).map Member.status = some .healthy := by
  intro c after told
  have hcan : Canonical T c.fsm := Checker.run_canonical (newFSM_represents T).canonical before
  have htick : Canonical T (c.step timeout (.tick nodes now)).fsm := Checker.step_canonical hcan _
  have hafter : Canonical T after.fsm := Checker.run_canonical hcan _
  have hends : after.remaining = [] := Checker.check_ends hidle nodes now hinside hturns
  have hstart : members (c.step timeout (.tick nodes now)).fsm = members c.fsm := by
    rw [Checker.tick_eq hidle]
  have hspared : ∀ id, ¬ c.Silent timeout now id → members after.fsm id = told id := by
    intro id hsilent
    have hspares : (c.step timeout (.tick nodes now)).Spares timeout id (members c.fsm id) :=
      ⟨by rw [hstart], fun hdue => hsilent ((Checker.due_tick hcan hidle).mp hdue)⟩
    exact (hspares.run htick hinside).entry.trans (Registry.after_on _ _ id).symm
  refine ⟨hends, hspared, ?_, ?_⟩
  · intro id hsilent hcommitted hgone
    have hevicts : (c.step timeout (.tick nodes now)).Evicts timeout id (members c.fsm id) :=
      .inr ⟨by rw [hstart], (Checker.due_tick hcan hidle).mpr hsilent⟩
    have hdead : members after.fsm id = (told id).map Member.dead := by
      rcases hevicts.run htick hinside hcommitted hgone with hdead | ⟨-, hdue⟩
      · exact hdead.trans (congrArg _ (Registry.after_on _ _ id).symm)
      · obtain ⟨node, hnode, -⟩ := hdue
        exact absurd (hends ▸ hnode) List.not_mem_nil
    refine ⟨hdead, fun hid i sr hsr => ?_⟩
    have hout : id ∉ healthyIDs after.fsm := by
      rw [mem_healthyIDs_members, hdead]
      cases told id <;> simp [Member.dead]
    exact ⟨fun h => hout (hafter.named_healthy hsr hid (.inl h)),
      fun h => hout (hafter.named_healthy hsr hid (.inr h))⟩
  · intro id hsilent hhealthy i hi
    rw [← hspared id hsilent, ← mem_healthyIDs_members] at hhealthy
    obtain ⟨sr, hsr, hprimary⟩ := hafter.covered (List.ne_nil_of_mem hhealthy) hi
    exact ⟨sr, hsr, mem_healthyIDs_members.mp hprimary⟩

def twoNodes : List LivenessEvent :=
  [.command .listed (.registerNode ⟨"a", "host-a", 0⟩),
    .command .listed (.registerNode ⟨"b", "host-b", 10⟩)]

/-- The node that the check has found stale reports before its turn. -/
def lateHeartbeat : List LivenessEvent :=
  [.command .listed (.updateHeartbeat ⟨"a", 21⟩), .turn .listed true, .turn .listed true]

theorem check_evicts_silent_late :
    let after := ((Checker.start 4).run 15 twoNodes).run 15 (.tick .listed 20 :: lateHeartbeat)
    members after.fsm "a" = some ⟨"host-a", .unhealthy, 21⟩ ∧
    ∀ i, 0 ≤ i ∧ i < 4 → ∃ sr, after.fsm.shards.get i = some sr ∧
      (members after.fsm sr.primaryNode).map Member.status = some .healthy := by
  intro after
  obtain ⟨-, -, hsilent, hserved⟩ := check_evicts_silent 4 15 twoNodes .listed 20 lateHeartbeat
    (by decide +kernel) (by decide +kernel) (by decide +kernel)
  refine ⟨(hsilent "a" ?_ ?_ ?_).1.trans ?_, hserved "b" ?_ ?_⟩
  all_goals decide +kernel

end LogEngine.Metadata
