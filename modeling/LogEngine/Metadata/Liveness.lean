import LogEngine.Metadata.Registry

namespace LogEngine.Metadata
open Lib

/-- The test of `checkLiveness` on a node of its snapshot. The subtraction wraps on 64 bits. -/
def isStale (timeout now : Int64) (node : NodeRecord) : Bool :=
  node.status ≠ .unhealthy && timeout < now - node.lastSeen

/-- The FSM with a run of `checkLiveness`: its clock reading and the nodes of its snapshot that it
has still to look at. -/
structure Checker where
  fsm : ClusterState
  now : Int64
  remaining : List NodeRecord

/-- What can happen between two steps of the checker: a command of someone else is applied. A tick
reads the state, in some order, and the clock; a turn of the loop takes the next node of the
snapshot and, where the node is stale, submits the command, which Raft may refuse. -/
inductive LivenessEvent where
  | command (o : Orders) (op : Op)
  | tick (nodes : Order String) (now : Int64)
  | turn (o : Orders) (committed : Bool)

namespace Checker

def start (T : Int) : Checker := ⟨newFSM T, 0, []⟩

/-- One event. The ticker waits for a run of `checkLiveness` that is under way. -/
def step (timeout : Int64) (c : Checker) : LivenessEvent → Checker
  | .command o op => { c with fsm := (applyOp o c.fsm op).1 }
  | .tick nodes now =>
    match c.remaining with
    | [] =>
      let snapshot := (nodes.arrange c.fsm.nodes.keys).filterMap c.fsm.nodes.get
      { c with now := now, remaining := snapshot }
    | _ :: _ => c
  | .turn o committed =>
    match c.remaining with
    | [] => c
    | node :: rest =>
      if isStale timeout c.now node ∧ committed then
        { c with fsm := (applyMarkUnhealthy o c.fsm ⟨node.id⟩).1, remaining := rest }
      else { c with remaining := rest }

end Checker

/-- A node was last seen before the clock reading of the checker minus the timeout. -/
def Overdue (timeout : Int64) (c : Checker) (id : String) : Prop :=
  ∀ n ∈ c.fsm.nodes.get id, n.lastSeen.toInt < c.now.toInt - timeout.toInt

/-- A command of the checker that is applied is about a node that is overdue in the state it is
applied to. -/
def LivenessEvent.Right (timeout : Int64) (c : Checker) : LivenessEvent → Prop
  | .turn _ true => ∀ node ∈ c.remaining.head?, isStale timeout c.now node = true →
    Overdue timeout c node.id
  | _ => True

/-- That holds at every event of a run. -/
def MarksRight (timeout : Int64) (c : Checker) : List LivenessEvent → Prop
  | [] => True
  | e :: es => e.Right timeout c ∧ MarksRight timeout (c.step timeout e) es

/-- The node that a command reports as seen, and when. -/
def Op.heard : Op → Option (String × Int64)
  | .registerNode p => some (p.nodeID, p.nowUnixNs)
  | .updateHeartbeat p => some (p.nodeID, p.nowUnixNs)
  | .markUnhealthy _ => none

/-- A command does not report a node as seen in time that the checker is about to mark, and the
clock does not stand before 1970. -/
def LivenessEvent.Allowed (timeout : Int64) (c : Checker) : LivenessEvent → Prop
  | .command _ op => ∀ seen ∈ op.heard, ∀ node ∈ c.remaining, node.id = seen.1 →
    isStale timeout c.now node = true → seen.2.toInt < c.now.toInt - timeout.toInt
  | .tick _ now => 0 ≤ now.toInt
  | .turn _ _ => True

def AllAllowed (timeout : Int64) (c : Checker) : List LivenessEvent → Prop
  | [] => True
  | e :: es => e.Allowed timeout c ∧ AllAllowed timeout (c.step timeout e) es

instance (timeout : Int64) (c : Checker) (e : LivenessEvent) : Decidable (e.Allowed timeout c) :=
  match e with
  | .command _ op => inferInstanceAs (Decidable (∀ seen ∈ op.heard, ∀ node ∈ c.remaining,
      node.id = seen.1 → isStale timeout c.now node = true →
        seen.2.toInt < c.now.toInt - timeout.toInt))
  | .tick _ now => inferInstanceAs (Decidable (0 ≤ now.toInt))
  | .turn _ _ => .isTrue trivial

instance AllAllowed.decidable (timeout : Int64) : (c : Checker) → (es : List LivenessEvent) →
    Decidable (AllAllowed timeout c es)
  | _, [] => .isTrue trivial
  | c, e :: es => @instDecidableAnd _ _ inferInstance
      (AllAllowed.decidable timeout (c.step timeout e) es)

/-- The wrapped difference is no larger than the difference when the clock is after 1970. -/
theorem isStale_overdue {timeout now : Int64} {node : NodeRecord} (hnow : 0 ≤ now.toInt)
    (h : isStale timeout now node = true) : node.lastSeen.toInt < now.toInt - timeout.toInt := by
  simp only [isStale, Bool.and_eq_true, decide_eq_true_eq, Int64.lt_iff_toInt_lt,
    Int64.toInt_sub] at h
  have hlow := node.lastSeen.toInt_lt
  have hhigh := node.lastSeen.le_toInt
  have htop := now.toInt_lt
  have hwrap : (now.toInt - node.lastSeen.toInt).bmod (2 ^ 64) ≤
      now.toInt - node.lastSeen.toInt := by
    simp only [Int.bmod_def]
    omega
  omega

/-- A command changes when a node was last seen only by reporting it. -/
theorem Registry.step_lastSeen {r : Registry} {op : Op} {id : String} {m : Member}
    (h : (r.step op).1 id = some m) :
    (∃ m₀, r id = some m₀ ∧ m₀.lastSeen = m.lastSeen) ∨ op.heard = some (id, m.lastSeen) := by
  cases op with
  | registerNode p =>
    simp only [Registry.step, Registry.put] at h
    split at h
    · rename_i hid
      rw [← Option.some.inj h, hid]
      exact .inr rfl
    · exact .inl ⟨m, h, rfl⟩
  | updateHeartbeat p =>
    simp only [Registry.step] at h
    split at h
    · exact .inl ⟨m, h, rfl⟩
    · simp only [Registry.put] at h
      split at h
      · rename_i hid
        rw [← Option.some.inj h, hid]
        exact .inr rfl
      · exact .inl ⟨m, h, rfl⟩
  | markUnhealthy p =>
    simp only [Registry.step] at h
    split at h
    · exact .inl ⟨m, h, rfl⟩
    · rename_i m₀ hm₀
      simp only [Registry.put] at h
      split at h
      · rename_i hid
        rw [← Option.some.inj h, hid]
        exact .inl ⟨m₀, hm₀, rfl⟩
      · exact .inl ⟨m, h, rfl⟩

theorem applyOp_lastSeen {T : Int} {s : ClusterState} {r : Registry} (hs : Represents T s r)
    {o : Orders} {op : Op} {id : String} {n : NodeRecord}
    (hn : (applyOp o s op).1.nodes.get id = some n) :
    (∃ n₀, s.nodes.get id = some n₀ ∧ n₀.lastSeen = n.lastSeen) ∨
      op.heard = some (id, n.lastSeen) := by
  have hafter : (r.step op).1 id = some n.member := by
    rw [← (hs.applyOp o op).1.registry, members, hn]
    rfl
  rcases Registry.step_lastSeen hafter with ⟨m₀, hm₀, heq⟩ | hheard
  · rw [← hs.registry] at hm₀
    obtain ⟨n₀, hn₀, hmember⟩ := Option.map_eq_some_iff.mp hm₀
    exact .inl ⟨n₀, hn₀, by rw [← hmember] at heq; exact heq⟩
  · exact .inr hheard

/-- Between the turns of a check: the nodes still to be marked are overdue. -/
structure Checker.Sound (T : Int) (timeout : Int64) (c : Checker) : Prop where
  fsm : ∃ r, Represents T c.fsm r
  overdue : ∀ node ∈ c.remaining, isStale timeout c.now node = true → Overdue timeout c node.id

namespace Checker.Sound

variable {T : Int} {timeout : Int64} {c : Checker}

theorem start (T : Int) (timeout : Int64) : Sound T timeout (.start T) :=
  ⟨⟨_, newFSM_represents T⟩, by simp [Checker.start]⟩

theorem command (h : Sound T timeout c) {o : Orders} {op : Op}
    (hop : (LivenessEvent.command o op).Allowed timeout c) :
    Sound T timeout (c.step timeout (.command o op)) := by
  obtain ⟨r, hr⟩ := h.fsm
  refine ⟨⟨_, (hr.applyOp o op).1⟩, ?_⟩
  intro node hnode hstale n hn
  rcases applyOp_lastSeen hr hn with ⟨n₀, hn₀, hseen⟩ | hheard
  · rw [← hseen]
    exact h.overdue node hnode hstale n₀ hn₀
  · have hlate := hop _ hheard node hnode rfl hstale
    exact hlate

theorem tick (h : Sound T timeout c) {nodes : Order String} {now : Int64}
    (hnow : (LivenessEvent.tick nodes now).Allowed timeout c) :
    Sound T timeout (c.step timeout (.tick nodes now)) := by
  simp only [Checker.step]
  split
  · refine ⟨h.fsm, ?_⟩
    intro node hnode hstale n hn
    obtain ⟨r, hr⟩ := h.fsm
    obtain ⟨key, -, hget⟩ := List.mem_filterMap.mp hnode
    rw [(hr.canonical.nodes key node hget).1] at hn
    have heq : node = n := Option.some.inj (hget.symm.trans hn)
    rw [← heq]
    exact isStale_overdue hnow hstale
  · exact h

theorem turn (h : Sound T timeout c) (o : Orders) (committed : Bool) :
    Sound T timeout (c.step timeout (.turn o committed)) := by
  obtain ⟨r, hr⟩ := h.fsm
  simp only [Checker.step]
  split
  · exact h
  · rename_i node rest hremaining
    have hrest : ∀ x ∈ rest, x ∈ c.remaining := fun x hx => by
      rw [hremaining]
      exact List.mem_cons_of_mem _ hx
    split
    · refine ⟨⟨_, (hr.applyOp o (.markUnhealthy ⟨node.id⟩)).1⟩, ?_⟩
      intro x hx hstale n hn
      have hseen := @applyOp_lastSeen _ _ _ hr o (.markUnhealthy ⟨node.id⟩) _ _ hn
      rcases hseen with ⟨n₀, hn₀, hseen⟩ | hheard
      · rw [← hseen]
        exact h.overdue x (hrest x hx) hstale n₀ hn₀
      · cases hheard
    · exact ⟨h.fsm, fun x hx => h.overdue x (hrest x hx)⟩

theorem right (h : Sound T timeout c) (e : LivenessEvent) : e.Right timeout c := by
  cases e with
  | command o op => trivial
  | tick nodes now => trivial
  | turn o committed =>
    cases committed with
    | false => trivial
    | true => exact fun node hnode => h.overdue node (List.mem_of_mem_head? hnode)

theorem step (h : Sound T timeout c) {e : LivenessEvent} (he : e.Allowed timeout c) :
    Sound T timeout (c.step timeout e) := by
  cases e with
  | command o op => exact h.command he
  | tick nodes now => exact h.tick he
  | turn o committed => exact h.turn o committed

theorem run (h : Sound T timeout c) {es : List LivenessEvent} (hes : AllAllowed timeout c es) :
    MarksRight timeout c es := by
  induction es generalizing c with
  | nil => trivial
  | cons e es ih => exact ⟨h.right e, ih (h.step hes.1) hes.2⟩

end Checker.Sound

/-- No live node is declared dead in a run in which no node that is about to be marked reports in
time. One that does is marked nevertheless. -/
theorem marks_right (T : Int) (timeout : Int64) :
    (∀ es, AllAllowed timeout (.start T) es → MarksRight timeout (.start T) es) ∧
    ∀ c node rest n o o' (seen : Int64), c.remaining = node :: rest →
      isStale timeout c.now node = true → c.fsm.nodes.get node.id = some n →
      c.now.toInt - timeout.toInt ≤ seen.toInt →
      ¬ MarksRight timeout c [.command o (.updateHeartbeat ⟨node.id, seen⟩), .turn o' true] := by
  refine ⟨fun es hes => (Checker.Sound.start T timeout).run hes, ?_⟩
  intro c node rest n o o' seen hremaining hstale hn hseen hright
  have hturn := hright.2.1 node (by simp [Checker.step, hremaining]) hstale
    { n with lastSeen := seen } (by simp [Checker.step, applyOp, applyUpdateHeartbeat, hn])
  simp only [Checker.step] at hturn
  omega

/-- One node is silent for longer than the timeout and the other reports while the check is under
way. -/
def oneSilent : List LivenessEvent :=
  [.command .listed (.registerNode ⟨"a", "host-a", 0⟩),
    .command .listed (.registerNode ⟨"b", "host-b", 10⟩), .tick .listed 20,
    .command .listed (.updateHeartbeat ⟨"b", 21⟩), .turn .listed true, .turn .listed true]

theorem marks_right_silent : MarksRight 15 (.start 4) oneSilent ∧
    healthyIDs (oneSilent.foldl (Checker.step 15) (.start 4)).fsm = ["b"] := by
  refine ⟨(marks_right 4 15).1 oneSilent ?_, ?_⟩
  · decide +kernel
  · decide +kernel

/-- A heartbeat that arrives between the snapshot and the command does not save the node. -/
theorem live_node_marked :
    ¬ MarksRight 15 (.start 4) [.command .listed (.registerNode ⟨"a", "host-a", 0⟩),
      .tick .listed 20, .command .listed (.updateHeartbeat ⟨"a", 20⟩), .turn .listed true] ∧
    healthyIDs (List.foldl (Checker.step 15) (.start 4)
      [.command .listed (.registerNode ⟨"a", "host-a", 0⟩), .tick .listed 20,
        .command .listed (.updateHeartbeat ⟨"a", 20⟩), .turn .listed true]).fsm = [] := by
  refine ⟨?_, by decide +kernel⟩
  intro hright
  have hturn := hright.2.2.2.1 ⟨"a", "host-a", [0, 1, 2, 3], .healthy, 0⟩ (by decide +kernel)
    (by decide) ⟨"a", "host-a", [0, 1, 2, 3], .healthy, 20⟩ (by decide +kernel)
  exact absurd hturn (by decide +kernel)

end LogEngine.Metadata
