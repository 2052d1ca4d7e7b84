import LogEngine.Lib.InTurn
import LogEngine.Metadata.Coordinator

namespace LogEngine.Cluster
open Lib Metadata

inductive ClientError where
  | noAddress
  | dial (addr : String)
  | rpc (code : Code)
  | contextDone
  | noReachableLeader
  deriving DecidableEq

/-- `ClusterClient`. A connection that was closed and could not be replaced is none. -/
structure ClusterClient where
  addrs : List String
  idx : Fin addrs.length
  conn : Option String
  nodeID : String

namespace ClusterClient

variable {ω ρ : Type} (dials : String → Bool)

/-- `NewClusterClient`. Which addresses `grpc.NewClient` takes is not part of the repository. -/
def new (addrs : List String) (nodeID : String) : Except ClientError ClusterClient :=
  if h : 0 < addrs.length then
    let addr := addrs.get ⟨0, h⟩
    if dials addr then .ok ⟨addrs, ⟨0, h⟩, some addr, nodeID⟩ else .error (.dial addr)
  else .error .noAddress

/-- `connectTo`. The old connection is closed first. -/
def connectTo (c : ClusterClient) (addr : String) : ClusterClient × Option ClientError :=
  if dials addr then ({ c with conn := some addr }, none)
  else ({ c with conn := none }, some (.dial addr))

/-- The address of the coordinator that is next in turn after `k` others. -/
def turn (c : ClusterClient) (k : Nat) : Fin c.addrs.length :=
  ⟨(c.idx + k) % c.addrs.length, Nat.mod_lt _ c.idx.pos⟩

def advanceAndReconnect (c : ClusterClient) : ClusterClient × Option ClientError :=
  let idx := c.turn 1
  connectTo dials { c with idx } (c.addrs.get idx)

/-- An RPC on the client that `currentClient` returns. -/
def call (rpc : ω → String → ω × Except Code ρ) (w : ω) (c : ClusterClient) :
    ω × Except Code ρ :=
  match c.conn with
  | some addr => rpc w addr
  | none => (w, .error .canceled)

/-- The codes on which the client goes on to the next coordinator. -/
def rotates : Code → Bool
  | .failedPrecondition | .unavailable => true
  | .invalidArgument | .notFound | .internal | .canceled | .deadlineExceeded => false

/-- An attempt of `Register` or of `SendHeartbeat`: the call, and after a code that rotates the
step to the next coordinator. There is no result when the loop goes on. -/
def attempt (rpc : ω → String → ω × Except Code ρ) (w : ω) (c : ClusterClient) :
    ω × ClusterClient × Option (Except ClientError ρ) :=
  let answer := c.call rpc w
  match answer.2 with
  | .ok r => (answer.1, c, some (.ok r))
  | .error code =>
    if rotates code then
      let next := c.advanceAndReconnect dials
      (answer.1, next.1, next.2.map .error)
    else (answer.1, c, some (.error (.rpc code)))

/-- Their loops, with this many attempts left. -/
def attempts (rpc : ω → String → ω × Except Code ρ) :
    Nat → ω → ClusterClient → ω × ClusterClient × Option (Except ClientError ρ)
  | 0, w, c => (w, c, none)
  | n + 1, w, c =>
    let tried := c.attempt dials rpc w
    match tried.2.2 with
    | some result => (tried.1, tried.2.1, some result)
    | none => attempts rpc n tried.1 tried.2.1

def sendHeartbeat (rpc : ω → String → ω × Except Code Unit) (w : ω) (c : ClusterClient) :
    ω × ClusterClient × Except ClientError Unit :=
  let sent := attempts dials rpc (c.addrs.length * 2) w c
  (sent.1, sent.2.1, sent.2.2.getD (.error .noReachableLeader))

/-- `Register`, with the number of times it can wait before its context is done. -/
def register (rpc : ω → String → ω × Except Code (List Int32)) (waits : Nat) (w : ω)
    (c : ClusterClient) : ω × ClusterClient × Except ClientError (List Int) :=
  let sent := attempts dials rpc (waits + 1) w c
  (sent.1, sent.2.1, (sent.2.2.getD (.error .contextDone)).map (List.map Int32.toInt))

/-- Connected to the coordinator whose turn it is. -/
def Connected (c : ClusterClient) : Prop := c.conn = some (c.addrs.get c.idx)

/-- The client after it went on `k` times. -/
def moved (c : ClusterClient) (k : Nat) : ClusterClient :=
  { c with idx := c.turn k, conn := some (c.addrs.get (c.turn k)) }

/-- The addresses that are asked in the next `m` attempts. -/
def turns (c : ClusterClient) (m : Nat) : List String :=
  (List.range m).map (fun k => c.addrs.get (c.turn k))

/-- What an attempt comes to: no answer when the client goes on to the next coordinator. -/
def verdict (rpc : ω → String → ω × Except Code ρ) (w : ω) (addr : String) :
    ω × Option (Except Code ρ) :=
  let answer := rpc w addr
  match answer.2 with
  | .ok r => (answer.1, some (.ok r))
  | .error code => (answer.1, if rotates code then none else some (.error code))

section Turns

variable {c : ClusterClient}

theorem turn_zero (c : ClusterClient) : c.turn 0 = c.idx :=
  Fin.ext (Nat.mod_eq_of_lt c.idx.isLt)

theorem moved_zero (h : c.Connected) : c.moved 0 = c := by
  obtain ⟨addrs, idx, conn, nodeID⟩ := c
  obtain rfl : conn = some (addrs.get idx) := h
  simp [moved, turn_zero]

theorem moved_connected (c : ClusterClient) (k : Nat) : (c.moved k).Connected := rfl

theorem turn_moved (c : ClusterClient) (k : Nat) : (c.moved 1).turn k = c.turn (k + 1) := by
  refine Fin.ext ?_
  show ((c.idx + 1) % c.addrs.length + k) % c.addrs.length = (c.idx + (k + 1)) % c.addrs.length
  rw [Nat.mod_add_mod, Nat.add_assoc, Nat.add_comm 1 k]

theorem moved_moved (c : ClusterClient) (k : Nat) : (c.moved 1).moved k = c.moved (k + 1) := by
  have hturn := turn_moved c k
  simp only [moved] at hturn ⊢
  rw [hturn]

theorem turns_succ (c : ClusterClient) (m : Nat) :
    c.turns (m + 1) = c.addrs.get c.idx :: (c.moved 1).turns m := by
  simp only [turns, List.range_succ_eq_map, List.map_cons, List.map_map, turn_zero]
  refine congrArg _ (List.map_congr_left (fun k _ => ?_))
  show c.addrs.get (c.turn (k + 1)) = c.addrs.get ((c.moved 1).turn k)
  rw [turn_moved]

theorem mem_turns {a : String} (h : a ∈ c.addrs) : a ∈ c.turns c.addrs.length := by
  obtain ⟨j, rfl⟩ := List.mem_iff_get.mp h
  -- The distance from the current position, around the list.
  let k := (j + (c.addrs.length - c.idx)) % c.addrs.length
  have hk : c.turn k = j := by
    refine Fin.ext ?_
    show (c.idx + (j + (c.addrs.length - c.idx)) % c.addrs.length) % c.addrs.length = j
    have hsum : (c.idx : Nat) + (j + (c.addrs.length - c.idx)) = j + c.addrs.length := by omega
    rw [Nat.add_mod_mod, hsum, Nat.add_mod_right, Nat.mod_eq_of_lt j.isLt]
  exact List.mem_map.mpr ⟨k, List.mem_range.mpr (Nat.mod_lt _ c.idx.pos), by rw [hk]⟩

/-- The turn of an address is the one in which the client is connected to it. -/
theorem moved_idxOf {a : String} {m : Nat} (h : a ∈ c.turns m) :
    (c.moved ((c.turns m).idxOf a)).conn = some a := by
  have hlt := List.idxOf_lt_length_of_mem h
  have hget := List.getElem_idxOf hlt
  simp only [turns, List.getElem_map, List.getElem_range] at hget
  exact congrArg some hget

theorem length_turns (c : ClusterClient) (m : Nat) : (c.turns m).length = m := by
  rw [turns, List.length_map, List.length_range]

/-- After whole rounds a client is where it was. -/
theorem moved_rounds (h : c.Connected) (m : Nat) : c.moved (c.addrs.length * m) = c := by
  have hturn : c.turn (c.addrs.length * m) = c.turn 0 :=
    Fin.ext (Nat.add_mul_mod_self_left _ _ _)
  rw [moved, hturn]
  exact moved_zero h

theorem turns_add (c : ClusterClient) (m n : Nat) : ∃ more, c.turns (m + n) = c.turns m ++ more :=
  ⟨_, by rw [turns, List.range_add, List.map_append]; rfl⟩

theorem turns_subset {m : Nat} : ∀ a ∈ c.turns m, a ∈ c.addrs := by
  intro a ha
  obtain ⟨k, -, rfl⟩ := List.mem_map.mp ha
  exact List.get_mem _ _

end Turns

section Loops

variable {c : ClusterClient} {dials : String → Bool}

theorem advanceAndReconnect_eq (hdials : ∀ a ∈ c.addrs, dials a = true) :
    c.advanceAndReconnect dials = (c.moved 1, none) := by
  simp only [advanceAndReconnect, connectTo, hdials _ (List.get_mem _ _), if_true, moved]

theorem call_connected (h : c.Connected) (rpc : ω → String → ω × Except Code ρ) (w : ω) :
    c.call rpc w = rpc w (c.addrs.get c.idx) := by
  simp only [call, show c.conn = _ from h]

theorem call_keeps {I : ω → Prop} {rpc : ω → String → ω × Except Code ρ}
    (hrpc : ∀ w addr, I w → I (rpc w addr).1) {w : ω} (hw : I w) (c : ClusterClient) :
    I (c.call rpc w).1 := by
  unfold call
  split
  · exact hrpc w _ hw
  · exact hw

theorem verdict_ok {rpc : ω → String → ω × Except Code ρ} {w : ω} {a : String} {r : ρ}
    (h : (rpc w a).2 = .ok r) : verdict rpc w a = ((rpc w a).1, some (.ok r)) := by
  simp only [verdict, h]

theorem verdict_error {rpc : ω → String → ω × Except Code ρ} {w : ω} {a : String} {code : Code}
    (h : (rpc w a).2 = .error code) : verdict rpc w a =
      ((rpc w a).1, if rotates code then none else some (.error code)) := by
  simp only [verdict, h]

/-- An attempt at a coordinator that is gone past. -/
theorem attempt_passed {rpc : ω → String → ω × Except Code ρ} {w : ω} (hconn : c.Connected)
    (hdials : ∀ a ∈ c.addrs, dials a = true)
    (h : (verdict rpc w (c.addrs.get c.idx)).2 = none) :
    c.attempt dials rpc w = ((verdict rpc w (c.addrs.get c.idx)).1, c.moved 1, none) := by
  simp only [attempt, call_connected hconn, advanceAndReconnect_eq hdials]
  cases hanswer : (rpc w (c.addrs.get c.idx)).2 with
  | ok r =>
    rw [verdict_ok hanswer] at h
    cases h
  | error code =>
    rw [verdict_error hanswer] at h ⊢
    have hcode : rotates code = true := by
      by_contra hcode
      rw [if_neg hcode] at h
      cases h
    simp only [hcode, if_true, Option.map_none]

/-- An attempt at one that settles the matter. -/
theorem attempt_settled {rpc : ω → String → ω × Except Code ρ} {w : ω} (hconn : c.Connected)
    {answer : Except Code ρ} (h : (verdict rpc w (c.addrs.get c.idx)).2 = some answer) :
    c.attempt dials rpc w =
      ((verdict rpc w (c.addrs.get c.idx)).1, c, some (answer.mapError .rpc)) := by
  simp only [attempt, call_connected hconn]
  cases hanswer : (rpc w (c.addrs.get c.idx)).2 with
  | ok r =>
    rw [verdict_ok hanswer] at h ⊢
    cases h
    rfl
  | error code =>
    rw [verdict_error hanswer] at h ⊢
    cases hcode : rotates code with
    | true =>
      rw [if_pos hcode] at h
      cases h
    | false =>
      rw [hcode, if_neg Bool.false_ne_true] at h
      cases h
      simp only [hcode, Bool.false_eq_true, if_false, Except.mapError]

/-- The attempts ask the coordinators in turn, from the current one on. -/
theorem attempts_eq (rpc : ω → String → ω × Except Code ρ) (m : Nat) (w : ω)
    (hdials : ∀ a ∈ c.addrs, dials a = true) (hconn : c.Connected) :
    attempts dials rpc m w c = ((inTurn (verdict rpc) w (c.turns m)).1,
      c.moved (inTurn (verdict rpc) w (c.turns m)).2.1,
      (inTurn (verdict rpc) w (c.turns m)).2.2.map (Except.mapError .rpc)) := by
  induction m generalizing w c with
  | zero => rw [attempts, turns, List.range_zero, List.map_nil, inTurn, moved_zero hconn,
      Option.map_none]
  | succ m ih =>
    rw [turns_succ, attempts]
    cases hverdict : (verdict rpc w (c.addrs.get c.idx)).2 with
    | some answer =>
      simp only [attempt_settled hconn hverdict, inTurn_answered hverdict, moved_zero hconn,
        Option.map_some]
    | none =>
      have hrest := ih (c := c.moved 1) (verdict rpc w (c.addrs.get c.idx)).1 hdials rfl
      simp only [attempt_passed hconn hdials hverdict, inTurn_passed hverdict, hrest, moved_moved]

theorem attempt_keeps (dials : String → Bool) {I : ω → Prop}
    {rpc : ω → String → ω × Except Code ρ} (hrpc : ∀ w addr, I w → I (rpc w addr).1) {w : ω}
    (hw : I w) (c : ClusterClient) : I (c.attempt dials rpc w).1 := by
  have hcall := call_keeps hrpc hw c
  unfold attempt
  dsimp only
  split
  · exact hcall
  · split <;> exact hcall

theorem attempt_connected (rpc : ω → String → ω × Except Code ρ) (w : ω)
    (hdials : ∀ a ∈ c.addrs, dials a = true) (hconn : c.Connected) :
    (c.attempt dials rpc w).2.1.Connected := by
  unfold attempt
  dsimp only
  split
  · exact hconn
  · split
    · rw [advanceAndReconnect_eq hdials]
      exact moved_connected c 1
    · exact hconn

/-- An attempt that succeeds has had its answer from the coordinator that the client is, and stays,
connected to. -/
theorem attempt_answered {rpc : ω → String → ω × Except Code ρ} {w : ω} {r : ρ}
    (h : (c.attempt dials rpc w).2.2 = some (.ok r)) :
    ∃ addr, c.conn = some addr ∧ (rpc w addr).2 = .ok r ∧
      c.attempt dials rpc w = ((rpc w addr).1, c, some (.ok r)) := by
  unfold attempt at h ⊢
  dsimp only at h ⊢
  split at h
  · rename_i r' hr
    cases h
    unfold call at hr ⊢
    split at hr
    · rename_i addr hconn
      exact ⟨addr, hconn, hr, rfl⟩
    · cases hr
  · split at h
    · cases hnext : (c.advanceAndReconnect dials).2 with
      | none => simp [hnext] at h
      | some err => simp [hnext] at h
    · cases h

/-- Where a part of the world that no call reads is changed, the attempts are the same. -/
theorem attempt_frame (dials : String → Bool) {rpc : ω → String → ω × Except Code ρ} {f : ω → ω}
    (hf : ∀ w addr, rpc (f w) addr = (f (rpc w addr).1, (rpc w addr).2)) (w : ω)
    (c : ClusterClient) :
    c.attempt dials rpc (f w) = (f (c.attempt dials rpc w).1, (c.attempt dials rpc w).2) := by
  have hcall : c.call rpc (f w) = (f (c.call rpc w).1, (c.call rpc w).2) := by
    unfold call
    split
    · exact hf w _
    · rfl
  simp only [attempt, hcall]
  split
  · rfl
  · split <;> rfl

theorem attempts_frame (dials : String → Bool) {rpc : ω → String → ω × Except Code ρ} {f : ω → ω}
    (hf : ∀ w addr, rpc (f w) addr = (f (rpc w addr).1, (rpc w addr).2)) (m : Nat) (w : ω)
    (c : ClusterClient) :
    attempts dials rpc m (f w) c =
      (f (attempts dials rpc m w c).1, (attempts dials rpc m w c).2) := by
  induction m generalizing w c with
  | zero => rfl
  | succ m ih =>
    simp only [attempts, attempt_frame dials hf]
    split
    · rfl
    · exact ih _ _

end Loops

end ClusterClient

end LogEngine.Cluster
