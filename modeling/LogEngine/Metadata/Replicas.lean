import LogEngine.Metadata.Registry
import LogEngine.Metadata.Json

namespace LogEngine.Metadata
open Lib

variable (J : JsonPackage)

/-- A coordinator that applies entries of the log, with the answers it gives. `o i` are the orders
of its loops at the `i`-th entry. -/
def applyLog (o : Nat → Orders) (s : ClusterState) :
    List Bytes → ClusterState × List (Option ApplyError)
  | [] => (s, [])
  | data :: log =>
    let first := apply J (o 0) s data
    let rest := applyLog (fun i => o (i + 1)) first.1 log
    (rest.1, first.2 :: rest.2)

namespace Registry

/-- An entry of the log as the membership sees it. -/
def apply (r : Registry) (data : Bytes) : Registry × Option ApplyError :=
  match decodeOp J data with
  | .error err => (r, some err)
  | .ok op => r.step op

def applyLog (r : Registry) : List Bytes → Registry × List (Option ApplyError)
  | [] => (r, [])
  | data :: log =>
    let rest := ((r.apply J data).1).applyLog log
    (rest.1, (r.apply J data).2 :: rest.2)

theorem applyLog_take (r : Registry) (log : List Bytes) (k : Nat) :
    (r.applyLog J (log.take k)).2 = (r.applyLog J log).2.take k := by
  induction log generalizing r k with
  | nil => simp [applyLog]
  | cons data log ih =>
    cases k with
    | zero => rfl
    | succ k => simp [applyLog, ih]

theorem applyLog_drop (r : Registry) (log : List Bytes) (k : Nat) :
    (r.applyLog J (log.take k)).1.applyLog J (log.drop k) =
      ((r.applyLog J log).1, (r.applyLog J log).2.drop k) := by
  induction log generalizing r k with
  | nil => simp [applyLog]
  | cons data log ih =>
    cases k with
    | zero => rfl
    | succ k => simp [applyLog, ih]

end Registry

variable {J}

theorem Represents.apply {T : Int} {s : ClusterState} {r : Registry} (h : Represents T s r)
    (o : Orders) (data : Bytes) : Represents T (apply J o s data).1 (r.apply J data).1 ∧
      (apply J o s data).2 = (r.apply J data).2 := by
  unfold Metadata.apply Registry.apply
  cases decodeOp J data with
  | error err => exact ⟨h, rfl⟩
  | ok op => exact h.applyOp o op

/-- Over a whole log the state and the answers are functions of the membership at its start. -/
theorem Represents.applyLog {T : Int} {s : ClusterState} {r : Registry} (h : Represents T s r)
    (o : Nat → Orders) (log : List Bytes) :
    Represents T (applyLog J o s log).1 (r.applyLog J log).1 ∧
      (applyLog J o s log).2 = (r.applyLog J log).2 := by
  induction log generalizing s r o with
  | nil => exact ⟨h, rfl⟩
  | cons data log ih =>
    obtain ⟨hstep, hanswer⟩ := h.apply (J := J) (o 0) data
    obtain ⟨hrest, hanswers⟩ := ih hstep (fun i => o (i + 1))
    exact ⟨hrest, by simp only [Metadata.applyLog, Registry.applyLog, hanswer, hanswers]⟩

/-- A snapshot restored anywhere stands for the membership it was taken at. -/
theorem restore_represents (hJ : J.KeepsStates) {T : Int} {s : ClusterState} {r : Registry}
    (h : Represents T s r) (nodes : Order String) (shards : Order Int) (old : ClusterState) :
    Represents T (restore J old (persist J nodes shards s)).1 r ∧
      (restore J old (persist J nodes shards s)).2 = none := by
  have hclone := ClusterState.clone_same s nodes shards
  obtain ⟨t, ht, hsame⟩ := hJ T (s.clone nodes shards) (h.congr hclone).canonical
  simp only [restore, persist, ht, and_true]
  exact h.congr (hsame.trans hclone)

/-- A coordinator that applies the whole log and one that starts from a snapshot of another
coordinator end in the same state and have answered alike. -/
theorem replicas_agree (hJ : J.KeepsStates) (T : Int) (log : List Bytes) (k : Nat)
    (whole taker resumed : Nat → Orders) (nodes : Order String) (shards : Order Int)
    (old : ClusterState) :
    let all := applyLog J whole (newFSM T) log
    let taken := applyLog J taker (newFSM T) (log.take k)
    let restored := restore J old (persist J nodes shards taken.1)
    let rest := applyLog J resumed restored.1 (log.drop k)
    restored.2 = none ∧ rest.1.Same all.1 ∧ taken.2 = all.2.take k ∧ rest.2 = all.2.drop k := by
  intro all taken restored rest
  obtain ⟨hall, hanswers⟩ := (newFSM_represents T).applyLog (J := J) whole log
  obtain ⟨htaken, htakenAnswers⟩ := (newFSM_represents T).applyLog (J := J) taker (log.take k)
  obtain ⟨hrestored, hok⟩ := restore_represents hJ htaken nodes shards old
  obtain ⟨hrest, hrestAnswers⟩ := hrestored.applyLog (J := J) resumed (log.drop k)
  rw [Registry.applyLog_drop] at hrest hrestAnswers
  refine ⟨hok, hrest.same hall, ?_, ?_⟩
  · rw [htakenAnswers, hanswers, Registry.applyLog_take]
  · rw [hrestAnswers, hanswers]

/-- Two registrations, a text that is no command, a failure and a heartbeat of a node that nobody
knows. -/
def mixedLog : List Bytes :=
  [encodeOp wireCodec (.registerNode ⟨"b", "host-b", 1⟩), [255],
    encodeOp wireCodec (.registerNode ⟨"a", "host-a", 2⟩),
    encodeOp wireCodec (.markUnhealthy ⟨"b"⟩), encodeOp wireCodec (.updateHeartbeat ⟨"c", 3⟩)]

theorem replicas_agree_mixed :
    let all := applyLog wireCodec (fun _ => .listed) (newFSM 4) mixedLog
    let taken := applyLog wireCodec (fun _ => .reversed) (newFSM 4) (mixedLog.take 3)
    let restored := restore wireCodec (newFSM 0) (persist wireCodec .reversed .reversed taken.1)
    let rest := applyLog wireCodec (fun _ => .reversed) restored.1 (mixedLog.drop 3)
    rest.1.Same all.1 ∧ rest.2 = [none, some (.nodeNotFound "c")] ∧ all.2.drop 3 = rest.2 := by
  intro all taken restored rest
  obtain ⟨-, hsame, -, hrest⟩ := replicas_agree wireCodec_keepsStates 4 mixedLog 3
    (fun _ => .listed) (fun _ => .reversed) (fun _ => .reversed) .reversed .reversed (newFSM 0)
  refine ⟨hsame, ?_, hrest.symm⟩
  decide +kernel

end LogEngine.Metadata
