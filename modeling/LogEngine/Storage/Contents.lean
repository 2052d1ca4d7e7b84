import LogEngine.Storage.Frame
import LogEngine.Storage.Names

namespace LogEngine.Storage
open Lib

variable {B : BloomPackage} (P : ProtoPackage)

/-- The entries that a file reads as, none when it is missing or cannot be read. -/
def entriesAt (d : Disk) (path : String) : List LogEntry :=
  match readSegment P d path with
  | .error _ => []
  | .ok entries => entries

/-- Every segment file of the directory can be read, and what it reads as can be written. -/
structure Readable (d : Disk) : Prop where
  decodes : ∀ p bs, IsSeg p → d.files.get p = some bs → ∃ es, decodeSegment P bs = .ok es
  fits : ∀ p, IsSeg p → ∀ e ∈ entriesAt P d p, Fits P e

variable {P}

theorem entriesAt_some {d : Disk} {p : String} {bs : Bytes} {es : List LogEntry}
    (hp : d.files.get p = some bs) (hbs : decodeSegment P bs = .ok es) : entriesAt P d p = es := by
  simp [entriesAt, readSegment, hp, hbs]

theorem entriesAt_none {d : Disk} {p : String} (hp : d.files.get p = none) :
    entriesAt P d p = [] := by
  simp [entriesAt, readSegment, hp]

theorem entriesAt_congr {d d' : Disk} {p : String} (h : d'.files.get p = d.files.get p) :
    entriesAt P d' p = entriesAt P d p := by
  simp [entriesAt, readSegment, h]

theorem readSegments_congr {d d' : Disk} {paths : List String}
    (h : ∀ p ∈ paths, d'.files.get p = d.files.get p) :
    readSegments P d' paths = readSegments P d paths := by
  induction paths with
  | nil => rfl
  | cons p paths ih =>
    obtain ⟨hp, hpaths⟩ := List.forall_mem_cons.mp h
    simp only [readSegments, readSegment, hp, ih hpaths]

/-- Reading readable segments gives the entries of each of them in turn. -/
theorem readSegments_eq {d : Disk} (h : Readable P d) {paths : List String}
    (hseg : ∀ p ∈ paths, IsSeg p) :
    readSegments P d paths = .ok (paths.flatMap (entriesAt P d)) := by
  induction paths with
  | nil => rfl
  | cons p paths ih =>
    have htail := ih (fun q hq => hseg q (List.mem_cons_of_mem _ hq))
    rw [readSegments, List.flatMap_cons]
    cases hp : d.files.get p with
    | none => simp [readSegment, hp, htail, entriesAt_none hp]
    | some bs =>
      obtain ⟨es, hes⟩ := h.decodes p bs (hseg p List.mem_cons_self) hp
      simp [readSegment, hp, hes, htail, entriesAt_some hp hes, Except.map]

theorem readSegments_single {d : Disk} (h : Readable P d) {p : String} (hp : IsSeg p) :
    readSegments P d [p] = .ok (entriesAt P d p) := by
  rw [readSegments_eq h (by simpa using hp)]
  simp

end LogEngine.Storage
