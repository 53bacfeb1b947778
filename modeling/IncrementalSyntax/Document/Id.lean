/-!
Identity of documents and of their versions. A document is a number, handed out once per URI; a
snapshot is one version of one document. Versions of one document are ordered, versions of
different documents are not, so the comparison of two snapshots may have no answer.
-/
namespace IncrementalSyntax

structure DocumentId where
  index : Nat
  deriving DecidableEq, Repr

def DocumentId.display (d : DocumentId) : String := s!"doc#{d.index}"

def DocumentId.describe (d : DocumentId) : String := s!"DocumentId({d.index})"

/-- One version of one document. -/
structure SnapshotId where
  document : DocumentId
  version : Int
  deriving DecidableEq, Repr

namespace SnapshotId

def compareVersion (a b : SnapshotId) : Option Ordering :=
  if a.document = b.document then some (compare a.version b.version) else none

def precedes (a b : SnapshotId) : Bool := a.compareVersion b = some .lt

/-- Whether a tree kept for `a` is out of date once there is one for `b`: same document, and a
version that is not after that of `b`. -/
def isSupersededBy (a b : SnapshotId) : Bool :=
  a.compareVersion b = some .lt || a.compareVersion b = some .eq

theorem precedes_iff {a b : SnapshotId} :
    a.precedes b = true ↔ a.document = b.document ∧ a.version < b.version := by
  unfold precedes compareVersion
  split <;> simp_all [Int.compare_eq_lt]

theorem isSupersededBy_iff {a b : SnapshotId} :
    a.isSupersededBy b = true ↔ a.document = b.document ∧ a.version ≤ b.version := by
  unfold isSupersededBy compareVersion
  split
  next h =>
    simp [h, Int.compare_eq_lt]
    omega
  next h => simp [h]

def display (s : SnapshotId) : String := s!"{s.document.display}@v{s.version}"

def describe (s : SnapshotId) : String := s!"SnapshotId({s.display})"

/-- Snapshots in the order of their documents and, within one, of their versions. -/
def listedBefore (a b : SnapshotId) : Bool :=
  a.document.index < b.document.index ||
    (a.document.index = b.document.index && a.version ≤ b.version)

end SnapshotId

end IncrementalSyntax
