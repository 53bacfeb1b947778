import IncrementalSyntax.Cache.Recency
import IncrementalSyntax.Document.Id

/-!
A cache by snapshot. An entry for a snapshot takes the place of all entries for the same or older
versions of its document; entries of different documents only compete for room.
-/
namespace IncrementalSyntax

structure VersionedCache (α : Type) where
  entries : RecencyCache SnapshotId α
  deriving Repr

namespace VersionedCache

variable {α : Type}

def empty (capacity : Nat) : VersionedCache α := ⟨.empty capacity⟩

def create (capacity : Nat) : Except Fault (VersionedCache α) :=
  (RecencyCache.create capacity).map (⟨·⟩)

theorem create_eq_ok_iff {capacity : Nat} {c : VersionedCache α} :
    create capacity = .ok c ↔
      capacity ≤ RecencyCache.greatestCapacity ∧ empty capacity = c := by
  cases h : (RecencyCache.create capacity : Except Fault (RecencyCache SnapshotId α)) with
  | ok entries =>
    obtain ⟨fits, rfl⟩ := RecencyCache.create_eq_ok_iff.1 h
    simp [create, h, Except.map, fits, empty]
  | error e =>
    have unfit : ¬ capacity ≤ RecencyCache.greatestCapacity := fun fits => by
      simp [RecencyCache.create_eq_ok_iff.2 ⟨fits, rfl⟩] at h
    simp [create, h, Except.map, unfit]

def get? (c : VersionedCache α) (key : SnapshotId) : Option α × VersionedCache α :=
  let (a, entries) := c.entries.get? key
  (a, ⟨entries⟩)

/-- Enters a value for a snapshot. The entries that it supersedes leave first, and only then, if
there is still no room, the least recent one. -/
def insert (c : VersionedCache α) (key : SnapshotId) (a : α) : VersionedCache α :=
  let (_, current) := c.entries.eraseAll fun k => k.isSupersededBy key
  ⟨(current.insert key a).2⟩

def eraseAll (c : VersionedCache α) (p : SnapshotId → Bool) : Nat × VersionedCache α :=
  let (n, entries) := c.entries.eraseAll p
  (n, ⟨entries⟩)

def eraseDocument (c : VersionedCache α) (d : DocumentId) : Nat × VersionedCache α :=
  c.eraseAll fun k => k.document = d

/-- Whether there is an entry for a later version of the snapshot's document. -/
def hasNewer (c : VersionedCache α) (key : SnapshotId) : Bool :=
  c.entries.keys.any fun k => key.precedes k

def contains (c : VersionedCache α) (key : SnapshotId) : Bool := c.entries.contains key

def keys (c : VersionedCache α) : List SnapshotId := c.entries.keys

def size (c : VersionedCache α) : Nat := c.entries.size

def isEmpty (c : VersionedCache α) : Bool := c.entries.isEmpty

def capacity (c : VersionedCache α) : Nat := c.entries.capacity

def describe (c : VersionedCache α) (value : α → String) : String :=
  let entry (e : SnapshotId × α) : String := e.1.describe ++ ": " ++ value e.2
  let list := ", ".intercalate (c.entries.entries.map entry)
  s!"IncrementalParseCache \x7b entries: LruCache \x7b entries: \x7b{list}\x7d, " ++
    s!"capacity: {c.capacity} \x7d \x7d"

end VersionedCache

end IncrementalSyntax
