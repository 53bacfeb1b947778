import IncrementalSyntax.Fault

/-!
Maps of bounded size. The entries stand in the order of their last use, least recent first. Reading
or writing an entry makes it the most recent one, and a new entry pushes out the least recent if
the map is full. The room for all entries is taken when a map is made, so a map that asks for more
of it than memory has addresses is not made.
-/
namespace IncrementalSyntax

/-- A map that holds at most `capacity` entries, from the least to the most recently used. -/
structure RecencyCache (κ α : Type) where
  entries : List (κ × α)
  capacity : Nat
  deriving Repr

namespace RecencyCache

variable {κ α : Type}

/-- The empty map; it has room for one entry at least. -/
def empty (capacity : Nat) : RecencyCache κ α := ⟨[], max capacity 1⟩

/-- The most entries that a map can have room for. They stand in a table of `2 ^ 59` places, of
which seven in eight are used. A place takes nine bytes, and twice as many places would take more
than the `2 ^ 63 - 1` bytes of an address space. -/
def greatestCapacity : Nat := 0x700000000000000

def create (capacity : Nat) : Except Fault (RecencyCache κ α) :=
  if max capacity 1 ≤ greatestCapacity then .ok (empty capacity) else .error .room

/-- A map is made exactly if it is not asked for too many entries, and then it is empty. -/
theorem create_eq_ok_iff {capacity : Nat} {c : RecencyCache κ α} :
    create capacity = .ok c ↔ capacity ≤ greatestCapacity ∧ empty capacity = c := by
  have least : 1 ≤ greatestCapacity := by decide
  by_cases h : capacity ≤ greatestCapacity
  · rw [create, if_pos (Nat.max_le.2 ⟨h, least⟩)]
    simp [h]
  · rw [create, if_neg fun fits => h (Nat.max_le.1 fits).1]
    simp [h]

variable [DecidableEq κ]

def without (c : RecencyCache κ α) (k : κ) : List (κ × α) := c.entries.filter fun e => e.1 ≠ k

def peek? (c : RecencyCache κ α) (k : κ) : Option α := c.entries.lookup k

/-- The value of a key, which becomes the most recent one. -/
def get? (c : RecencyCache κ α) (k : κ) : Option α × RecencyCache κ α :=
  match c.peek? k with
  | some a => (some a, { c with entries := c.without k ++ [(k, a)] })
  | none => (none, c)

/-- Makes `a` the value of a key and the key the most recent one. The least recent of the other
entries leave as far as there is no room for them; they are returned, least recent first. -/
def insert (c : RecencyCache κ α) (k : κ) (a : α) : List (κ × α) × RecencyCache κ α :=
  let others := c.without k
  let excess := others.length + 1 - c.capacity
  (others.take excess, { c with entries := others.drop excess ++ [(k, a)] })

def eraseAll (c : RecencyCache κ α) (p : κ → Bool) : Nat × RecencyCache κ α :=
  let kept := c.entries.filter fun e => !p e.1
  (c.entries.length - kept.length, { c with entries := kept })

def contains (c : RecencyCache κ α) (k : κ) : Bool := (c.peek? k).isSome

def keys (c : RecencyCache κ α) : List κ := c.entries.map Prod.fst

def size (c : RecencyCache κ α) : Nat := c.entries.length

def isEmpty (c : RecencyCache κ α) : Bool := c.entries.isEmpty

end RecencyCache

end IncrementalSyntax
