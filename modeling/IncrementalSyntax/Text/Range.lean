import IncrementalSyntax.Text.Basic

/-!
Ranges of bytes. A range never ends before it starts: that is part of its type, and the one way to
build a range from two unrelated offsets, `TextRange.between`, checks it.
-/
namespace IncrementalSyntax

/-- The bytes from `start` up to, and without, `stop`. -/
structure TextRange where
  start : Nat
  stop : Nat
  start_le_stop : start ≤ stop := by omega
  deriving DecidableEq, Repr

namespace TextRange

/-- The range between two offsets; a fault if the second comes before the first. -/
def between (start stop : Nat) : Except Fault TextRange :=
  if h : start ≤ stop then .ok ⟨start, stop, h⟩ else .error .inverted

def sized (start size : Nat) : TextRange := ⟨start, start + size, Nat.le_add_right _ _⟩

def empty (offset : Nat) : TextRange := ⟨offset, offset, Nat.le_refl _⟩

def size (r : TextRange) : Nat := r.stop - r.start

@[simp] theorem sized_start (start size : Nat) : (sized start size).start = start := rfl
@[simp] theorem sized_stop (start size : Nat) : (sized start size).stop = start + size := rfl
@[simp] theorem empty_start (offset : Nat) : (empty offset).start = offset := rfl
@[simp] theorem empty_stop (offset : Nat) : (empty offset).stop = offset := rfl

theorem ext_iff {r s : TextRange} : r = s ↔ r.start = s.start ∧ r.stop = s.stop := by
  cases r; cases s; simp

def render (r : TextRange) : String := s!"{r.start}..{r.stop}"

end TextRange

end IncrementalSyntax
