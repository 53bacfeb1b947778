import IncrementalSyntax.Fault

/-!
Offsets are byte counts that fit 32 bits. Sums and differences of offsets are checked: one that
leaves the range of offsets is a fault, never a wrapped number.
-/
namespace IncrementalSyntax

abbrev Offset := Nat

namespace Offset

def greatest : Offset := 4294967295

def add (a b : Offset) : Except Fault Offset :=
  if a + b ≤ greatest then .ok (a + b) else .error .overflow

def sub (a b : Offset) : Except Fault Offset :=
  if b ≤ a then .ok (a - b) else .error .underflow

/-- Sum of two offsets, stopped at the greatest one. -/
def addUpTo (a b : Offset) : Offset := min (a + b) greatest

/-- The lowest 32 bits of a number, where nothing checks that it is an offset. -/
def wrap (n : Nat) : Offset := n % (greatest + 1)

theorem add_eq_ok {a b : Offset} (h : a + b ≤ greatest) : add a b = .ok (a + b) := if_pos h

theorem sub_eq_ok {a b : Offset} (h : b ≤ a) : sub a b = .ok (a - b) := if_pos h

theorem sub_eq_of_add {a b c : Nat} (h : a + b = c) : sub c b = .ok a := by
  subst h
  rw [sub_eq_ok (Nat.le_add_left _ _), Nat.add_sub_cancel]

end Offset

end IncrementalSyntax
