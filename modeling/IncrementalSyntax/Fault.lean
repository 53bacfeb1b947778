/-!
Faults: conditions that no caller is meant to meet. They are kept apart from the errors that a
caller can act on, so that "this never faults" is a statement about results.
-/
namespace IncrementalSyntax

/-- A broken internal condition, which ends the operation that met it. -/
inductive Fault where
  /-- A sum beyond the greatest 32-bit offset. -/
  | overflow
  /-- A difference below zero. -/
  | underflow
  /-- A place in a table that the table does not have. -/
  | missing
  /-- A range whose end comes before its start. -/
  | inverted
  /-- A cut that is outside the text or inside a character. -/
  | cut
  /-- Room for more entries than a table can have. -/
  | room
  /-- Work done so far that is not as it is asserted to be. -/
  | broken
  deriving DecidableEq, Repr

end IncrementalSyntax
