import IncrementalSyntax.Error
import IncrementalSyntax.Syntax.Source

/-!
Computations: parses that have been started. Whoever asks for the same computation gets the same
result. A computation counts as complete once somebody has waited for its result, so the result
and whether it is known are two things; the service keeps track of the second.
-/
namespace IncrementalSyntax

inductive ParseKind where
  | full
  | incremental
  deriving DecidableEq, Repr

def ParseKind.name : ParseKind → String
  | full => "Full"
  | incremental => "Incremental"

structure Computation where
  /-- Tells computations apart. -/
  ticket : Nat
  snapshot : SnapshotId
  kind : ParseKind
  result : Except Error SyntaxTree
  deriving Repr

def Computation.describe (c : Computation) (complete : Bool) : String :=
  s!"ParseComputation \x7b snapshot: {c.snapshot.describe}, kind: {c.kind.name}, " ++
    s!"complete: {complete} \x7d"

end IncrementalSyntax
