import IncrementalSyntax.Service.Computation
import IncrementalSyntax.Syntax.Parse

/-!
Parsers as a service uses them. A call may fail, and may change the state of the parser; what is
known of one is only its two calls. The parser of this library does neither, and a parser that is
told to fail its next call stands for one that does.
-/
namespace IncrementalSyntax

/-- A parser with a state of type `σ`. No result means that the call failed. -/
structure Parser (σ : Type) where
  /-- Parses a text from scratch. -/
  full : Text → σ → Option SyntaxTree × σ
  /-- Parses a text that edits have made from the text of an older tree, and reports what it took
  over from that tree. -/
  incremental : Text → SyntaxTree → EditSet → σ → Option (SyntaxTree × List Reused) × σ

namespace Parser

/-- The parser of this library; it never fails. -/
def standard : Parser Unit where
  full text state := (some (parse text), state)
  incremental text prior edits state := (some (reparse text prior edits), state)

structure PlannedFailures where
  full : Bool
  incremental : Bool
  deriving DecidableEq, Repr

/-- Has the next call of a kind fail. -/
def PlannedFailures.plan (state : PlannedFailures) : ParseKind → PlannedFailures
  | .full => { state with full := true }
  | .incremental => { state with incremental := true }

/-- The parser of this library, except that a call that is to fail does so, once. -/
def failing : Parser PlannedFailures where
  full text state :=
    if state.full then (none, { state with full := false }) else (some (parse text), state)
  incremental text prior edits state :=
    if state.incremental then (none, { state with incremental := false })
    else (some (reparse text prior edits), state)

end Parser

end IncrementalSyntax
