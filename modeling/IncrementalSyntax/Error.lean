import IncrementalSyntax.Document.Id
import IncrementalSyntax.Fault

/-!
What a caller can be told. Reading a text never fails; positions, edits, versions and parse tasks
can. `Error` lists the causes and `Error.message` their wording. A `Failure` is an operation that
gave no result, either because it refused with an error or because it met a fault.
-/
namespace IncrementalSyntax

inductive TaskFailure where
  /-- The parser gave up on the text. -/
  | crashed
  /-- The task was never run. -/
  | cancelled
  deriving DecidableEq, Repr

def TaskFailure.reason : TaskFailure → String
  | crashed => "parser panicked"
  | cancelled => "task cancelled"

inductive Error where
  /-- A position on a line that the text does not have. -/
  | positionOutOfBounds (line character : Nat)
  /-- A position between the two units of one character. -/
  | splitSurrogatePair (line character : Nat)
  /-- A range whose end comes before its start. -/
  | invertedRange (start stop : Nat)
  /-- An edit that reaches past the end of its text or cuts a character. -/
  | editOutOfBounds (start stop size : Nat)
  /-- Two edits of the same bytes. -/
  | overlappingEdits (start stop : Nat)
  | documentNotOpen (uri : String)
  | documentAlreadyOpen (uri : String)
  /-- A change to a version that is not after the current one. -/
  | staleVersion (document : DocumentId) (current new : Int)
  /-- An edit that leads from one document to another. -/
  | documentMismatch (before after : DocumentId)
  /-- An edit that does not lead to a later version. -/
  | outOfOrderEdit (before after : SnapshotId)
  | parseTaskFailed (snapshot : SnapshotId) (cause : TaskFailure)
  deriving DecidableEq, Repr

def Error.message : Error → String
  | positionOutOfBounds line character => s!"position {line}:{character} is out of bounds"
  | splitSurrogatePair line character => s!"position {line}:{character} splits a surrogate pair"
  | invertedRange start stop => s!"range end {stop} precedes start {start}"
  | editOutOfBounds start stop size =>
    s!"edit {start}..{stop} does not fit text of length {size}"
  | overlappingEdits start stop => s!"edits overlap at {start}..{stop}"
  | documentNotOpen uri => s!"document `{uri}` is not open"
  | documentAlreadyOpen uri => s!"document `{uri}` is already open"
  | staleVersion document current new =>
    s!"version {new} of {document.display} does not follow version {current}"
  | documentMismatch before after =>
    s!"edit based on {before.display} cannot produce {after.display}"
  | outOfOrderEdit before after =>
    s!"edit from {before.display} to {after.display} is out of order"
  | parseTaskFailed snapshot cause =>
    s!"parse task for {snapshot.display} failed: {cause.reason}"

inductive Failure where
  | refused (error : Error)
  | fault (fault : Fault)
  deriving DecidableEq, Repr

namespace Failure

/-- A result that can only be refused, among results that can also meet a fault. -/
def ofRefusal {α : Type} : Except Error α → Except Failure α
  | .ok a => .ok a
  | .error e => .error (.refused e)

/-- A result that can only meet a fault, among results that can also be refused. -/
def ofFault {α : Type} : Except Fault α → Except Failure α
  | .ok a => .ok a
  | .error f => .error (.fault f)

@[simp] theorem ofRefusal_ok {α : Type} (a : α) : ofRefusal (.ok a) = .ok a := rfl
@[simp] theorem ofRefusal_error {α : Type} (e : Error) :
    ofRefusal (.error e : Except Error α) = .error (.refused e) := rfl
@[simp] theorem ofFault_ok {α : Type} (a : α) : ofFault (.ok a) = .ok a := rfl
@[simp] theorem ofFault_error {α : Type} (f : Fault) :
    ofFault (.error f : Except Fault α) = .error (.fault f) := rfl

end Failure

end IncrementalSyntax
