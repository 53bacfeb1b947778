import IncrementalSyntax.Edit.Sequence
import IncrementalSyntax.Text.LineIndex
import IncrementalSyntax.Text.Quoted

/-!
Snapshots: the text of one version of a document, with the index of its lines. An editor's changes
lead from one snapshot to a later one. Each change is placed in the text that the changes before it
have left; the edits that come with the new snapshot are placed in the old text.
-/
namespace IncrementalSyntax

inductive ContentChange where
  /-- New text for the positions of a range. -/
  | within (range : PositionRange) (text : Text)
  /-- New text for the whole document. -/
  | whole (text : Text)
  deriving DecidableEq, Repr

/-- The edit that a change makes in a text with the given index, if it changes anything. A change
of the whole text is narrowed to what differs. -/
def ContentChange.edit? (text : Text) (index : LineIndex) :
    ContentChange → Except Failure (Option TextEdit)
  | within range new => do
    let start ← index.offsetUtf16 range.start
    let stop ← index.offsetUtf16 range.stop
    if h : start ≤ stop then return some ⟨⟨start, stop, h⟩, new⟩
    else throw (.refused (.invertedRange start stop))
  | whole new => return TextEdit.diff text new

structure Snapshot where
  id : SnapshotId
  uri : String
  text : Text
  lineIndex : LineIndex
  deriving DecidableEq, Repr

namespace Snapshot

def ofText (id : SnapshotId) (uri : String) (text : Text) : Snapshot :=
  ⟨id, uri, text, .ofText text⟩

/-- The text and the index after changes, and the edits made, each placed in the text before it. -/
def runChanges (text : Text) (index : LineIndex) :
    List ContentChange → Except Failure (Text × LineIndex × List TextEdit)
  | [] => return (text, index, [])
  | c :: cs => do
    match ← c.edit? text index with
    | none => runChanges text index cs
    | some e =>
      let next ← Failure.ofFault (e.splice text)
      let (last, lastIndex, es) ← runChanges next (.ofText next) cs
      return (last, lastIndex, e :: es)

/-- The snapshot after changes, and the edits that lead to it. The version must be later. -/
def applyChanges (s : Snapshot) (version : Int) (changes : List ContentChange) :
    Except Failure (Snapshot × EditSet) :=
  if version ≤ s.id.version then
    .error (.refused (.staleVersion s.id.document s.id.version version))
  else do
    let (text, index, edits) ← runChanges s.text s.lineIndex changes
    let set ← Failure.ofRefusal (EditSet.ofSequence edits)
    return (⟨⟨s.id.document, version⟩, s.uri, text, index⟩, set)

def describe (s : Snapshot) : String :=
  s!"DocumentSnapshot \x7b id: {s.id.describe}, uri: {quoted s.uri}, len: {s.text.size} \x7d"

end Snapshot

end IncrementalSyntax
