import IncrementalSyntax.Document.Registry
import IncrementalSyntax.Document.Snapshot

/-!
Open documents. The store keeps the latest snapshot of every open document. A document that is
closed and opened again has the same number as before. Changing and closing give no new store if
they are refused; opening does, as it enters the URI before it looks whether the document is open.
-/
namespace IncrementalSyntax

/-- The URIs ever opened, and the latest snapshot of each document that is open now. -/
structure Store where
  registry : Registry
  latest : List Snapshot
  deriving DecidableEq, Repr

/-- A change to a document: the snapshots before and after it and the edits between them. -/
structure EditedDocument where
  before : Snapshot
  after : Snapshot
  edits : EditSet
  deriving DecidableEq, Repr

inductive StoreCall where
  | openDocument (uri : String) (version : Int) (text : Text)
  | change (uri : String) (version : Int) (changes : List ContentChange)
  | close (uri : String)
  | latest (uri : String)
  | documentId (uri : String)
  deriving DecidableEq, Repr

def StoreCall.uri : StoreCall → String
  | openDocument uri _ _ | change uri _ _ | close uri | latest uri | documentId uri => uri

inductive StoreAnswer where
  | snapshot (snapshot : Option Snapshot)
  | edited (document : EditedDocument)
  | document (document : DocumentId)
  deriving DecidableEq, Repr

namespace Store

def empty : Store := ⟨.empty, []⟩

def snapshotOf? (s : Store) (d : DocumentId) : Option Snapshot :=
  s.latest.find? fun snapshot => snapshot.id.document = d

def others (s : Store) (d : DocumentId) : List Snapshot :=
  s.latest.filter fun snapshot => snapshot.id.document ≠ d

def documentId (s : Store) (uri : String) : Except Error DocumentId :=
  match s.registry.get? uri with
  | some d => .ok d
  | none => .error (.documentNotOpen uri)

def latest? (s : Store) (uri : String) : Option Snapshot := do
  s.snapshotOf? (← s.registry.get? uri)

/-- The latest snapshot of a URI's document, which must be open. -/
def current (s : Store) (uri : String) : Except Error Snapshot := do
  let d ← s.documentId uri
  match s.snapshotOf? d with
  | some snapshot => .ok snapshot
  | none => .error (.documentNotOpen uri)

/-- Opens a document, which must not be open. The URI is entered first, and stays entered if the
document turns out to be open. -/
def openDocument (s : Store) (uri : String) (version : Int) (text : Text) :
    Except Error Snapshot × Store :=
  let (d, registry) := s.registry.intern uri
  match s.snapshotOf? d with
  | some _ => (.error (.documentAlreadyOpen uri), { s with registry })
  | none =>
    let snapshot := Snapshot.ofText ⟨d, version⟩ uri text
    (.ok snapshot, ⟨registry, s.latest ++ [snapshot]⟩)

def change (s : Store) (uri : String) (version : Int) (changes : List ContentChange) :
    Except Failure (EditedDocument × Store) := do
  let before ← Failure.ofRefusal (s.current uri)
  let (after, edits) ← before.applyChanges version changes
  return (⟨before, after, edits⟩, { s with latest := s.others before.id.document ++ [after] })

def close (s : Store) (uri : String) : Except Error (DocumentId × Store) := do
  let snapshot ← s.current uri
  let d := snapshot.id.document
  return (d, { s with latest := s.others d })

def size (s : Store) : Nat := s.latest.length

def isEmpty (s : Store) : Bool := s.latest.isEmpty

def answer (s : Store) : StoreCall → Except Failure StoreAnswer × Store
  | .openDocument uri version text =>
    match s.openDocument uri version text with
    | (.ok snapshot, next) => (.ok (.snapshot snapshot), next)
    | (.error e, next) => (.error (.refused e), next)
  | .change uri version changes =>
    match s.change uri version changes with
    | .ok (edited, next) => (.ok (.edited edited), next)
    | .error f => (.error f, s)
  | .close uri =>
    match s.close uri with
    | .ok (d, next) => (.ok (.document d), next)
    | .error e => (.error (.refused e), s)
  | .latest uri => (.ok (.snapshot (s.latest? uri)), s)
  | .documentId uri => ((Failure.ofRefusal (s.documentId uri)).map .document, s)

end Store

end IncrementalSyntax
