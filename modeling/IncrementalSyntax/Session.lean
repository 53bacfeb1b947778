import IncrementalSyntax.Document.Store
import IncrementalSyntax.Service.Basic

/-!
Sessions: a store and a service used together, step by step. Snapshots, edit sets and computations
that a step gives can be kept under names for later steps. Every step is answered with its outcome
and with what can be seen of the session after it, and the steps after one that fails go on.
-/
namespace IncrementalSyntax

structure Slots (α : Type) where
  entries : List (String × α)
  deriving Repr

namespace Slots

variable {α : Type}

def empty : Slots α := ⟨[]⟩

def get? (s : Slots α) (name : String) : Option α := s.entries.lookup name

/-- Keeps a value under a name, in place of the one that was there. -/
def put (s : Slots α) (name : String) (a : α) : Slots α :=
  ⟨(name, a) :: s.entries.filter fun e => e.1 ≠ name⟩

def put? (s : Slots α) (name : Option String) (a : α) : Slots α :=
  match name with
  | some name => s.put name a
  | none => s

def values (s : Slots α) : List α := s.entries.map Prod.snd

end Slots

/-- A store, a service on a parser that can be told to fail, and what is kept under names. -/
structure Session where
  store : Store
  service : Service Parser.PlannedFailures
  snapshots : Slots Snapshot
  editSets : Slots EditSet
  computations : Slots Computation
  deriving Repr

/-- Where the edits of a registration come from. -/
inductive EditSource where
  /-- Edits kept under a name. -/
  | kept (name : String)
  /-- Edits given on the spot, which may have failed to make a set. -/
  | given (edits : Except Failure EditSet)
  deriving Repr

/-- What a session can be asked to do; `slot` is the name to keep the outcome under. -/
inductive Step where
  | openDocument (uri : String) (version : Int) (text : Text) (slot : Option String)
  | change (uri : String) (version : Int) (changes : List ContentChange) (slot : Option String)
  | close (uri : String)
  | latest (uri : String) (slot : Option String)
  | documentId (uri : String)
  | storeIsEmpty
  /-- Makes a snapshot that the store knows nothing of. -/
  | snapshot (id : SnapshotId) (uri : String) (text : Text) (slot : Option String)
  /-- Changes a kept snapshot, outside the store. -/
  | apply (source : String) (version : Int) (changes : List ContentChange) (slot : Option String)
  | tree (snapshot : String)
  | compute (snapshot : String) (slot : String)
  | inspect (computation : String)
  | await (computation : String)
  | register (before after : String) (edits : EditSource)
  | clear (document : DocumentId)
  | isCached (id : SnapshotId)
  | observe (on : Bool)
  /-- Makes the next parser call of a kind fail. -/
  | failNext (kind : ParseKind)
  | shutdown
  | describe
  deriving Repr

structure Inspection where
  computation : Computation
  complete : Bool
  result : Option (Except Error SyntaxTree)
  deriving Repr

inductive Answer where
  | nothing
  | flag (value : Bool)
  | number (value : Nat)
  | line (text : String)
  | snapshot (snapshot : Option Snapshot)
  /-- A snapshot with its description. -/
  | described (snapshot : Snapshot)
  | edited (document : EditedDocument)
  /-- What waiting for a computation gives. -/
  | tree (result : Except Error SyntaxTree)
  | inspection (inspection : Inspection)
  | registration (outcome : Registration)
  deriving Repr

def Answer.ofStore : StoreAnswer → Answer
  | .snapshot s => .snapshot s
  | .edited d => .edited d
  | .document d => .number d.index

inductive StepFailure where
  | failed (failure : Failure)
  | noSnapshot (name : String)
  | noEdits (name : String)
  | noComputation (name : String)
  deriving Repr

def StepFailure.missing? : StepFailure → Option String
  | failed _ => none
  | noSnapshot name => some s!"no snapshot {name}"
  | noEdits name => some s!"no edits {name}"
  | noComputation name => some s!"no handle {name}"

/-- What can be seen after a step: its result, the kept snapshots that have computations, the
counters, the number of open documents, and what parses in this step have reported. -/
structure StepReport where
  outcome : Except StepFailure Answer
  cached : List SnapshotId
  counters : Counters
  openDocuments : Nat
  reused : List Reused
  deriving Repr

namespace Session

def ofService (service : Service Parser.PlannedFailures) : Session where
  store := .empty
  service := service
  snapshots := .empty
  editSets := .empty
  computations := .empty

def start (config : Config) : Except Fault Session :=
  (Service.create config ⟨false, false⟩).map ofService

def refusal {α : Type} : Except Error α → Except StepFailure α
  | .ok a => .ok a
  | .error e => .error (.failed (.refused e))

def failure {α : Type} : Except Failure α → Except StepFailure α
  | .ok a => .ok a
  | .error f => .error (.failed f)

def snapshotAt (s : Session) (name : String) : Except StepFailure Snapshot :=
  match s.snapshots.get? name with
  | some snapshot => .ok snapshot
  | none => .error (.noSnapshot name)

def computationAt (s : Session) (name : String) : Except StepFailure Computation :=
  match s.computations.get? name with
  | some c => .ok c
  | none => .error (.noComputation name)

def editsAt (s : Session) : EditSource → Except StepFailure EditSet
  | .kept name =>
    match s.editSets.get? name with
    | some edits => .ok edits
    | none => .error (.noEdits name)
  | .given edits => failure edits

/-- Keeps an edited document: the snapshot after the edits and the edits under the name itself, the
snapshot before them under the name with an ending. -/
def keepEdited (s : Session) (slot : Option String) (d : EditedDocument) : Session :=
  match slot with
  | some name =>
    { s with
      snapshots := (s.snapshots.put name d.after).put (name ++ ".before") d.before
      editSets := s.editSets.put name d.edits }
  | none => s

def keep (s : Session) (slot : Option String) : StoreAnswer → Session
  | .snapshot (some snapshot) => { s with snapshots := s.snapshots.put? slot snapshot }
  | .edited d => s.keepEdited slot d
  | .snapshot none | .document _ => s

/-- Calls the store. The session goes on with the store that the call leaves, even if it fails. -/
def ask (s : Session) (call : StoreCall) (slot : Option String) :
    Except StepFailure Answer × List Reused × Session :=
  match s.store.answer call with
  | (.ok a, store) => (.ok (.ofStore a), [], { s with store }.keep slot a)
  | (.error f, store) => (.error (.failed f), [], { s with store })

/-- Goes on with the session as it is if the attempt at a step fails. -/
def attempt (s : Session) :
    Except StepFailure (Answer × List Reused × Session) →
      Except StepFailure Answer × List Reused × Session
  | .ok (answer, reused, next) => (.ok answer, reused, next)
  | .error e => (.error e, [], s)

/-- Does a step: its answer, what parses reported during it, and the session after it. -/
def perform (s : Session) : Step → Except StepFailure Answer × List Reused × Session
  | .openDocument uri version text slot => s.ask (.openDocument uri version text) slot
  | .change uri version changes slot => s.ask (.change uri version changes) slot
  | .close uri => s.ask (.close uri) none
  | .latest uri slot => s.ask (.latest uri) slot
  | .documentId uri => s.ask (.documentId uri) none
  | .storeIsEmpty => (.ok (.flag s.store.isEmpty), [], s)
  | .snapshot id uri text slot =>
    let snapshot := Snapshot.ofText id uri text
    (.ok (.described snapshot), [], { s with snapshots := s.snapshots.put? slot snapshot })
  | .apply source version changes slot => s.attempt do
    let before ← s.snapshotAt source
    let (after, edits) ← failure (before.applyChanges version changes)
    let edited : EditedDocument := ⟨before, after, edits⟩
    return (.edited edited, [], s.keepEdited slot edited)
  | .tree name => s.attempt do
    let snapshot ← s.snapshotAt name
    let (result, service) := s.service.treeFor .failing snapshot
    return (.tree result, [], { s with service })
  | .compute name slot => s.attempt do
    let snapshot ← s.snapshotAt name
    let (c, service) := s.service.computationFor .failing snapshot
    return (.nothing, [], { s with service, computations := s.computations.put slot c })
  | .inspect name => s.attempt do
    let c ← s.computationAt name
    return (.inspection ⟨c, s.service.isComplete c, s.service.peek? c⟩, [], s)
  | .await name => s.attempt do
    let c ← s.computationAt name
    let (result, service) := s.service.await c
    return (.tree result, [], { s with service })
  | .register before after source => s.attempt do
    let before ← s.snapshotAt before
    let after ← s.snapshotAt after
    let edits ← s.editsAt source
    let (outcome, reports, service) ←
      refusal (s.service.registerEdit .failing before after edits)
    return (.registration outcome, reports, { s with service })
  | .clear document =>
    let (n, service) := s.service.clear document
    (.ok (.number n), [], { s with service })
  | .isCached id => (.ok (.flag (s.service.isCached id)), [], s)
  | .observe on => (.ok .nothing, [], { s with service := s.service.observe on })
  | .failNext kind =>
    let state := s.service.parserState.plan kind
    (.ok .nothing, [], { s with service := { s.service with parserState := state } })
  | .shutdown => (.ok .nothing, [], { s with service := s.service.shutdown })
  | .describe => (.ok (.line s.service.describe), [], s)

/-- The kept snapshots that have computations, by document and version, each once. -/
def cachedSnapshots (s : Session) : List SnapshotId :=
  ((s.snapshots.values.map Snapshot.id).eraseDups.filter s.service.isCached).mergeSort
    SnapshotId.listedBefore

def report (s : Session) (outcome : Except StepFailure Answer) (reused : List Reused) : StepReport :=
  ⟨outcome, s.cachedSnapshots, s.service.counters, s.store.size, reused⟩

def step (s : Session) (step : Step) : StepReport × Session :=
  let (outcome, reused, next) := s.perform step
  (next.report outcome reused, next)

def run (s : Session) : List Step → List StepReport
  | [] => []
  | st :: steps =>
    let (report, next) := s.step st
    report :: next.run steps

end Session

end IncrementalSyntax
