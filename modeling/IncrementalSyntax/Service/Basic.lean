import IncrementalSyntax.Cache.Versioned
import IncrementalSyntax.Document.Snapshot
import IncrementalSyntax.Service.Computation
import IncrementalSyntax.Service.Parser

/-!
Trees on demand. The service keeps computations by snapshot. A request for a tree joins the
computation that is kept, or starts a full parse; an edit starts an incremental parse from the
computation of the snapshot before it and keeps it in that one's place. Every computation that
runs makes one call of the parser, and a call that fails harms no other computation.
-/
namespace IncrementalSyntax

structure Config where
  /-- How many computations are kept, over all documents. -/
  cacheCapacity : Nat
  deriving DecidableEq, Repr

namespace Config

/-- How many computations are kept if nothing is said. -/
def standardCapacity : Nat := 5

def standard : Config := ⟨standardCapacity⟩

/-- Sets the number of computations kept, which is one at least. -/
def withCacheCapacity (_ : Config) (capacity : Nat) : Config := ⟨max capacity 1⟩

def describe (c : Config) : String := s!"ManagerConfig \x7b cache_capacity: {c.cacheCapacity} \x7d"

end Config

structure Counters where
  fullParses : Nat
  incrementalParses : Nat
  cacheHits : Nat
  cacheMisses : Nat
  deriving DecidableEq, Repr

def Counters.zero : Counters := ⟨0, 0, 0, 0⟩

def Counters.describe (c : Counters) : String :=
  s!"ManagerStats \x7b full_parses: {c.fullParses}, incremental_parses: {c.incrementalParses}, " ++
    s!"cache_hits: {c.cacheHits}, cache_misses: {c.cacheMisses} \x7d"

inductive Registration where
  /-- An incremental parse has been started. -/
  | incremental
  /-- The snapshot before the edit is not kept, so the one after it will be parsed in full. -/
  | noBase
  deriving DecidableEq, Repr

def Registration.name : Registration → String
  | incremental => "Incremental"
  | noBase => "NoBase"

/-- A service whose parser has a state of type `σ`. -/
structure Service (σ : Type) where
  parserState : σ
  cache : VersionedCache Computation
  counters : Counters
  /-- The ticket of the next computation. -/
  nextTicket : Nat
  /-- The tickets of the computations that somebody has waited for. -/
  awaited : List Nat
  /-- Whether incremental parses report what they take over. -/
  observing : Bool
  /-- Whether parses that are started still run. -/
  running : Bool
  deriving Repr

namespace Service

variable {σ : Type}

def start (config : Config) (parserState : σ) : Service σ where
  parserState := parserState
  cache := .empty config.cacheCapacity
  counters := .zero
  nextTicket := 0
  awaited := []
  observing := false
  running := true

def create (config : Config) (parserState : σ) : Except Fault (Service σ) :=
  (VersionedCache.create config.cacheCapacity).map fun cache =>
    { start config parserState with cache }

theorem create_eq_ok_iff {config : Config} {parserState : σ} {s : Service σ} :
    create config parserState = .ok s ↔
      config.cacheCapacity ≤ RecencyCache.greatestCapacity ∧ start config parserState = s := by
  cases h : (VersionedCache.create config.cacheCapacity :
      Except Fault (VersionedCache Computation)) with
  | ok cache =>
    obtain ⟨fits, rfl⟩ := VersionedCache.create_eq_ok_iff.1 h
    simp [create, h, Except.map, fits, start]
  | error e =>
    have unfit : ¬ config.cacheCapacity ≤ RecencyCache.greatestCapacity := fun fits => by
      simp [VersionedCache.create_eq_ok_iff.2 ⟨fits, rfl⟩] at h
    simp [create, h, Except.map, unfit]

/-- Whether somebody has waited for a computation. -/
def isComplete (s : Service σ) (c : Computation) : Bool := s.awaited.contains c.ticket

def peek? (s : Service σ) (c : Computation) : Option (Except Error SyntaxTree) :=
  if s.isComplete c then some c.result else none

def await (s : Service σ) (c : Computation) : Except Error SyntaxTree × Service σ :=
  (c.result, { s with awaited := c.ticket :: s.awaited })

def resultOf (id : SnapshotId) : Option SyntaxTree → Except Error SyntaxTree
  | some tree => .ok tree
  | none => .error (.parseTaskFailed id .crashed)

def issue (s : Service σ) (id : SnapshotId) (kind : ParseKind) (result : Except Error SyntaxTree) :
    Computation × Service σ :=
  (⟨s.nextTicket, id, kind, result⟩, { s with nextTicket := s.nextTicket + 1 })

/-- Calls the parser for the whole text of a snapshot. The call is counted before it is made. -/
def callFull (parser : Parser σ) (s : Service σ) (snapshot : Snapshot) :
    Except Error SyntaxTree × Service σ :=
  let (tree, state) := parser.full snapshot.text s.parserState
  let counters := { s.counters with fullParses := s.counters.fullParses + 1 }
  (resultOf snapshot.id tree, { s with parserState := state, counters })

/-- Calls the parser for a snapshot that edits have made from the text of an older tree. -/
def callIncremental (parser : Parser σ) (s : Service σ) (snapshot : Snapshot) (prior : SyntaxTree)
    (edits : EditSet) : Except Error SyntaxTree × List Reused × Service σ :=
  let (answer, state) := parser.incremental snapshot.text prior edits s.parserState
  let counters := { s.counters with incrementalParses := s.counters.incrementalParses + 1 }
  let reports := if s.observing then (answer.map Prod.snd).getD [] else []
  (resultOf snapshot.id (answer.map Prod.fst), reports, { s with parserState := state, counters })

def startFull (parser : Parser σ) (s : Service σ) (snapshot : Snapshot) :
    Computation × Service σ :=
  if s.running then
    let (result, s) := s.callFull parser snapshot
    s.issue snapshot.id .full result
  else s.issue snapshot.id .full (.error (.parseTaskFailed snapshot.id .cancelled))

/-- Starts an incremental parse of a snapshot from a base, for which it waits. If the base has
failed, the snapshot is parsed in full instead. -/
def startIncremental (parser : Parser σ) (s : Service σ) (base : Computation) (snapshot : Snapshot)
    (edits : EditSet) : Computation × List Reused × Service σ :=
  if s.running then
    let (basis, s) := s.await base
    match basis with
    | .ok prior =>
      let (result, reports, s) := s.callIncremental parser snapshot prior edits
      let (c, s) := s.issue snapshot.id .incremental result
      (c, reports, s)
    | .error _ =>
      let (result, s) := s.callFull parser snapshot
      let (c, s) := s.issue snapshot.id .incremental result
      (c, [], s)
  else
    let (c, s) := s.issue snapshot.id .incremental
      (.error (.parseTaskFailed snapshot.id .cancelled))
    (c, [], s)

/-- The computation that is kept for a snapshot, or a full parse that is started now. The latter is
kept too, unless there is one for a later version of the document. -/
def computationFor (parser : Parser σ) (s : Service σ) (snapshot : Snapshot) :
    Computation × Service σ :=
  match s.cache.get? snapshot.id with
  | (some c, cache) =>
    let counters := { s.counters with cacheHits := s.counters.cacheHits + 1 }
    (c, { s with cache, counters })
  | (none, _) =>
    let counters := { s.counters with cacheMisses := s.counters.cacheMisses + 1 }
    let (c, s) := startFull parser { s with counters } snapshot
    if s.cache.hasNewer snapshot.id then (c, s)
    else (c, { s with cache := s.cache.insert snapshot.id c })

def treeFor (parser : Parser σ) (s : Service σ) (snapshot : Snapshot) :
    Except Error SyntaxTree × Service σ :=
  let (c, s) := s.computationFor parser snapshot
  s.await c

/-- Takes note of edits that lead from one snapshot of a document to a later one, and starts an
incremental parse of the later one if there is a computation for the earlier one. Refused edits
leave the service as it was. -/
def registerEdit (parser : Parser σ) (s : Service σ) (before after : Snapshot) (edits : EditSet) :
    Except Error (Registration × List Reused × Service σ) := do
  if before.id.document ≠ after.id.document then
    throw (.documentMismatch before.id.document after.id.document)
  if !before.id.precedes after.id then throw (.outOfOrderEdit before.id after.id)
  edits.checkFits before.text
  match s.cache.get? before.id with
  | (none, _) => return (.noBase, [], s)
  | (some base, cache) =>
    let (c, reports, s) := startIncremental parser { s with cache } base after edits
    return (.incremental, reports, { s with cache := s.cache.insert after.id c })

def clear (s : Service σ) (d : DocumentId) : Nat × Service σ :=
  let (n, cache) := s.cache.eraseDocument d
  (n, { s with cache })

def isCached (s : Service σ) (id : SnapshotId) : Bool := s.cache.contains id

/-- Says whether incremental parses are to report what they take over. -/
def observe (s : Service σ) (on : Bool) : Service σ := { s with observing := on }

/-- Ends the running of parses; results already there stay. -/
def shutdown (s : Service σ) : Service σ := { s with running := false }

def describe (s : Service σ) : String :=
  s!"SyntaxTreeManager \x7b cached: {s.cache.size}, capacity: {s.cache.capacity}, " ++
    s!"stats: {s.counters.describe} \x7d"

end Service

end IncrementalSyntax
