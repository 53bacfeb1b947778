import IncrementalSyntax.Proofs.Document.Catalog
import IncrementalSyntax.Proofs.Service.Starts

/-!
Documents that are closed and opened again. A document keeps its number, and its versions start
again from wherever the caller likes, so a snapshot from before may have the id of one from after.
A workspace is a store and a service side by side; a document that is closed is dropped by the
service at once. A tree that is asked for should be the tree of that snapshot, but this does not
keep the two apart: whoever still holds the old snapshot can have it parsed again in between, and
the new one is then answered with the old tree (`stale_tree`). A tree has the right text if no
snapshot from before the last closing is used, and otherwise that of a snapshot with the same id for
which a parse has been started since the document was last dropped (`tree_text`).
-/
namespace IncrementalSyntax

inductive Action where
  | openDocument (uri : String) (version : Int) (text : Text)
  | change (uri : String) (version : Int) (changes : List ContentChange)
  /-- A document is closed, and its computations are dropped at once. -/
  | close (uri : String)
  /-- A tree is asked for, by the place of the snapshot among those that the store handed out. -/
  | tree (place : Nat)
  | compute (place : Nat)
  /-- An edit is registered, by the place of the change among those that the store made. -/
  | register (place : Nat)
  | clear (document : DocumentId)
  | observe (on : Bool)
  deriving Repr

/-- A store and a service. Nothing that happens depends on the last two fields; they are there to
speak of a run. -/
structure Workspace where
  store : Store
  client : Client Unit
  /-- The snapshots that the store has handed out. -/
  snapshots : List Snapshot
  /-- The changes that the store has made. -/
  changes : List EditedDocument
  /-- The snapshots that were handed out after their document was last closed. -/
  current : List Snapshot
  /-- The snapshots for which a parse was started after their document was last dropped. -/
  parsed : List Snapshot

/-- Whether a snapshot is not of a document that the request drops. -/
def Request.spares : Request → Snapshot → Bool
  | clear document, s => s.id.document ≠ document
  | _, _ => true

namespace Workspace

def start (config : Config) : Workspace := ⟨.empty, ⟨.start config (), []⟩, [], [], [], []⟩

/-- The snapshots for which a parse has been started, with the one that a request starts. -/
def begun (w : Workspace) (request : Request) : List Snapshot :=
  w.parsed ++ (w.client.startedBy .standard request).toList.map Start.snapshot

def send (w : Workspace) (request : Request) :
    Option (Snapshot × Except Error SyntaxTree) × Workspace :=
  let answer := w.client.answer .standard request
  (answer.1, { w with client := answer.2, parsed := (w.begun request).filter request.spares })

/-- The request that an action sends, if it only sends one. -/
def request? (w : Workspace) : Action → Option Request
  | .tree place => (w.snapshots[place]?).map .tree
  | .compute place => (w.snapshots[place]?).map .compute
  | .register place => (w.changes[place]?).map fun d => .register d.before d.after d.edits
  | .clear document => some (.clear document)
  | .observe on => some (.observe on)
  | .openDocument .. | .change .. | .close _ => none

/-- Takes an action: the result that it gives for a snapshot, if it gives one, and the workspace
after it. -/
def step (w : Workspace) (action : Action) :
    Option (Snapshot × Except Error SyntaxTree) × Workspace :=
  match action with
  | .openDocument uri version text =>
    match w.store.openDocument uri version text with
    | (.ok s, store) =>
      (none, { w with store, snapshots := w.snapshots ++ [s], current := w.current ++ [s] })
    | (.error _, store) => (none, { w with store })
  | .change uri version changes =>
    match w.store.change uri version changes with
    | .ok (d, store) =>
      (none, { w with
        store
        snapshots := w.snapshots ++ [d.after]
        changes := w.changes ++ [d]
        current := w.current ++ [d.after] })
    | .error _ => (none, w)
  | .close uri =>
    match w.store.close uri with
    | .ok (d, store) =>
      { w with store, current := w.current.filter fun s => s.id.document ≠ d }.send (.clear d)
    | .error _ => (none, w)
  | action =>
    match w.request? action with
    | some request => w.send request
    | none => (none, w)

def after (w : Workspace) (actions : List Action) : Workspace :=
  actions.foldl (fun w a => (w.step a).2) w

/-- The action uses no snapshot from before the last closing of its document. -/
def Timely (w : Workspace) (action : Action) : Prop :=
  ∀ request ∈ w.request? action, ∀ s ∈ request.snapshots, s ∈ w.current
  deriving Decidable

def AllTimely (w : Workspace) : List Action → Prop
  | [] => True
  | a :: as => w.Timely a ∧ AllTimely (w.step a).2 as

instance AllTimely.decide : (w : Workspace) → (actions : List Action) →
    Decidable (w.AllTimely actions)
  | _, [] => isTrue trivial
  | w, a :: as =>
    have := AllTimely.decide (w.step a).2 as
    inferInstanceAs (Decidable (w.Timely a ∧ (w.step a).2.AllTimely as))

end Workspace

namespace Store

variable {s next : Store} {uri : String} {version : Int}

/-- The snapshot that a document is found to have is one of that document. -/
theorem document_of_snapshotOf? {d : DocumentId} {a : Snapshot} (h : s.snapshotOf? d = some a) :
    a.id.document = d := by
  simpa using List.find?_some h

theorem snapshotOf?_of_current {a : Snapshot} (h : s.current uri = .ok a) :
    s.snapshotOf? a.id.document = some a := by
  obtain ⟨d, -, h⟩ := bind_eq_ok_iff.mp h
  split at h
  next found hfound =>
    obtain rfl := Except.ok.inj h
    rw [document_of_snapshotOf? hfound, hfound]
  next => simp at h

/-- With one more snapshot at the end, documents that had none before may have that one. -/
theorem find?_concat (latest : List Snapshot) (a : Snapshot) (d : DocumentId)
    (h : (latest.find? fun s => s.id.document = a.id.document) = none) :
    ((latest ++ [a]).find? fun s => s.id.document = d) =
      if d = a.id.document then some a else latest.find? fun s => s.id.document = d := by
  rw [List.find?_append]
  by_cases hd : d = a.id.document
  · subst hd
    simp [h]
  · simp [hd, Ne.symm hd]

theorem snapshotOf?_openDocument {text : Text} {a : Snapshot}
    (h : s.openDocument uri version text = (.ok a, next)) :
    s.snapshotOf? a.id.document = none ∧
      ∀ d, next.snapshotOf? d = if d = a.id.document then some a else s.snapshotOf? d := by
  simp only [openDocument] at h
  split at h
  next => simp at h
  next hnone =>
    obtain ⟨hopened, rfl⟩ := Prod.mk.inj h
    obtain rfl := Except.ok.inj hopened
    exact ⟨hnone, fun d => find?_concat s.latest _ d hnone⟩

theorem snapshotOf?_change {changes : List ContentChange} {e : EditedDocument}
    (h : s.change uri version changes = .ok (e, next)) :
    s.snapshotOf? e.before.id.document = some e.before ∧
      e.after.id.document = e.before.id.document ∧ e.before.id.version < e.after.id.version ∧
      ∀ d, next.snapshotOf? d = if d = e.after.id.document then some e.after
        else s.snapshotOf? d := by
  obtain ⟨before, hbefore, h⟩ := bind_eq_ok_iff.mp h
  obtain ⟨⟨after, edits⟩, happly, h⟩ := bind_eq_ok_iff.mp h
  obtain ⟨rfl, rfl⟩ := Prod.mk.inj (Except.ok.inj h)
  obtain ⟨hversion, hid, -⟩ := Snapshot.applyChanges_eq_ok happly
  have hdocument : after.id.document = before.id.document := by rw [hid]
  have hcurrent : s.current uri = .ok before := by
    cases hcurrent : s.current uri with
    | error e => simp [hcurrent] at hbefore
    | ok a =>
      rw [hcurrent, Failure.ofRefusal_ok] at hbefore
      rw [Except.ok.inj hbefore]
  refine ⟨snapshotOf?_of_current hcurrent, hdocument, by rw [hid]; exact hversion, ?_⟩
  intro d
  have hothers := find?_others s before.id.document
  have hnone := hothers after.id.document
  rw [if_pos hdocument] at hnone
  refine (find?_concat (s.others before.id.document) after d hnone).trans ?_
  by_cases hd : d = after.id.document
  · rw [if_pos hd, if_pos hd]
  · rw [if_neg hd, if_neg hd, hothers, if_neg (hdocument ▸ hd)]

theorem snapshotOf?_close {d : DocumentId} (h : s.close uri = .ok (d, next)) (d' : DocumentId) :
    next.snapshotOf? d' = if d' = d then none else s.snapshotOf? d' := by
  obtain ⟨a, -, h⟩ := bind_eq_ok_iff.mp h
  obtain ⟨rfl, rfl⟩ := Prod.mk.inj (Except.ok.inj h)
  exact find?_others s a.id.document d'

/-- The snapshots handed out since their documents were last closed: the latest of every open
document is among them, and it is the last version of its document; ids tell them apart. -/
structure Periods (s : Store) (current : List Snapshot) : Prop where
  opened : ∀ d a, s.snapshotOf? d = some a → a ∈ current
  latest : ∀ t ∈ current, ∃ a, s.snapshotOf? t.id.document = some a ∧ t.id.version ≤ a.id.version
  single : ∀ t ∈ current, ∀ u ∈ current, t.id = u.id → t = u

theorem periods_empty : empty.Periods [] :=
  ⟨by simp [snapshotOf?, empty], by simp, by simp⟩

namespace Periods

variable {current : List Snapshot}

/-- A snapshot that is later than all others of its document becomes the latest one. -/
theorem concat (h : s.Periods current) {a : Snapshot}
    (hlater : ∀ t ∈ current, t.id.document = a.id.document → t.id.version < a.id.version)
    (hnext : ∀ d, next.snapshotOf? d = if d = a.id.document then some a else s.snapshotOf? d) :
    next.Periods (current ++ [a]) := by
  have hnew : ∀ t ∈ current, t.id ≠ a.id := by
    intro t ht hid
    have hlt := hlater t ht (congrArg SnapshotId.document hid)
    rw [hid] at hlt
    exact Int.lt_irrefl _ hlt
  refine ⟨?_, ?_, ?_⟩
  · intro d b hb
    rw [hnext] at hb
    by_cases hd : d = a.id.document
    · rw [if_pos hd] at hb
      exact List.mem_append_right _ (List.mem_singleton.mpr (Option.some.inj hb).symm)
    · rw [if_neg hd] at hb
      exact List.mem_append_left _ (h.opened d b hb)
  · intro t ht
    rw [hnext]
    by_cases hd : t.id.document = a.id.document
    · rw [if_pos hd]
      refine ⟨a, rfl, ?_⟩
      obtain ht | ht := List.mem_append.mp ht
      · exact Int.le_of_lt (hlater t ht hd)
      · exact Int.le_of_eq (congrArg (fun s => s.id.version) (List.mem_singleton.mp ht))
    · rw [if_neg hd]
      obtain ht | ht := List.mem_append.mp ht
      · exact h.latest t ht
      · exact absurd (congrArg (fun s => s.id.document) (List.mem_singleton.mp ht)) hd
  · intro t ht u hu hid
    obtain ht | ht := List.mem_append.mp ht
    · obtain hu | hu := List.mem_append.mp hu
      · exact h.single t ht u hu hid
      · rw [List.mem_singleton.mp hu] at hid
        exact absurd hid (hnew t ht)
    · obtain hu | hu := List.mem_append.mp hu
      · rw [List.mem_singleton.mp ht] at hid
        exact absurd hid.symm (hnew u hu)
      · rw [List.mem_singleton.mp ht, List.mem_singleton.mp hu]

theorem openDocument (h : s.Periods current) {text : Text} {a : Snapshot}
    (hopen : s.openDocument uri version text = (.ok a, next)) : next.Periods (current ++ [a]) := by
  obtain ⟨hnone, hnext⟩ := snapshotOf?_openDocument hopen
  refine h.concat ?_ hnext
  intro t ht hdocument
  obtain ⟨b, hb, -⟩ := h.latest t ht
  rw [hdocument, hnone] at hb
  simp at hb

theorem change (h : s.Periods current) {changes : List ContentChange} {e : EditedDocument}
    (hchange : s.change uri version changes = .ok (e, next)) :
    next.Periods (current ++ [e.after]) := by
  obtain ⟨hbefore, hdocument, hversion, hnext⟩ := snapshotOf?_change hchange
  refine h.concat ?_ hnext
  intro t ht hsame
  obtain ⟨b, hb, hle⟩ := h.latest t ht
  rw [hsame, hdocument, hbefore] at hb
  obtain rfl := Option.some.inj hb
  omega

theorem close (h : s.Periods current) {d : DocumentId} (hclose : s.close uri = .ok (d, next)) :
    next.Periods (current.filter fun t => t.id.document ≠ d) := by
  have hnext := snapshotOf?_close hclose
  refine ⟨?_, ?_, ?_⟩
  · intro d' a ha
    rw [hnext] at ha
    by_cases hd : d' = d
    · simp [hd] at ha
    · rw [if_neg hd] at ha
      refine List.mem_filter.mpr ⟨h.opened d' a ha, ?_⟩
      rw [document_of_snapshotOf? ha]
      exact decide_eq_true hd
  · intro t ht
    obtain ⟨ht, hd⟩ := List.mem_filter.mp ht
    rw [hnext, if_neg (of_decide_eq_true hd)]
    exact h.latest t ht
  · intro t ht u hu hid
    exact h.single t (List.mem_filter.mp ht).1 u (List.mem_filter.mp hu).1 hid

end Periods

end Store

namespace Service

/-- While parses run, the parser of this library gives every snapshot a tree of its text. -/
theorem text_startFull (s : Service Unit) (hrunning : s.running = true) (snapshot : Snapshot) :
    ∃ tree, (startFull .standard s snapshot).1.result = .ok tree ∧ tree.text = snapshot.text := by
  rw [startFull, if_pos hrunning]
  exact ⟨parse snapshot.text, rfl, rfl⟩

/-- That is so whatever tree and edits it starts from. -/
theorem text_startIncremental (s : Service Unit) (hrunning : s.running = true) (base : Computation)
    (snapshot : Snapshot) (edits : EditSet) :
    ∃ tree, (startIncremental .standard s base snapshot edits).1.result = .ok tree ∧
      tree.text = snapshot.text := by
  rw [startIncremental, if_pos hrunning]
  simp only [await]
  split
  next prior _ => exact ⟨(reparse snapshot.text prior edits).1, rfl, rfl⟩
  next => exact ⟨parse snapshot.text, rfl, rfl⟩

end Service

/-- The computation has a tree with the text of one of the snapshots, which has the given id. -/
def Computation.From (snapshots : List Snapshot) (id : SnapshotId) (c : Computation) : Prop :=
  ∃ s ∈ snapshots, s.id = id ∧ ∃ tree, c.result = .ok tree ∧ tree.text = s.text

namespace Workspace

variable {w : Workspace} {request : Request}

/-- What has been begun is what had been parsed and what the request brings. -/
theorem mem_begun {s : Snapshot} (hs : s ∈ w.begun request) :
    s ∈ w.parsed ∨ s ∈ request.snapshots := by
  obtain hs | hs := List.mem_append.mp hs
  · exact .inl hs
  · obtain ⟨x, hx, rfl⟩ := List.mem_map.mp hs
    obtain ⟨snapshot, hsnapshot, ⟨-, rfl⟩ | ⟨_, _, _, _, -, -, rfl⟩⟩ :=
      Client.startedBy_cases (Option.mem_toList.mp hx)
    · exact .inr hsnapshot
    · exact .inr hsnapshot

theorem from_begun {id : SnapshotId} {c : Computation} (h : c.From w.parsed id) :
    c.From (w.begun request) id := by
  obtain ⟨s, hs, heq⟩ := h
  exact ⟨s, List.mem_append_left _ hs, heq⟩

/-- A computation that is started has a tree with the text of its own snapshot. -/
theorem from_startedBy (hrunning : w.client.service.running = true) {x : Start}
    (hx : w.client.startedBy .standard request = some x) :
    x.computation.From (w.begun request) x.snapshot.id := by
  refine ⟨x.snapshot, by simp [begun, hx], rfl, ?_⟩
  obtain ⟨snapshot, -, ⟨-, rfl⟩ | ⟨before, edits, base, cache, -, -, rfl⟩⟩ :=
    Client.startedBy_cases hx
  · exact Service.text_startFull w.client.service.missed hrunning snapshot
  · exact Service.text_startIncremental { w.client.service with cache } hrunning base snapshot edits

/-- What an action can do: nothing but enter a URI, what the store does if it does not refuse, or
send a request. -/
theorem step_cases (w : Workspace) (action : Action) :
    (∃ registry, w.step action = (none, { w with store := { w.store with registry } })) ∨
      (∃ uri version text s store, w.store.openDocument uri version text = (.ok s, store) ∧
        w.step action = (none,
          { w with store, snapshots := w.snapshots ++ [s], current := w.current ++ [s] })) ∨
      (∃ uri version changes d store, w.store.change uri version changes = .ok (d, store) ∧
        w.step action = (none, { w with
          store
          snapshots := w.snapshots ++ [d.after]
          changes := w.changes ++ [d]
          current := w.current ++ [d.after] })) ∨
      (∃ uri d store, w.store.close uri = .ok (d, store) ∧
        w.step action = send
          { w with store, current := w.current.filter fun s => s.id.document ≠ d } (.clear d)) ∨
      ∃ request, w.request? action = some request ∧ w.step action = w.send request := by
  have hrequest (hstep : w.step action =
      match w.request? action with
      | some request => w.send request
      | none => (none, w)) :
      (∃ registry, w.step action = (none, { w with store := { w.store with registry } })) ∨
        ∃ request, w.request? action = some request ∧ w.step action = w.send request := by
    rw [hstep]
    split
    next request hsome => exact .inr ⟨request, hsome, rfl⟩
    next => exact .inl ⟨w.store.registry, rfl⟩
  cases action with
  | openDocument uri version text =>
    cases hopen : w.store.openDocument uri version text with | mk opened store
    cases opened with
    | error e =>
      refine .inl ⟨(w.store.registry.intern uri).2, ?_⟩
      simp only [step, hopen, Store.openDocument_of_error hopen]
    | ok s => exact .inr (.inl ⟨uri, version, text, s, store, hopen, by simp only [step, hopen]⟩)
  | change uri version changes =>
    cases hchange : w.store.change uri version changes with
    | error e => exact .inl ⟨w.store.registry, by simp only [step, hchange]⟩
    | ok changed =>
      exact .inr (.inr (.inl ⟨uri, version, changes, _, _, hchange, by simp only [step, hchange]⟩))
  | close uri =>
    cases hclose : w.store.close uri with
    | error e => exact .inl ⟨w.store.registry, by simp only [step, hclose]⟩
    | ok closed =>
      exact .inr (.inr (.inr (.inl ⟨uri, _, _, hclose, by simp only [step, hclose]⟩)))
  | tree place => exact (hrequest rfl).imp_right fun h => .inr (.inr (.inr h))
  | compute place => exact (hrequest rfl).imp_right fun h => .inr (.inr (.inr h))
  | register place => exact (hrequest rfl).imp_right fun h => .inr (.inr (.inr h))
  | clear document => exact (hrequest rfl).imp_right fun h => .inr (.inr (.inr h))
  | observe on => exact (hrequest rfl).imp_right fun h => .inr (.inr (.inr h))

/-- A request that drops a document leaves no computation of it. -/
theorem spares_of_mem {c : Client Unit} {e : SnapshotId × Computation} {s : Snapshot}
    (he : e ∈ (c.answer .standard request).2.service.cache.entries.entries) (hid : s.id = e.1) :
    request.spares s = true := by
  cases request with
  | clear document =>
    have hdocument := (List.mem_filter.mp he).2
    simpa [Request.spares, hid] using hdocument
  | tree s => rfl
  | compute s => rfl
  | await handle => rfl
  | register before after edits => rfl
  | observe on => rfl
  | shutdown => rfl

/-- What is known of every workspace: what the service keeps has been parsed since its document was
last dropped, from a snapshot that the store has handed out. -/
structure Sound (w : Workspace) : Prop where
  running : w.client.service.running = true
  cached : w.client.service.cache.All (fun id c => c.From w.parsed id)
  parsed : ∀ s ∈ w.parsed, s ∈ w.snapshots
  changes : ∀ d ∈ w.changes, d.before ∈ w.snapshots ∧ d.after ∈ w.snapshots
  held : ∀ s ∈ w.current, s ∈ w.snapshots
  periods : w.store.Periods w.current

theorem sound_start (config : Config) : (start config).Sound :=
  ⟨rfl, VersionedCache.all_empty _, by simp [start], by simp [start], by simp [start],
    Store.periods_empty⟩

namespace Sound

theorem send (h : w.Sound) (hrequest : request ≠ .shutdown)
    (hsnapshots : ∀ s ∈ request.snapshots, s ∈ w.snapshots) : (w.send request).2.Sound := by
  have hcached : (w.client.answer .standard request).2.service.cache.All fun id c =>
      c.From (w.begun request) id :=
    Client.all_answer (fun e he => from_begun (h.cached e he)) fun x hx =>
      from_startedBy h.running hx
  refine ⟨?_, ?_, ?_, h.changes, h.held, h.periods⟩
  · exact (Client.running_answer _ _ hrequest).trans h.running
  · -- what is dropped from the cache and what no longer counts as parsed are the same documents
    intro e he
    obtain ⟨s, hs, hid, htree⟩ := hcached e he
    exact ⟨s, List.mem_filter.mpr ⟨hs, spares_of_mem he hid⟩, hid, htree⟩
  · intro s hs
    obtain hs | hs := mem_begun (List.mem_filter.mp hs).1
    · exact h.parsed s hs
    · exact hsnapshots s hs

theorem of_request? (h : w.Sound) {action : Action} (hrequest : w.request? action = some request) :
    request ≠ .shutdown ∧ ∀ s ∈ request.snapshots, s ∈ w.snapshots := by
  cases action with
  | openDocument uri version text => simp [request?] at hrequest
  | change uri version changes => simp [request?] at hrequest
  | close uri => simp [request?] at hrequest
  | tree place =>
    obtain ⟨s, hs, rfl⟩ := Option.map_eq_some_iff.mp hrequest
    simpa [Request.snapshots] using List.mem_of_getElem? hs
  | compute place =>
    obtain ⟨s, hs, rfl⟩ := Option.map_eq_some_iff.mp hrequest
    simpa [Request.snapshots] using List.mem_of_getElem? hs
  | register place =>
    obtain ⟨d, hd, rfl⟩ := Option.map_eq_some_iff.mp hrequest
    simpa [Request.snapshots] using h.changes d (List.mem_of_getElem? hd)
  | clear document =>
    obtain rfl := Option.some.inj hrequest
    simp [Request.snapshots]
  | observe on =>
    obtain rfl := Option.some.inj hrequest
    simp [Request.snapshots]

theorem handOut (h : w.Sound) {store : Store} {s : Snapshot}
    (hperiods : store.Periods (w.current ++ [s])) :
    Sound { w with store, snapshots := w.snapshots ++ [s], current := w.current ++ [s] } := by
  refine ⟨h.running, h.cached, ?_, ?_, ?_, hperiods⟩
  · intro t ht
    exact List.mem_append_left _ (h.parsed t ht)
  · intro d hd
    obtain ⟨hbefore, hafter⟩ := h.changes d hd
    exact ⟨List.mem_append_left _ hbefore, List.mem_append_left _ hafter⟩
  · intro t ht
    obtain ht | ht := List.mem_append.mp ht
    · exact List.mem_append_left _ (h.held t ht)
    · exact List.mem_append_right _ ht

theorem step (h : w.Sound) (action : Action) : (w.step action).2.Sound := by
  obtain ⟨registry, hstep⟩ | ⟨uri, version, text, s, store, hopen, hstep⟩ |
    ⟨uri, version, changes, d, store, hchange, hstep⟩ | ⟨uri, d, store, hclose, hstep⟩ |
    ⟨request, hrequest, hstep⟩ := step_cases w action
  · rw [hstep]
    exact ⟨h.running, h.cached, h.parsed, h.changes, h.held,
      ⟨h.periods.opened, h.periods.latest, h.periods.single⟩⟩
  · rw [hstep]
    exact h.handOut (h.periods.openDocument hopen)
  · rw [hstep]
    -- a change starts from the latest snapshot, which has been handed out before
    obtain ⟨hlatest, -⟩ := Store.snapshotOf?_change hchange
    have hbefore := h.held _ (h.periods.opened _ _ hlatest)
    have hnext := h.handOut (h.periods.change hchange)
    refine ⟨hnext.running, hnext.cached, hnext.parsed, ?_, hnext.held, hnext.periods⟩
    intro e he
    obtain he | he := List.mem_append.mp he
    · exact hnext.changes e he
    · rw [List.mem_singleton.mp he]
      exact ⟨List.mem_append_left _ hbefore, by simp⟩
  · rw [hstep]
    have hclosed : Sound
        { w with store, current := w.current.filter fun s => s.id.document ≠ d } :=
      ⟨h.running, h.cached, h.parsed, h.changes, fun t ht => h.held t (List.mem_filter.mp ht).1,
        h.periods.close hclose⟩
    exact hclosed.send (by simp) (by simp [Request.snapshots])
  · rw [hstep]
    obtain ⟨hne, hsnapshots⟩ := h.of_request? hrequest
    exact h.send hne hsnapshots

theorem after (h : w.Sound) (actions : List Action) : (w.after actions).Sound := by
  induction actions generalizing w with
  | nil => exact h
  | cons a as ih => exact ih (h.step a)

/-- A tree that is asked for is there, with the text of its snapshot or of one with the same id for
which a parse has been started. -/
theorem tree (h : w.Sound) (s : Snapshot) :
    ∃ tree t, (w.send (.tree s)).1 = some (s, .ok tree) ∧ tree.text = t.text ∧ t.id = s.id ∧
      (t = s ∨ t ∈ w.parsed) := by
  have hfrom : (w.client.service.computationFor .standard s).1.From (w.begun (.compute s)) s.id :=
    (Client.all_computationFor (P := fun id c => c.From (w.begun (.compute s)) id)
      (fun e he => from_begun (h.cached e he)) fun x hx => from_startedBy h.running hx).1
  obtain ⟨t, ht, hid, tree, hresult, htext⟩ := hfrom
  refine ⟨tree, t, ?_, htext, hid, ?_⟩
  · rw [← hresult]
    rfl
  · obtain ht | ht := mem_begun ht
    · exact .inr ht
    · exact .inl (List.mem_singleton.mp ht)

end Sound

/-- The step lemma for timely actions: they leave nothing parsed from before the last closing. -/
theorem Timely.step {action : Action} (htimely : w.Timely action)
    (h : ∀ s ∈ w.parsed, s ∈ w.current) :
    ∀ s ∈ (w.step action).2.parsed, s ∈ (w.step action).2.current := by
  intro s hs
  obtain ⟨registry, hstep⟩ | ⟨uri, version, text, t, store, -, hstep⟩ |
    ⟨uri, version, changes, d, store, -, hstep⟩ | ⟨uri, d, store, -, hstep⟩ |
    ⟨request, hrequest, hstep⟩ := step_cases w action
  · rw [hstep] at hs ⊢
    exact h s hs
  · rw [hstep] at hs ⊢
    exact List.mem_append_left _ (h s hs)
  · rw [hstep] at hs ⊢
    exact List.mem_append_left _ (h s hs)
  · rw [hstep] at hs ⊢
    obtain ⟨hs, hspared⟩ := List.mem_filter.mp hs
    obtain hs | hs := mem_begun hs
    · exact List.mem_filter.mpr ⟨h s hs, hspared⟩
    · simp [Request.snapshots] at hs
  · rw [hstep] at hs ⊢
    obtain hs | hs := mem_begun (List.mem_filter.mp hs).1
    · exact h s hs
    · exact htimely request hrequest s hs

theorem AllTimely.after {actions more : List Action} (htimely : w.AllTimely (actions ++ more))
    (h : ∀ s ∈ w.parsed, s ∈ w.current) :
    (∀ s ∈ (w.after actions).parsed, s ∈ (w.after actions).current) ∧
      (w.after actions).AllTimely more := by
  induction actions generalizing w with
  | nil => exact ⟨h, htimely⟩
  | cons a as ih => exact ih htimely.2 (htimely.1.step h)

/-- In every run, a tree that is asked for is there. It has the text of a snapshot with the same id:
that of the snapshot itself or of one for which a parse has been started since their document was
last dropped. If both are from after the last closing of the document the text is the right one, so
it is always right if no action uses a snapshot from before. -/
theorem tree_text (config : Config) (actions : List Action) (place : Nat) (s : Snapshot)
    (hs : ((start config).after actions).snapshots[place]? = some s) :
    let w := (start config).after actions
    ∃ tree, (w.step (.tree place)).1 = some (s, .ok tree) ∧
      (∃ t ∈ w.snapshots, t.id = s.id ∧ tree.text = t.text ∧ (t = s ∨ t ∈ w.parsed)) ∧
      (s ∈ w.current → (∀ t ∈ w.parsed, t.id = s.id → t ∈ w.current) → tree.text = s.text) ∧
      ((start config).AllTimely (actions ++ [.tree place]) → tree.text = s.text) := by
  intro w
  have hsound : w.Sound := (sound_start config).after actions
  have hrequest : w.request? (.tree place) = some (.tree s) := by
    rw [request?, hs, Option.map_some]
  have hstep : w.step (.tree place) = w.send (.tree s) := by
    simp only [step, hrequest]
  obtain ⟨tree, t, hanswer, htext, hid, ht⟩ := hsound.tree s
  have hcurrent : s ∈ w.current → (∀ t ∈ w.parsed, t.id = s.id → t ∈ w.current) →
      tree.text = s.text := by
    intro hcurrent hparsed
    obtain rfl | ht := ht
    · exact htext
    · rw [htext, hsound.periods.single t (hparsed t ht hid) s hcurrent hid]
  refine ⟨tree, by rw [hstep, hanswer], ⟨t, ?_, hid, htext, ht⟩, hcurrent, ?_⟩
  · obtain rfl | ht := ht
    · exact List.mem_of_getElem? hs
    · exact hsound.parsed t ht
  · intro htimely
    obtain ⟨hparsed, hlast, -⟩ := htimely.after (by simp [start])
    exact hcurrent (hlast _ hrequest s (List.mem_singleton_self s)) fun t ht _ => hparsed t ht

/-- A document is read, closed, and opened again with another text for the same version. -/
theorem tree_text_reopened :
    let actions : List Action :=
      [.openDocument "file:///a" 1 "let a = 1".toList, .tree 0, .close "file:///a",
        .openDocument "file:///a" 1 "let b = 2".toList]
    let s := Snapshot.ofText ⟨⟨0⟩, 1⟩ "file:///a" "let b = 2".toList
    ((start .standard).after actions).snapshots[1]? = some s ∧
      (start .standard).AllTimely (actions ++ [.tree 1]) ∧
      ∃ tree, (((start .standard).after actions).step (.tree 1)).1 = some (s, .ok tree) ∧
        tree.text = s.text := by
  intro actions s
  have hs : ((start .standard).after actions).snapshots[1]? = some s := by decide +kernel
  have htimely : (start .standard).AllTimely (actions ++ [.tree 1]) := by decide +kernel
  obtain ⟨tree, hanswer, -, -, htext⟩ := tree_text .standard actions 1 s hs
  exact ⟨hs, htimely, tree, hanswer, htext htimely⟩

/-- The same, except that the first text is read only after it has been closed and dropped: then the
second text is answered with the tree of the first. -/
theorem stale_tree :
    let actions : List Action :=
      [.openDocument "file:///a" 1 "a".toList, .close "file:///a", .tree 0,
        .openDocument "file:///a" 1 "b".toList]
    let w := (start .standard).after actions
    ∃ s tree, w.snapshots[1]? = some s ∧ (w.step (.tree 1)).1 = some (s, .ok tree) ∧
      tree.text ≠ s.text := by
  refine ⟨.ofText ⟨⟨0⟩, 1⟩ "file:///a" "b".toList, parse "a".toList, by decide +kernel, rfl, ?_⟩
  decide

end Workspace

end IncrementalSyntax
