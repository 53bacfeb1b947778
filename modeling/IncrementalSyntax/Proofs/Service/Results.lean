import IncrementalSyntax.Proofs.Cache.Recency
import IncrementalSyntax.Proofs.Syntax.Reparse
import IncrementalSyntax.Service.Basic

/-!
What a service hands out. A client sends requests to a service and keeps the computations that it
asked for; the parser may fail any call. The invariant is that every computation that is kept, by
the service or by the client, holds the full parse of its snapshot's text if it holds a tree at all.
A request keeps it whatever the cache drops, and an incremental parse keeps it because a reparse
from a full parse is a full parse. `run_matches_parse` draws the conclusion for whole runs.
-/
namespace IncrementalSyntax

/-- The parser fails a call or gives what the parser of this library gives. -/
structure Parser.MayFail {σ : Type} (parser : Parser σ) : Prop where
  full : ∀ text state tree, (parser.full text state).1 = some tree → tree = parse text
  incremental : ∀ text prior edits state answer,
    (parser.incremental text prior edits state).1 = some answer → answer = reparse text prior edits

theorem Parser.standard_mayFail : Parser.standard.MayFail where
  full _ _ _ h := (Option.some.inj h).symm
  incremental _ _ _ _ _ h := (Option.some.inj h).symm

theorem Parser.failing_mayFail : Parser.failing.MayFail where
  full text state tree h := by
    cases hs : state.full <;> simp_all [failing]
  incremental text prior edits state answer h := by
    cases hs : state.incremental <;> simp_all [failing]

namespace VersionedCache

variable {α : Type}

/-- Every value that is kept has a property, which may depend on its snapshot. -/
def All (P : SnapshotId → α → Prop) (c : VersionedCache α) : Prop :=
  ∀ e ∈ c.entries.entries, P e.1 e.2

variable {P : SnapshotId → α → Prop} {c c' : VersionedCache α} {key : SnapshotId} {a : α}

theorem all_empty (capacity : Nat) : (empty capacity : VersionedCache α).All P := by
  intro e he
  simp [empty, RecencyCache.empty] at he

/-- A value that is found has the property, and all values still have it afterwards. -/
theorem All.get? (h : c.All P) {found : Option α} (hget : c.get? key = (found, c')) :
    (∀ a, found = some a → P key a) ∧ c'.All P := by
  obtain ⟨rfl, rfl⟩ := Prod.mk.inj hget
  constructor
  · intro a ha
    exact h (key, a) (RecencyCache.mem_of_get? ha)
  · intro e he
    exact h e (RecencyCache.mem_of_mem_get? he)

theorem All.insert (h : c.All P) (ha : P key a) : (c.insert key a).All P := by
  intro e he
  rcases RecencyCache.mem_of_mem_insert he with rfl | he
  · exact ha
  · exact h e (RecencyCache.mem_of_mem_eraseAll (p := fun k => k.isSupersededBy key) he)

theorem All.eraseAll (h : c.All P) (p : SnapshotId → Bool) : (c.eraseAll p).2.All P :=
  fun e he => h e (RecencyCache.mem_of_mem_eraseAll (p := p) he)

end VersionedCache

/-- If the computation has a tree, it is the full parse of the text. -/
def Computation.Right (c : Computation) (text : Text) : Prop :=
  ∀ tree, c.result = .ok tree → tree = parse text

namespace Service

variable {σ : Type} {parser : Parser σ}

def Right (texts : SnapshotId → Text) (s : Service σ) : Prop :=
  s.cache.All fun id c => c.Right (texts id)

theorem resultOf_eq_ok {id : SnapshotId} {answer : Option SyntaxTree} {tree : SyntaxTree}
    (h : resultOf id answer = .ok tree) : answer = some tree := by
  cases answer with
  | none => simp [resultOf] at h
  | some t => simpa [resultOf] using h

theorem right_startFull (hparser : parser.MayFail) (s : Service σ) (snapshot : Snapshot) :
    (startFull parser s snapshot).1.Right snapshot.text := by
  intro tree htree
  rw [startFull] at htree
  split at htree
  next => exact hparser.full _ _ _ (resultOf_eq_ok htree)
  next => simp [issue] at htree

@[simp] theorem cache_startFull (s : Service σ) (snapshot : Snapshot) :
    (startFull parser s snapshot).2.cache = s.cache := by
  rw [startFull]
  split <;> rfl

/-- An incremental parse is right for the snapshot after the edits if its base is right for the
one before them; a base without a tree is replaced by a full parse. -/
theorem right_startIncremental (hparser : parser.MayFail) {s : Service σ} {base : Computation}
    {before after : Snapshot} {edits : EditSet} (hbase : base.Right before.text)
    (happly : edits.apply before.text = .ok after.text) :
    (startIncremental parser s base after edits).1.Right after.text := by
  intro tree htree
  rw [startIncremental] at htree
  split at htree
  next =>
    simp only [await] at htree
    split at htree
    next prior hprior =>
      obtain ⟨answer, hanswer, rfl⟩ := Option.map_eq_some_iff.mp (resultOf_eq_ok htree)
      rw [hparser.incremental _ _ _ _ _ hanswer, hbase prior hprior]
      exact reparse_parse happly
    next => exact hparser.full _ _ _ (resultOf_eq_ok htree)
  next => simp [issue] at htree

@[simp] theorem cache_startIncremental (s : Service σ) (base : Computation) (after : Snapshot)
    (edits : EditSet) : (startIncremental parser s base after edits).2.2.cache = s.cache := by
  rw [startIncremental]
  split
  next =>
    simp only [await]
    split <;> rfl
  next => rfl

/-- The computation that a client gets for a snapshot is right, and the service stays so. -/
theorem right_computationFor (hparser : parser.MayFail) {texts : SnapshotId → Text} {s : Service σ}
    (hs : s.Right texts) {snapshot : Snapshot} (htext : texts snapshot.id = snapshot.text) :
    (computationFor parser s snapshot).1.Right snapshot.text ∧
      (computationFor parser s snapshot).2.Right texts := by
  rw [computationFor]
  split
  next c cache hget =>
    obtain ⟨hfound, hrest⟩ := VersionedCache.All.get? hs hget
    exact ⟨htext ▸ hfound c rfl, hrest⟩
  next cache hget =>
    have hnew := right_startFull hparser
      { s with counters := { s.counters with cacheMisses := s.counters.cacheMisses + 1 } } snapshot
    simp only
    split
    next => exact ⟨hnew, by simpa [Right] using hs⟩
    next =>
      refine ⟨hnew, ?_⟩
      simp only [Right, cache_startFull]
      exact VersionedCache.All.insert hs (htext ▸ hnew)

/-- What an edit that is not refused can do: nothing, or start an incremental parse from the
computation that is kept for the snapshot before it. -/
theorem registerEdit_cases {s : Service σ} {before after : Snapshot} {edits : EditSet}
    {answer : Registration × List Reused × Service σ}
    (h : registerEdit parser s before after edits = .ok answer) :
    answer = (.noBase, [], s) ∨
      ∃ base cache, s.cache.get? before.id = (some base, cache) ∧
        let started := startIncremental parser { s with cache } base after edits
        answer = (.incremental, started.2.1,
          { started.2.2 with cache := started.2.2.cache.insert after.id started.1 }) := by
  rw [registerEdit] at h
  split at h
  next => simp [throw, throwThe, MonadExceptOf.throw] at h
  next =>
    simp only [pure_eq_ok] at h
    split at h
    next => simp [throw, throwThe, MonadExceptOf.throw] at h
    next =>
      obtain ⟨-, -, h⟩ := bind_eq_ok_iff.mp h
      split at h
      next => exact .inl (Except.ok.inj h).symm
      next base cache hget => exact .inr ⟨base, cache, hget, (Except.ok.inj h).symm⟩

/-- An edit that leads from one snapshot's text to the other's keeps the service right. -/
theorem right_registerEdit (hparser : parser.MayFail) {texts : SnapshotId → Text} {s : Service σ}
    (hs : s.Right texts) {before after : Snapshot} {edits : EditSet}
    {answer : Registration × List Reused × Service σ}
    (hbefore : texts before.id = before.text) (hafter : texts after.id = after.text)
    (happly : edits.apply before.text = .ok after.text)
    (h : registerEdit parser s before after edits = .ok answer) : answer.2.2.Right texts := by
  rcases registerEdit_cases h with rfl | ⟨base, cache, hget, rfl⟩
  · exact hs
  · obtain ⟨hfound, hrest⟩ := VersionedCache.All.get? hs hget
    have hbase : base.Right before.text := hbefore ▸ hfound base rfl
    have hnew := right_startIncremental hparser (s := { s with cache }) hbase happly
    simp only [Right, cache_startIncremental]
    exact VersionedCache.All.insert hrest (hafter ▸ hnew)

end Service

inductive Request where
  | tree (snapshot : Snapshot)
  /-- A computation, which the client keeps. -/
  | compute (snapshot : Snapshot)
  /-- The result of a kept computation, by its place among them. -/
  | await (handle : Nat)
  | register (before after : Snapshot) (edits : EditSet)
  | clear (document : DocumentId)
  | observe (on : Bool)
  | shutdown
  deriving Repr

def Request.snapshots : Request → List Snapshot
  | tree s | compute s => [s]
  | register before after _ => [before, after]
  | await _ | clear _ | observe _ | shutdown => []

/-- The edits of a registration make the later text from the earlier one. -/
def Request.Truthful : Request → Prop
  | register before after edits => edits.apply before.text = .ok after.text
  | _ => True

instance Request.Truthful.decide : (r : Request) → Decidable r.Truthful
  | .register before after edits =>
    inferInstanceAs (Decidable (edits.apply before.text = .ok after.text))
  | .tree _ | .compute _ | .await _ | .clear _ | .observe _ | .shutdown => isTrue trivial

/-- A service and the computations that its client keeps, with the snapshots they were asked for. -/
structure Client (σ : Type) where
  service : Service σ
  handles : List (Snapshot × Computation)

namespace Client

variable {σ : Type} {parser : Parser σ}

/-- Answers a request: the result that it gives for a snapshot, if it gives one, and the client
after it. -/
def answer (parser : Parser σ) (c : Client σ) :
    Request → Option (Snapshot × Except Error SyntaxTree) × Client σ
  | .tree snapshot =>
    let (result, service) := c.service.treeFor parser snapshot
    (some (snapshot, result), { c with service })
  | .compute snapshot =>
    let (computation, service) := c.service.computationFor parser snapshot
    (none, ⟨service, c.handles ++ [(snapshot, computation)]⟩)
  | .await handle =>
    match c.handles[handle]? with
    | some (snapshot, computation) =>
      let (result, service) := c.service.await computation
      (some (snapshot, result), { c with service })
    | none => (none, c)
  | .register before after edits =>
    match c.service.registerEdit parser before after edits with
    | .ok (_, _, service) => (none, { c with service })
    | .error _ => (none, c)
  | .clear document => (none, { c with service := (c.service.clear document).2 })
  | .observe on => (none, { c with service := c.service.observe on })
  | .shutdown => (none, { c with service := c.service.shutdown })

def run (parser : Parser σ) (c : Client σ) :
    List Request → List (Snapshot × Except Error SyntaxTree)
  | [] => []
  | r :: rs => (c.answer parser r).1.toList ++ run parser (c.answer parser r).2 rs

structure Right (texts : SnapshotId → Text) (c : Client σ) : Prop where
  service : c.service.Right texts
  handles : ∀ h ∈ c.handles, h.2.Right h.1.text

/-- The step lemma: a request keeps all computations right, and a tree that it gives is right. -/
theorem right_answer (hparser : parser.MayFail) {texts : SnapshotId → Text} {c : Client σ}
    (hc : c.Right texts) {request : Request}
    (htexts : ∀ s ∈ request.snapshots, texts s.id = s.text) (hedits : request.Truthful) :
    (c.answer parser request).2.Right texts ∧
      ∀ snapshot tree, (c.answer parser request).1 = some (snapshot, .ok tree) →
        tree = parse snapshot.text := by
  cases request with
  | tree s =>
    obtain ⟨hnew, hservice⟩ := Service.right_computationFor hparser hc.service
      (htexts s (by simp [Request.snapshots]))
    refine ⟨⟨hservice, hc.handles⟩, ?_⟩
    intro snapshot tree htree
    obtain ⟨rfl, hresult⟩ := Prod.mk.inj (Option.some.inj htree)
    exact hnew tree hresult
  | compute s =>
    obtain ⟨hnew, hservice⟩ := Service.right_computationFor hparser hc.service
      (htexts s (by simp [Request.snapshots]))
    refine ⟨⟨hservice, ?_⟩, by simp [answer]⟩
    intro h hmem
    rcases List.mem_append.mp hmem with hmem | hmem
    · exact hc.handles h hmem
    · rw [List.mem_singleton.mp hmem]
      exact hnew
  | await n =>
    rw [answer]
    split
    next s computation hget =>
      refine ⟨⟨hc.service, hc.handles⟩, ?_⟩
      intro snapshot tree htree
      obtain ⟨rfl, hresult⟩ := Prod.mk.inj (Option.some.inj htree)
      exact hc.handles (s, computation) (List.mem_of_getElem? hget) tree hresult
    next => exact ⟨hc, by simp⟩
  | register before after edits =>
    rw [answer]
    split
    next outcome reports service hregister =>
      have hservice := Service.right_registerEdit hparser hc.service
        (htexts before (by simp [Request.snapshots])) (htexts after (by simp [Request.snapshots]))
        hedits hregister
      exact ⟨⟨hservice, hc.handles⟩, by simp⟩
    next => exact ⟨hc, by simp⟩
  | clear document =>
    have hcache : (c.service.cache.eraseDocument document).2.All fun id c => c.Right (texts id) :=
      VersionedCache.All.eraseAll hc.service _
    exact ⟨⟨hcache, hc.handles⟩, by simp [answer]⟩
  | observe on => exact ⟨⟨hc.service, hc.handles⟩, by simp [answer]⟩
  | shutdown => exact ⟨⟨hc.service, hc.handles⟩, by simp [answer]⟩

/-- The run lemma: every tree that a run of requests gives is right. -/
theorem eq_parse_of_mem_run (hparser : parser.MayFail) {texts : SnapshotId → Text} {c : Client σ}
    (hc : c.Right texts) {requests : List Request}
    (htexts : ∀ r ∈ requests, ∀ s ∈ r.snapshots, texts s.id = s.text)
    (hedits : ∀ r ∈ requests, r.Truthful) {snapshot : Snapshot} {tree : SyntaxTree}
    (hmem : (snapshot, .ok tree) ∈ run parser c requests) : tree = parse snapshot.text := by
  induction requests generalizing c with
  | nil => simp [run] at hmem
  | cons r rs ih =>
    obtain ⟨hnext, hanswer⟩ := right_answer hparser hc (htexts r (by simp)) (hedits r (by simp))
    rcases List.mem_append.mp hmem with hmem | hmem
    · exact hanswer snapshot tree (Option.mem_toList.mp hmem)
    · exact ih hnext (fun q hq => htexts q (by simp [hq])) (fun q hq => hedits q (by simp [hq])) hmem

/-- The text that a list of snapshots gives for an id. -/
def textIn (snapshots : List Snapshot) (id : SnapshotId) : Text :=
  match snapshots.find? fun s => s.id = id with
  | some s => s.text
  | none => []

theorem textIn_eq {snapshots : List Snapshot}
    (h : ∀ a ∈ snapshots, ∀ b ∈ snapshots, a.id = b.id → a.text = b.text) {s : Snapshot}
    (hs : s ∈ snapshots) : textIn snapshots s.id = s.text := by
  rw [textIn]
  split
  next found hfind =>
    have hid := List.find?_some hfind
    exact h found (List.mem_of_find?_eq_some hfind) s hs (by simpa using hid)
  next hnone =>
    have := List.find?_eq_none.mp hnone s hs
    simp at this

/-- Whatever the requests and wherever the parser fails, a tree that a client gets for a snapshot is
that of a full parse of the snapshot's text, if snapshots with one id have one text and edits lead
from text to text. The service may be any that can be made; whether there is room for what it is to
keep makes no difference to that. -/
theorem run_matches_parse (hparser : parser.MayFail) (config : Config) (state : σ)
    (service : Service σ)
    (hservice : Service.create config state = .ok service ∨ .start config state = service)
    (requests : List Request)
    (hids : ∀ a ∈ requests.flatMap Request.snapshots, ∀ b ∈ requests.flatMap Request.snapshots,
      a.id = b.id → a.text = b.text)
    (hedits : ∀ r ∈ requests, r.Truthful) (snapshot : Snapshot) (tree : SyntaxTree)
    (hmem : (snapshot, .ok tree) ∈ run parser ⟨service, []⟩ requests) :
    tree.text = snapshot.text ∧ tree.root = (parse snapshot.text).root ∧
      tree.lookahead = (parse snapshot.text).lookahead := by
  have htexts : ∀ r ∈ requests, ∀ s ∈ r.snapshots,
      textIn (requests.flatMap Request.snapshots) s.id = s.text :=
    fun r hr s hs => textIn_eq hids (List.mem_flatMap.mpr ⟨r, hr, hs⟩)
  obtain rfl : .start config state = service :=
    hservice.elim (fun hmade => (Service.create_eq_ok_iff.mp hmade).2) id
  have hstart : Right (textIn (requests.flatMap Request.snapshots))
      (⟨.start config state, []⟩ : Client σ) := ⟨VersionedCache.all_empty _, by simp⟩
  have htree := eq_parse_of_mem_run hparser hstart htexts hedits hmem
  exact ⟨congrArg SyntaxTree.text htree, congrArg SyntaxTree.root htree,
    congrArg SyntaxTree.lookahead htree⟩

/-- Two versions, the later one parsed from the earlier one, with room for one computation. -/
theorem run_matches_parse_edited :
    let before := Snapshot.ofText ⟨⟨0⟩, 1⟩ "file:///a" "let a = 1".toList
    let after := Snapshot.ofText ⟨⟨0⟩, 2⟩ "file:///a" "let a = 12".toList
    let edits : EditSet := ⟨[.insert 9 "2".toList]⟩
    let requests : List Request := [.compute before, .register before after edits, .tree after]
    let tree := (reparse after.text (parse before.text) edits).1
    let c : Client Parser.PlannedFailures := ⟨.start ⟨1⟩ ⟨false, false⟩, []⟩
    (Service.create ⟨1⟩ ⟨false, false⟩ = .ok c.service ∧
      (∀ a ∈ requests.flatMap Request.snapshots, ∀ b ∈ requests.flatMap Request.snapshots,
        a.id = b.id → a.text = b.text) ∧
      (∀ r ∈ requests, r.Truthful) ∧ (after, .ok tree) ∈ run .failing c requests) ∧
      tree.text = after.text ∧ tree.root = (parse after.text).root ∧
        tree.lookahead = (parse after.text).lookahead := by
  intro before after edits requests tree c
  have hservice : Service.create ⟨1⟩ ⟨false, false⟩ = .ok c.service :=
    Service.create_eq_ok_iff.mpr ⟨by decide, rfl⟩
  have hids : ∀ a ∈ requests.flatMap Request.snapshots, ∀ b ∈ requests.flatMap Request.snapshots,
      a.id = b.id → a.text = b.text := by decide
  have hedits : ∀ r ∈ requests, r.Truthful := by decide
  have hfits : edits.checkFits before.text = .ok () := by decide
  have hrun : run .failing c requests = [(after, .ok tree)] := by
    simp only [run, requests, answer, Service.registerEdit, hfits]
    rfl
  have hmem : (after, .ok tree) ∈ run .failing c requests := by
    rw [hrun]
    exact List.mem_singleton_self _
  exact ⟨⟨hservice, hids, hedits, hmem⟩, run_matches_parse Parser.failing_mayFail ⟨1⟩
    ⟨false, false⟩ c.service (.inl hservice) requests hids hedits after tree hmem⟩

end Client

end IncrementalSyntax
