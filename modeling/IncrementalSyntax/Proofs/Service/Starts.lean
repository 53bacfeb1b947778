import Mathlib.Data.List.Nodup
import IncrementalSyntax.Proofs.Service.Versions

/-!
Computations that requests start. A request starts a computation if it asks for one that is not
kept, or if it registers an edit of a version that is; `compute_cases` and `register_cases` say all
that such requests can do. From them follows what is kept after a request (`all_answer`), that
whatever is kept or handed out has been started for that version (`Accounted`), and that a
computation is not replaced by another one for as long as its version is kept (`get?_after`).
-/
namespace IncrementalSyntax

/-- A computation that has been started: for a snapshot and, after an edit, from a base. -/
structure Start where
  snapshot : Snapshot
  base : Option (Computation × EditSet)
  computation : Computation

namespace Service

variable {σ : Type} {parser : Parser σ}

theorem running_startFull (s : Service σ) (snapshot : Snapshot) :
    (startFull parser s snapshot).2.running = s.running := by
  rw [startFull]
  split <;> rfl

theorem running_startIncremental (s : Service σ) (base : Computation) (after : Snapshot)
    (edits : EditSet) : (startIncremental parser s base after edits).2.2.running = s.running := by
  rw [startIncremental]
  split
  next =>
    simp only [await]
    split <;> rfl
  next => rfl

/-- The service after a look into the cache that found nothing. -/
def missed (s : Service σ) : Service σ :=
  { s with counters := { s.counters with cacheMisses := s.counters.cacheMisses + 1 } }

def hit (s : Service σ) (cache : VersionedCache Computation) : Service σ :=
  { s with cache, counters := { s.counters with cacheHits := s.counters.cacheHits + 1 } }

theorem computationFor_of_some {s : Service σ} {snapshot : Snapshot} {c : Computation}
    {cache : VersionedCache Computation} (parser : Parser σ)
    (hget : s.cache.get? snapshot.id = (some c, cache)) :
    computationFor parser s snapshot = (c, s.hit cache) := by
  simp only [computationFor, hget]
  rfl

theorem computationFor_of_none {s : Service σ} {snapshot : Snapshot} (parser : Parser σ)
    (hget : (s.cache.get? snapshot.id).1 = none) :
    computationFor parser s snapshot =
      let started := startFull parser s.missed snapshot
      if s.cache.hasNewer snapshot.id then started
      else (started.1, { started.2 with cache := s.cache.insert snapshot.id started.1 }) := by
  cases hpair : s.cache.get? snapshot.id with | mk found cache
  obtain rfl : found = none := by rw [← hget, hpair]
  simp only [computationFor, hpair, cache_startFull]
  rfl

end Service

namespace VersionedCache

variable {α : Type} {c : VersionedCache α} {key : SnapshotId} {a : α}

theorem get?_insert_self (c : VersionedCache α) (key : SnapshotId) (a : α) :
    ((c.insert key a).get? key).1 = some a := by
  rw [get?, RecencyCache.get?_fst]
  exact RecencyCache.peek?_insert_self _ key a

/-- If keys have one entry each, the value that is found is that of the entry. -/
theorem get?_of_mem (hnodup : c.keys.Nodup) (hmem : (key, a) ∈ c.entries.entries) :
    (c.get? key).1 = some a := by
  rw [get?, RecencyCache.get?_fst]
  exact RecencyCache.peek?_of_mem hnodup hmem

theorem not_mem_keys_of_get? (h : (c.get? key).1 = none) : key ∉ c.keys := by
  rw [get?, RecencyCache.get?_fst] at h
  exact RecencyCache.not_mem_keys_of_peek? h

end VersionedCache

namespace Client

variable {σ : Type} {parser : Parser σ} {c : Client σ} {request : Request} {x : Start}

@[simp] theorem after_nil (parser : Parser σ) (c : Client σ) : after parser c [] = c := rfl

/-- The computation that a request starts, if it starts one: the one that is handed out if none was
kept, and the one that an edit has put in the place of its base. -/
def startedBy (parser : Parser σ) (c : Client σ) : Request → Option Start
  | .tree snapshot | .compute snapshot =>
    match (c.service.cache.get? snapshot.id).1 with
    | some _ => none
    | none => some ⟨snapshot, none, (c.service.computationFor parser snapshot).1⟩
  | .register before after edits =>
    match c.service.registerEdit parser before after edits, (c.service.cache.get? before.id).1 with
    | .ok (.incremental, _, service), some base =>
      (service.cache.get? after.id).1.map fun started => ⟨after, some (base, edits), started⟩
    | _, _ => none
  | .await _ | .clear _ | .observe _ | .shutdown => none

def started (parser : Parser σ) (c : Client σ) : List Request → List Start
  | [] => []
  | r :: rs => (c.startedBy parser r).toList ++ started parser (c.answer parser r).2 rs

/-- What a request for a computation can do: hand out the one that is kept, or start a full parse
and keep it or not. -/
theorem compute_cases (parser : Parser σ) (c : Client σ) (snapshot : Snapshot) :
    (∃ computation cache, c.service.cache.get? snapshot.id = (some computation, cache) ∧
        c.startedBy parser (.compute snapshot) = none ∧
        c.service.computationFor parser snapshot = (computation, c.service.hit cache)) ∨
      (c.service.cache.get? snapshot.id).1 = none ∧
        let started := Service.startFull parser c.service.missed snapshot
        c.startedBy parser (.compute snapshot) = some ⟨snapshot, none, started.1⟩ ∧
          (c.service.computationFor parser snapshot = started ∨
            c.service.computationFor parser snapshot = (started.1,
              { started.2 with cache := c.service.cache.insert snapshot.id started.1 })) := by
  cases hfound : (c.service.cache.get? snapshot.id).1 with
  | some computation =>
    refine .inl ⟨computation, (c.service.cache.get? snapshot.id).2, ?_, ?_, ?_⟩
    · rw [← hfound]
    · simp only [startedBy, hfound]
    · exact Service.computationFor_of_some parser (by rw [← hfound])
  | none =>
    have hcompute := Service.computationFor_of_none parser hfound
    refine .inr ⟨rfl, ?_, ?_⟩
    · simp only [startedBy, hfound, hcompute]
      split <;> rfl
    · rw [hcompute]
      simp only
      split
      next => exact .inl rfl
      next => exact .inr rfl

/-- What an edit can do: nothing, or start an incremental parse from the computation that is kept
for an earlier version. -/
theorem register_cases (parser : Parser σ) (c : Client σ) (before after : Snapshot)
    (edits : EditSet) :
    c.startedBy parser (.register before after edits) = none ∧
        (c.answer parser (.register before after edits)).2 = c ∨
      ∃ base cache, c.service.cache.get? before.id = (some base, cache) ∧
        before.id.precedes after.id = true ∧
        let started := Service.startIncremental parser { c.service with cache } base after edits
        c.startedBy parser (.register before after edits) =
            some ⟨after, some (base, edits), started.1⟩ ∧
          (c.answer parser (.register before after edits)).2 =
            { c with service :=
              { started.2.2 with cache := started.2.2.cache.insert after.id started.1 } } := by
  cases hregister : c.service.registerEdit parser before after edits with
  | error e => exact .inl ⟨by simp only [startedBy, hregister], by simp only [answer, hregister]⟩
  | ok result =>
    rcases Service.registerEdit_cases hregister with rfl | ⟨base, cache, hget, rfl⟩
    · exact .inl ⟨by simp only [startedBy, hregister], by simp only [answer, hregister]⟩
    · refine .inr ⟨base, cache, hget, Service.precedes_of_registerEdit hregister, ?_, ?_⟩
      · simp only [startedBy, hregister, hget, VersionedCache.get?_insert_self, Option.map_some]
      · simp only [answer, hregister]

/-- An edit gives no result and leaves the computations of the client. -/
theorem answer_register (parser : Parser σ) (c : Client σ) (before after : Snapshot)
    (edits : EditSet) :
    (c.answer parser (.register before after edits)).1 = none ∧
      (c.answer parser (.register before after edits)).2.handles = c.handles := by
  rw [answer]
  split <;> exact ⟨rfl, rfl⟩

theorem running_answer (parser : Parser σ) (c : Client σ) (hrequest : request ≠ .shutdown) :
    (c.answer parser request).2.service.running = c.service.running := by
  have hcompute (snapshot : Snapshot) :
      (c.service.computationFor parser snapshot).2.running = c.service.running := by
    obtain ⟨computation, cache, -, -, heq⟩ | ⟨-, -, heq | heq⟩ := compute_cases parser c snapshot
    · rw [heq]
      rfl
    · rw [heq, Service.running_startFull]
      rfl
    · rw [heq]
      exact Service.running_startFull c.service.missed snapshot
  cases request with
  | tree snapshot => exact hcompute snapshot
  | compute snapshot => exact hcompute snapshot
  | await handle =>
    rw [answer]
    split <;> rfl
  | register before after edits =>
    obtain ⟨-, hsame⟩ | ⟨base, cache, -, -, -, hnext⟩ := register_cases parser c before after edits
    · rw [hsame]
    · rw [hnext]
      exact Service.running_startIncremental { c.service with cache } base after edits
  | clear document => rfl
  | observe on => rfl
  | shutdown => exact absurd rfl hrequest

theorem running_after (parser : Parser σ) {c : Client σ} {requests : List Request}
    (hrequests : .shutdown ∉ requests) :
    (after parser c requests).service.running = c.service.running := by
  induction requests generalizing c with
  | nil => rfl
  | cons r rs ih =>
    rw [List.mem_cons, not_or] at hrequests
    exact (ih hrequests.2).trans (running_answer parser c (Ne.symm hrequests.1))

/-- Where a computation comes from: a snapshot of the request that is not kept, or one that an edit
leads to from an earlier version that is. -/
theorem startedBy_cases (hx : c.startedBy parser request = some x) :
    ∃ snapshot ∈ request.snapshots,
      (c.service.cache.get? snapshot.id).1 = none ∧
          x = ⟨snapshot, none, (Service.startFull parser c.service.missed snapshot).1⟩ ∨
        ∃ before edits base cache, c.service.cache.get? before = (some base, cache) ∧
          before.precedes snapshot.id = true ∧
          x = ⟨snapshot, some (base, edits),
            (Service.startIncremental parser { c.service with cache } base snapshot edits).1⟩ := by
  have hcompute (snapshot : Snapshot) (hx : c.startedBy parser (.compute snapshot) = some x) :
      (c.service.cache.get? snapshot.id).1 = none ∧
        x = ⟨snapshot, none, (Service.startFull parser c.service.missed snapshot).1⟩ := by
    obtain ⟨computation, cache, -, hnone, -⟩ | ⟨hmiss, hsome, -⟩ := compute_cases parser c snapshot
    · rw [hnone] at hx
      simp at hx
    · exact ⟨hmiss, Option.some.inj (hx.symm.trans hsome)⟩
  cases request with
  | tree snapshot => exact ⟨snapshot, List.mem_singleton_self _, .inl (hcompute snapshot hx)⟩
  | compute snapshot => exact ⟨snapshot, List.mem_singleton_self _, .inl (hcompute snapshot hx)⟩
  | register before after edits =>
    obtain ⟨hnone, -⟩ | ⟨base, cache, hget, hprecedes, hsome, -⟩ :=
      register_cases parser c before after edits
    · rw [hnone] at hx
      simp at hx
    · exact ⟨after, by simp [Request.snapshots], .inr ⟨before.id, edits, base, cache, hget,
        hprecedes, Option.some.inj (hx.symm.trans hsome)⟩⟩
  | await handle => simp [startedBy] at hx
  | clear document => simp [startedBy] at hx
  | observe on => simp [startedBy] at hx
  | shutdown => simp [startedBy] at hx

/-- A computation that is started is for a version that is not kept: none is, or the one that is
kept is an earlier one. -/
theorem not_mem_keys_of_startedBy {capacity : Nat} (h : c.service.cache.Proper capacity)
    (hx : c.startedBy parser request = some x) : x.snapshot.id ∉ c.service.cache.keys := by
  obtain ⟨snapshot, -, ⟨hmiss, rfl⟩ | ⟨before, edits, base, cache, hget, hprecedes, rfl⟩⟩ :=
    startedBy_cases hx
  · exact VersionedCache.not_mem_keys_of_get? hmiss
  · -- the base is the one entry of its document, so a later version has none
    intro hmem
    obtain ⟨hdocument, hversion⟩ := SnapshotId.precedes_iff.mp hprecedes
    have hbefore := VersionedCache.mem_keys_of_get? (congrArg Prod.fst hget)
    rw [h.eq_of_document_eq hbefore hmem hdocument] at hversion
    exact Int.lt_irrefl _ hversion

/-- A base is what is kept for an earlier version. -/
theorem base_of_startedBy {P : SnapshotId → Computation → Prop} (h : c.service.cache.All P)
    (hx : c.startedBy parser request = some x) {base : Computation} {edits : EditSet}
    (hbase : x.base = some (base, edits)) :
    ∃ id, P id base ∧ id.precedes x.snapshot.id = true := by
  obtain ⟨snapshot, -, ⟨-, rfl⟩ | ⟨before, edits, found, cache, hget, hprecedes, rfl⟩⟩ :=
    startedBy_cases hx
  · simp at hbase
  · obtain ⟨rfl, -⟩ := Prod.mk.inj (Option.some.inj hbase)
    exact ⟨before, (h.get? hget).1 found rfl, hprecedes⟩

/-- What is kept after a request for a computation has a property if it had it before and what the
request starts has it. -/
theorem all_computationFor {P : SnapshotId → Computation → Prop} {snapshot : Snapshot}
    (h : c.service.cache.All P)
    (hnew : ∀ x, c.startedBy parser (.compute snapshot) = some x → P x.snapshot.id x.computation) :
    P snapshot.id (c.service.computationFor parser snapshot).1 ∧
      (c.service.computationFor parser snapshot).2.cache.All P := by
  obtain ⟨computation, cache, hget, -, heq⟩ | ⟨-, hsome, heq⟩ :=
    compute_cases parser c snapshot
  · obtain ⟨hfound, hrest⟩ := h.get? hget
    rw [heq]
    exact ⟨hfound computation rfl, hrest⟩
  · have hstarted := hnew _ hsome
    obtain heq | heq := heq
    · rw [heq]
      exact ⟨hstarted, by rw [Service.cache_startFull]; exact h⟩
    · rw [heq]
      exact ⟨hstarted, h.insert hstarted⟩

theorem all_answer {P : SnapshotId → Computation → Prop} (h : c.service.cache.All P)
    (hnew : ∀ x, c.startedBy parser request = some x → P x.snapshot.id x.computation) :
    (c.answer parser request).2.service.cache.All P := by
  cases request with
  | tree snapshot => exact (all_computationFor h hnew).2
  | compute snapshot => exact (all_computationFor h hnew).2
  | await handle =>
    rw [answer]
    split <;> exact h
  | register before after edits =>
    obtain ⟨-, hsame⟩ | ⟨base, cache, hget, -, hsome, hnext⟩ :=
      register_cases parser c before after edits
    · rw [hsame]
      exact h
    · rw [hnext, Service.cache_startIncremental]
      exact (h.get? hget).2.insert (hnew _ hsome)
  | clear document => exact h.eraseAll fun k => decide (k.document = document)
  | observe on => exact h
  | shutdown => exact h

/-- The computation is one of those that have been started, for a snapshot with the given id. -/
def Known (starts : List Start) (id : SnapshotId) (computation : Computation) : Prop :=
  ∃ x ∈ starts, x.snapshot.id = id ∧ x.computation = computation

theorem Known.append {starts : List Start} {id : SnapshotId} {computation : Computation}
    (h : Known starts id computation) (more : List Start) :
    Known (starts ++ more) id computation := by
  obtain ⟨y, hy, heq⟩ := h
  exact ⟨y, List.mem_append_left more hy, heq⟩

theorem known_last (starts : List Start) {o : Option Start} (h : o = some x) :
    Known (starts ++ o.toList) x.snapshot.id x.computation := by
  rw [h]
  exact ⟨x, List.mem_append_right starts (List.mem_singleton_self x), rfl, rfl⟩

/-- Whatever the service and the client keep has been started, and whatever has been started from a
base has been so from an earlier version. -/
structure Accounted (starts : List Start) (c : Client σ) : Prop where
  cached : c.service.cache.All (Known starts)
  handles : ∀ h ∈ c.handles, Known starts h.1.id h.2
  bases : ∀ x ∈ starts, ∀ base edits, x.base = some (base, edits) →
    ∃ id, Known starts id base ∧ id.precedes x.snapshot.id = true

/-- The step lemma for what is handed out: a result is that of a computation that has been started
for the same version. -/
theorem Accounted.answer {starts : List Start} (h : c.Accounted starts) (parser : Parser σ)
    (request : Request) :
    (c.answer parser request).2.Accounted (starts ++ (c.startedBy parser request).toList) ∧
      ∀ snapshot result, (c.answer parser request).1 = some (snapshot, result) →
        ∃ computation,
          Known (starts ++ (c.startedBy parser request).toList) snapshot.id computation ∧
          computation.result = result := by
  have hcached : c.service.cache.All (Known (starts ++ (c.startedBy parser request).toList)) :=
    fun e he => (h.cached e he).append _
  have hhandles : ∀ e ∈ c.handles,
      Known (starts ++ (c.startedBy parser request).toList) e.1.id e.2 :=
    fun e he => (h.handles e he).append _
  have hnew := fun x (hx : c.startedBy parser request = some x) => known_last starts hx
  have hnext := all_answer hcached hnew
  have hbases : ∀ x ∈ starts ++ (c.startedBy parser request).toList, ∀ base edits,
      x.base = some (base, edits) →
        ∃ id, Known (starts ++ (c.startedBy parser request).toList) id base ∧
          id.precedes x.snapshot.id = true := by
    intro x hx base edits hbase
    obtain hx | hx := List.mem_append.mp hx
    · obtain ⟨id, hknown, hprecedes⟩ := h.bases x hx base edits hbase
      exact ⟨id, hknown.append _, hprecedes⟩
    · exact base_of_startedBy hcached (Option.mem_toList.mp hx) hbase
  cases request with
  | tree snapshot =>
    refine ⟨⟨hnext, hhandles, hbases⟩, ?_⟩
    intro s result hresult
    obtain ⟨rfl, rfl⟩ := Prod.mk.inj (Option.some.inj hresult)
    exact ⟨_, (all_computationFor hcached hnew).1, rfl⟩
  | compute snapshot =>
    refine ⟨⟨hnext, ?_, hbases⟩, by simp [Client.answer]⟩
    intro e he
    obtain he | he := List.mem_append.mp he
    · exact hhandles e he
    · rw [List.mem_singleton.mp he]
      exact (all_computationFor hcached hnew).1
  | await handle =>
    rw [Client.answer] at hnext ⊢
    split
    next s computation hget =>
      rw [hget] at hnext
      refine ⟨⟨hnext, hhandles, hbases⟩, ?_⟩
      intro t result hresult
      obtain ⟨rfl, rfl⟩ := Prod.mk.inj (Option.some.inj hresult)
      exact ⟨computation, hhandles _ (List.mem_of_getElem? hget), rfl⟩
    next hget =>
      rw [hget] at hnext
      exact ⟨⟨hnext, hhandles, hbases⟩, by simp⟩
  | register before after edits =>
    obtain ⟨hsilent, hsame⟩ := answer_register parser c before after edits
    rw [hsilent]
    exact ⟨⟨hnext, by rw [hsame]; exact hhandles, hbases⟩, by simp⟩
  | clear document => exact ⟨⟨hnext, hhandles, hbases⟩, by simp [Client.answer]⟩
  | observe on => exact ⟨⟨hnext, hhandles, hbases⟩, by simp [Client.answer]⟩
  | shutdown => exact ⟨⟨hnext, hhandles, hbases⟩, by simp [Client.answer]⟩

theorem Accounted.after {starts : List Start} (h : c.Accounted starts) (parser : Parser σ)
    (requests : List Request) :
    (after parser c requests).Accounted (starts ++ started parser c requests) ∧
      ∀ snapshot result, (snapshot, result) ∈ run parser c requests →
        ∃ computation, Known (starts ++ started parser c requests) snapshot.id computation ∧
          computation.result = result := by
  induction requests generalizing c starts with
  | nil =>
    rw [started, List.append_nil]
    exact ⟨h, by simp [run]⟩
  | cons r rs ih =>
    obtain ⟨hnext, hresult⟩ := h.answer parser r
    obtain ⟨hrest, hresults⟩ := ih hnext
    rw [started, ← List.append_assoc]
    refine ⟨hrest, ?_⟩
    intro snapshot result hmem
    obtain hmem | hmem := List.mem_append.mp hmem
    · obtain ⟨computation, hknown, heq⟩ := hresult snapshot result (Option.mem_toList.mp hmem)
      exact ⟨computation, hknown.append _, heq⟩
    · exact hresults snapshot result hmem

/-- The step lemma for what stays: a computation that is kept is not replaced by another one for the
same version. -/
theorem get?_answer {capacity : Nat} (h : c.service.cache.Proper capacity) {id : SnapshotId}
    {computation : Computation} (hfound : (c.service.cache.get? id).1 = some computation)
    (hkept : id ∈ (c.answer parser request).2.service.cache.keys) :
    ((c.answer parser request).2.service.cache.get? id).1 = some computation := by
  have hproper : (c.answer parser request).2.service.cache.Proper capacity :=
    (h.step (cache_answer c request)).1
  -- an entry after the request is an old one, or one for a version that was not kept before
  have hall : (c.answer parser request).2.service.cache.All fun k a =>
      (k, a) ∈ c.service.cache.entries.entries ∨ k ∉ c.service.cache.keys :=
    all_answer (fun e he => .inl he) fun x hx => .inr (not_mem_keys_of_startedBy h hx)
  obtain ⟨e, he, rfl⟩ := List.mem_map.mp hkept
  obtain hold | hnew := hall e he
  · have hsame := VersionedCache.get?_of_mem h.distinct.of_map hold
    obtain rfl := Option.some.inj (hsame.symm.trans hfound)
    exact VersionedCache.get?_of_mem hproper.distinct.of_map he
  · exact absurd (VersionedCache.mem_keys_of_get? hfound) hnew

theorem get?_after {capacity : Nat} (h : c.service.cache.Proper capacity) {id : SnapshotId}
    {computation : Computation} (hfound : (c.service.cache.get? id).1 = some computation)
    {requests : List Request}
    (hkept : ∀ front, front <+: requests → id ∈ (after parser c front).service.cache.keys) :
    ((after parser c requests).service.cache.get? id).1 = some computation := by
  induction requests generalizing c with
  | nil => exact hfound
  | cons r rs ih =>
    have hproper : (c.answer parser r).2.service.cache.Proper capacity :=
      (h.step (cache_answer c r)).1
    have hfirst := hkept [r] (List.cons_prefix_cons.mpr ⟨rfl, List.nil_prefix⟩)
    refine ih hproper (get?_answer h hfound hfirst) ?_
    intro front hfront
    exact hkept (r :: front) (List.cons_prefix_cons.mpr ⟨rfl, hfront⟩)

/-- What is kept is handed out as it is, without a call. -/
theorem answer_of_get? {snapshot : Snapshot} {computation : Computation}
    (hfound : (c.service.cache.get? snapshot.id).1 = some computation) :
    (c.answer parser (.tree snapshot)).1 = some (snapshot, computation.result) ∧
      (c.answer parser (.tree snapshot)).2.service.parserState = c.service.parserState ∧
      (c.answer parser (.compute snapshot)).2.handles = c.handles ++ [(snapshot, computation)] ∧
      (c.answer parser (.compute snapshot)).2.service.parserState = c.service.parserState := by
  obtain ⟨kept, cache, hget, -, heq⟩ | ⟨hnone, -⟩ := compute_cases parser c snapshot
  · obtain rfl := Option.some.inj ((congrArg Prod.fst hget).symm.trans hfound)
    simp only [answer, Service.treeFor, Service.await, heq]
    exact ⟨trivial, rfl, trivial, rfl⟩
  · rw [hnone] at hfound
    simp at hfound

end Client

end IncrementalSyntax
