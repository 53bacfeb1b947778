import Mathlib.Data.List.Nodup
import IncrementalSyntax.Proofs.Service.Results

/-!
Which versions a service keeps. A cache by itself holds several versions of one document, if an
older one is entered after a newer one. A service never does that: it enters a version only if no
newer one is there, and an edit leads to a version that is newer than the one it starts from. So
there is one version of each document at most, and it never goes back. `VersionedCache.Step` says
what a request can do to the cache, `Proper` is the invariant, and `run_keeps_latest` draws the
conclusion for whole runs.
-/
namespace IncrementalSyntax

namespace VersionedCache

variable {α : Type} {c c' : VersionedCache α} {key : SnapshotId} {a : α}

theorem size_eq (c : VersionedCache α) : c.size = c.keys.length := by
  simp [size, RecencyCache.size, keys, RecencyCache.keys]

theorem capacity_get? (c : VersionedCache α) (key : SnapshotId) :
    (c.get? key).2.capacity = c.capacity := by
  simp only [get?, RecencyCache.get?]
  split <;> rfl

/-- A look that finds nothing leaves the cache as it was. -/
theorem get?_of_none (h : (c.get? key).1 = none) : (c.get? key).2 = c := by
  simp only [get?] at h ⊢
  rw [RecencyCache.get?_of_none h]

theorem keys_get?_of_some (h : (c.get? key).1 = some a) :
    (c.get? key).2.keys = c.keys.filter (fun k => decide (k ≠ key)) ++ [key] :=
  RecencyCache.keys_get?_of_some h

theorem mem_keys_of_get? (h : (c.get? key).1 = some a) : key ∈ c.keys :=
  List.mem_map.mpr ⟨(key, a), RecencyCache.mem_of_get? h, rfl⟩

theorem keys_get?_perm (hnodup : c.keys.Nodup) (key : SnapshotId) :
    (c.get? key).2.keys.Perm c.keys := by
  cases hfound : (c.get? key).1 with
  | none => rw [get?_of_none hfound]
  | some a =>
    have hmem := mem_keys_of_get? hfound
    rw [keys_get?_of_some hfound]
    refine (List.perm_ext_iff_of_nodup ?_ hnodup).mpr ?_
    · refine List.Nodup.append (hnodup.filter _) (List.nodup_singleton key) ?_
      simp [List.Disjoint]
    · intro k
      by_cases hk : k = key
      · simp [hk, hmem]
      · simp [hk]

/-- The keys that stay when a version is entered and there is room. -/
def unsuperseded (c : VersionedCache α) (key : SnapshotId) : List SnapshotId :=
  c.keys.filter fun k => !k.isSupersededBy key

/-- The versions that the new one supersedes leave, and then the least recent keys as far as there
is no room for them. -/
theorem keys_insert (c : VersionedCache α) (key : SnapshotId) (a : α) :
    (c.insert key a).keys =
      (c.unsuperseded key).drop ((c.unsuperseded key).length + 1 - c.capacity) ++ [key] := by
  have hself : key.isSupersededBy key = true :=
    SnapshotId.isSupersededBy_iff.mpr ⟨rfl, Int.le_refl _⟩
  have hothers : ((c.entries.eraseAll fun k => k.isSupersededBy key).2.keys.filter
      fun k => decide (k ≠ key)) = c.unsuperseded key := by
    rw [RecencyCache.keys_eraseAll, List.filter_filter]
    apply List.filter_congr
    intro k _
    by_cases hk : k = key
    · simp [hk, hself]
    · simp [hk]
  have hkeys := RecencyCache.keys_insert (c.entries.eraseAll fun k => k.isSupersededBy key).2 key a
  rw [hothers] at hkeys
  exact hkeys

theorem hasNewer_eq_false_iff :
    c.hasNewer key = false ↔
      ∀ k ∈ c.keys, k.document = key.document → k.version ≤ key.version := by
  simp only [hasNewer, List.any_eq_false, SnapshotId.precedes_iff]
  constructor
  · intro h k hk hdocument
    exact Int.not_lt.mp fun hversion => h k hk ⟨hdocument.symm, hversion⟩
  · rintro h k hk ⟨hdocument, hversion⟩
    exact Int.not_lt.mpr (h k hk hdocument.symm) hversion

/-- There is room for all entries, and no two of them are for one document. -/
structure Proper (capacity : Nat) (c : VersionedCache α) : Prop where
  capacity_eq : c.capacity = max capacity 1
  size_le : c.size ≤ max capacity 1
  distinct : (c.keys.map SnapshotId.document).Nodup

theorem proper_empty (capacity : Nat) : (empty capacity : VersionedCache α).Proper capacity :=
  ⟨rfl, Nat.zero_le _, List.nodup_nil⟩

/-- No version of a document is older after a step than it was before it. -/
def Advances (c c' : VersionedCache α) : Prop :=
  ∀ before ∈ c.keys, ∀ after ∈ c'.keys,
    before.document = after.document → before.version ≤ after.version

/-- What a request can do to a cache. -/
inductive Step : VersionedCache α → VersionedCache α → Prop where
  | stay (c : VersionedCache α) : Step c c
  | use (c : VersionedCache α) (key : SnapshotId) : Step c (c.get? key).2
  /-- A version is entered if there is none that is newer. -/
  | enter {c : VersionedCache α} {key : SnapshotId} (a : α) (h : c.hasNewer key = false) :
      Step c (c.insert key a)
  /-- A version is entered after an older one has been used. -/
  | replace {c : VersionedCache α} {before after : SnapshotId} {base : α} (a : α)
      (hbase : (c.get? before).1 = some base) (h : before.precedes after = true) :
      Step c ((c.get? before).2.insert after a)
  | erase (c : VersionedCache α) (p : SnapshotId → Bool) : Step c (c.eraseAll p).2

namespace Proper

variable {capacity : Nat}

/-- A document is known by its one key. -/
theorem eq_of_document_eq (h : c.Proper capacity) {k l : SnapshotId} (hk : k ∈ c.keys)
    (hl : l ∈ c.keys) (hdocument : k.document = l.document) : k = l :=
  List.inj_on_of_nodup_map h.distinct hk hl hdocument

theorem get? (h : c.Proper capacity) (key : SnapshotId) :
    (c.get? key).2.Proper capacity ∧ ∀ k, k ∈ (c.get? key).2.keys ↔ k ∈ c.keys := by
  have hperm := keys_get?_perm h.distinct.of_map key
  refine ⟨⟨?_, ?_, ?_⟩, fun k => hperm.mem_iff⟩
  · rw [capacity_get?, h.capacity_eq]
  · rw [size_eq, hperm.length_eq, ← size_eq]
    exact h.size_le
  · exact (hperm.map SnapshotId.document).nodup_iff.mpr h.distinct

/-- A version that no newer one stands against takes the place of its document's entry. -/
theorem insert (h : c.Proper capacity) (hnewest : c.hasNewer key = false) (a : α) :
    (c.insert key a).Proper capacity ∧ c.Advances (c.insert key a) := by
  have hkeys := keys_insert c key a
  rw [hasNewer_eq_false_iff] at hnewest
  have hsub : ((c.unsuperseded key).drop
      ((c.unsuperseded key).length + 1 - c.capacity)).Sublist (c.unsuperseded key) :=
    List.drop_sublist _ _
  -- every older or equal version of the document is superseded, so none of the document is left
  have hother : ∀ k ∈ c.unsuperseded key, k.document ≠ key.document := by
    intro k hk hdocument
    obtain ⟨hmem, hsuperseded⟩ := List.mem_filter.mp hk
    have hle := hnewest k hmem hdocument
    simp [SnapshotId.isSupersededBy_iff.mpr ⟨hdocument, hle⟩] at hsuperseded
  refine ⟨⟨h.capacity_eq, ?_, ?_⟩, ?_⟩
  · have hcapacity := h.capacity_eq
    rw [size_eq, hkeys, List.length_append, List.length_drop, List.length_singleton]
    omega
  · have hleft := (List.Sublist.map SnapshotId.document
      (hsub.trans List.filter_sublist)).nodup h.distinct
    rw [hkeys, List.map_append]
    refine List.Nodup.append hleft (List.nodup_singleton _) ?_
    intro d hd hsingle
    obtain ⟨k, hk, rfl⟩ := List.mem_map.mp hd
    exact hother k (hsub.subset hk) (List.mem_singleton.mp hsingle)
  · intro before hbefore after hafter hdocument
    rw [hkeys] at hafter
    rcases List.mem_append.mp hafter with hafter | hafter
    · have hmem := (List.mem_filter.mp (hsub.subset hafter)).1
      obtain rfl := h.eq_of_document_eq hbefore hmem hdocument
      exact Int.le_refl _
    · obtain rfl := List.mem_singleton.mp hafter
      exact hnewest before hbefore hdocument

theorem eraseAll (h : c.Proper capacity) (p : SnapshotId → Bool) :
    (c.eraseAll p).2.Proper capacity ∧ ∀ k ∈ (c.eraseAll p).2.keys, k ∈ c.keys := by
  have hkeys : (c.eraseAll p).2.keys = c.keys.filter fun k => !p k :=
    RecencyCache.keys_eraseAll c.entries p
  have hsub : (c.eraseAll p).2.keys.Sublist c.keys := by
    rw [hkeys]
    exact List.filter_sublist
  refine ⟨⟨h.capacity_eq, ?_, (hsub.map _).nodup h.distinct⟩, fun k hk => hsub.subset hk⟩
  have hsize := h.size_le
  rw [size_eq] at hsize ⊢
  exact Nat.le_trans hsub.length_le hsize

theorem advances_of_subset (h : c.Proper capacity) (hsub : ∀ k ∈ c'.keys, k ∈ c.keys) :
    c.Advances c' := by
  intro before hbefore after hafter hdocument
  obtain rfl := h.eq_of_document_eq hbefore (hsub after hafter) hdocument
  exact Int.le_refl _

/-- An older version that has been found is the only one of its document, so what is newer than it
is newest. -/
theorem hasNewer_of_precedes (h : c.Proper capacity) {before after : SnapshotId}
    (hbefore : before ∈ c.keys) (hprecedes : before.precedes after = true) :
    c.hasNewer after = false := by
  obtain ⟨hdocument, hversion⟩ := SnapshotId.precedes_iff.mp hprecedes
  refine hasNewer_eq_false_iff.mpr fun k hk hk' => ?_
  obtain rfl := h.eq_of_document_eq hk hbefore (hk'.trans hdocument.symm)
  exact Int.le_of_lt hversion

/-- The step lemma: a request keeps the cache proper and takes no document back. -/
theorem step (h : c.Proper capacity) (hstep : Step c c') :
    c'.Proper capacity ∧ c.Advances c' := by
  cases hstep with
  | stay => exact ⟨h, h.advances_of_subset fun _ hk => hk⟩
  | use key =>
    obtain ⟨hproper, hmem⟩ := h.get? key
    exact ⟨hproper, h.advances_of_subset fun k hk => (hmem k).mp hk⟩
  | enter a hnewest => exact h.insert hnewest a
  | @replace before after base a hbase hprecedes =>
    obtain ⟨hproper, hmem⟩ := h.get? before
    have hbefore := (hmem before).mpr (mem_keys_of_get? hbase)
    have hnewest := hproper.hasNewer_of_precedes hbefore hprecedes
    obtain ⟨hproper', hadvances⟩ := hproper.insert hnewest a
    exact ⟨hproper', fun k hk => hadvances k ((hmem k).mpr hk)⟩
  | erase p =>
    obtain ⟨hproper, hsub⟩ := h.eraseAll p
    exact ⟨hproper, h.advances_of_subset hsub⟩

/-- A version older than the one that is kept is not found. -/
theorem get?_of_newer (h : c.Proper capacity) {k : SnapshotId} (hk : k ∈ c.keys)
    (hdocument : key.document = k.document) (hversion : key.version < k.version) :
    c.get? key = (none, c) := by
  cases hfound : (c.get? key).1 with
  | none => exact Prod.ext hfound (get?_of_none hfound)
  | some a =>
    obtain rfl := h.eq_of_document_eq (mem_keys_of_get? hfound) hk hdocument
    omega

end Proper

end VersionedCache

namespace Service

variable {σ : Type} {parser : Parser σ} {s : Service σ}

theorem cache_computationFor (s : Service σ) (snapshot : Snapshot) :
    s.cache.Step (computationFor parser s snapshot).2.cache := by
  rw [computationFor]
  split
  next c cache hget =>
    have huse := VersionedCache.Step.use s.cache snapshot.id
    rwa [hget] at huse
  next cache hget =>
    simp only [cache_startFull]
    split
    next => simpa using VersionedCache.Step.stay s.cache
    next hnewer => exact .enter _ (by simpa using hnewer)

theorem precedes_of_registerEdit {before after : Snapshot} {edits : EditSet}
    {answer : Registration × List Reused × Service σ}
    (h : registerEdit parser s before after edits = .ok answer) :
    before.id.precedes after.id = true := by
  rw [registerEdit] at h
  split at h
  next => simp [throw, throwThe, MonadExceptOf.throw] at h
  next =>
    simp only [pure_eq_ok] at h
    split at h
    next => simp [throw, throwThe, MonadExceptOf.throw] at h
    next hprecedes => simpa using hprecedes

theorem cache_registerEdit {before after : Snapshot} {edits : EditSet}
    {answer : Registration × List Reused × Service σ}
    (h : registerEdit parser s before after edits = .ok answer) :
    s.cache.Step answer.2.2.cache := by
  have hprecedes := precedes_of_registerEdit h
  rcases registerEdit_cases h with rfl | ⟨base, cache, hget, rfl⟩
  · exact .stay s.cache
  · simp only [cache_startIncremental]
    have hreplace := VersionedCache.Step.replace
      (startIncremental parser { s with cache } base after edits).1
      (congrArg Prod.fst hget) hprecedes
    rwa [hget] at hreplace

/-- A full parse changes no count of looks into the cache, and takes the next ticket. -/
theorem startFull_eq (parser : Parser σ) (s : Service σ) (snapshot : Snapshot) :
    (startFull parser s snapshot).1.ticket = s.nextTicket ∧
      (startFull parser s snapshot).2.counters.cacheHits = s.counters.cacheHits ∧
      (startFull parser s snapshot).2.counters.cacheMisses = s.counters.cacheMisses := by
  rw [startFull]
  split <;> exact ⟨rfl, rfl, rfl⟩

/-- A snapshot with a newer version in the cache is parsed on its own, and the cache stays as it
is. -/
theorem computationFor_of_newer {capacity : Nat} (h : s.cache.Proper capacity)
    {snapshot : Snapshot} {k : SnapshotId} (hk : k ∈ s.cache.keys)
    (hdocument : snapshot.id.document = k.document) (hversion : snapshot.id.version < k.version) :
    (computationFor parser s snapshot).1.ticket = s.nextTicket ∧
      (computationFor parser s snapshot).2.cache = s.cache ∧
      (computationFor parser s snapshot).2.counters.cacheHits = s.counters.cacheHits ∧
      (computationFor parser s snapshot).2.counters.cacheMisses = s.counters.cacheMisses + 1 := by
  have hnewer : s.cache.hasNewer snapshot.id = true :=
    List.any_eq_true.mpr ⟨k, hk, SnapshotId.precedes_iff.mpr ⟨hdocument, hversion⟩⟩
  rw [computationFor, h.get?_of_newer hk hdocument hversion]
  simp only [cache_startFull, hnewer, if_true]
  obtain ⟨hticket, hhits, hmisses⟩ := startFull_eq parser
    { s with counters := { s.counters with cacheMisses := s.counters.cacheMisses + 1 } } snapshot
  exact ⟨hticket, trivial, hhits, hmisses⟩

end Service

namespace Client

variable {σ : Type} {parser : Parser σ}

def after (parser : Parser σ) (c : Client σ) (requests : List Request) : Client σ :=
  requests.foldl (fun c r => (c.answer parser r).2) c

theorem cache_answer (c : Client σ) (request : Request) :
    c.service.cache.Step (c.answer parser request).2.service.cache := by
  cases request with
  | tree snapshot => exact Service.cache_computationFor c.service snapshot
  | compute snapshot => exact Service.cache_computationFor c.service snapshot
  | await handle =>
    rw [answer]
    split <;> exact .stay _
  | register before after edits =>
    rw [answer]
    split
    next hregister => exact Service.cache_registerEdit hregister
    next => exact .stay _
  | clear document =>
    exact VersionedCache.Step.erase c.service.cache fun k => decide (k.document = document)
  | observe on => exact .stay _
  | shutdown => exact .stay _

theorem proper_after {capacity : Nat} {c : Client σ} (h : c.service.cache.Proper capacity)
    (requests : List Request) : (after parser c requests).service.cache.Proper capacity := by
  induction requests generalizing c with
  | nil => exact h
  | cons r rs ih => exact ih (h.step (cache_answer c r)).1

/-- Whatever the requests and whatever the parser does, a service keeps no more computations than
it has room for and one version of each document at most; no request takes a document back to an
older version; and a snapshot older than the version that is kept is parsed on its own, with no
effect on what is kept and on its order. All this is so of every service that can be made. -/
theorem run_keeps_latest (parser : Parser σ) (config : Config) (state : σ)
    (requests : List Request) :
    let c := after parser ⟨.start config state, []⟩ requests
    c.service.cache.size ≤ max 1 config.cacheCapacity ∧
      (c.service.cache.keys.map SnapshotId.document).Nodup ∧
      (∀ request, ∀ a ∈ c.service.cache.keys,
        ∀ b ∈ (c.answer parser request).2.service.cache.keys,
          a.document = b.document → a.version ≤ b.version) ∧
      (∀ snapshot : Snapshot, ∀ k ∈ c.service.cache.keys,
        snapshot.id.document = k.document → snapshot.id.version < k.version →
          let result := c.service.computationFor parser snapshot
          result.1.ticket = c.service.nextTicket ∧ result.2.cache = c.service.cache ∧
            result.2.counters.cacheHits = c.service.counters.cacheHits ∧
            result.2.counters.cacheMisses = c.service.counters.cacheMisses + 1) ∧
      ∀ made, Service.create config state = .ok made → after parser ⟨made, []⟩ requests = c := by
  intro c
  have hproper : c.service.cache.Proper config.cacheCapacity :=
    proper_after (VersionedCache.proper_empty _) requests
  refine ⟨?_, hproper.distinct, ?_, ?_, ?_⟩
  · rw [Nat.max_comm]
    exact hproper.size_le
  · intro request
    exact (hproper.step (cache_answer c request)).2
  · intro snapshot k hk hdocument hversion
    exact Service.computationFor_of_newer hproper hk hdocument hversion
  · intro made hmade
    obtain ⟨-, rfl⟩ := Service.create_eq_ok_iff.mp hmade
    rfl

/-- The first version is read again after an edit, in a service with room for one computation. -/
theorem run_keeps_latest_superseded :
    let first := Snapshot.ofText ⟨⟨0⟩, 1⟩ "file:///a" "let a = 1".toList
    let second := Snapshot.ofText ⟨⟨0⟩, 2⟩ "file:///a" "let a = 12".toList
    let requests : List Request :=
      [.compute first, .register first second ⟨[.insert 9 "2".toList]⟩]
    let c : Client Unit := after .standard ⟨.start ⟨0⟩ (), []⟩ requests
    second.id ∈ c.service.cache.keys ∧
      (c.service.computationFor .standard first).2.cache = c.service.cache := by
  intro first second requests c
  have hmem : second.id ∈ c.service.cache.keys := by decide +kernel
  obtain ⟨-, -, -, hread, -⟩ := run_keeps_latest .standard ⟨0⟩ () requests
  have hdocument : first.id.document = second.id.document := rfl
  have hversion : first.id.version < second.id.version := by decide
  obtain ⟨-, hcache, -⟩ := hread first second.id hmem hdocument hversion
  exact ⟨hmem, by simpa only [c] using hcache⟩

end Client

end IncrementalSyntax
