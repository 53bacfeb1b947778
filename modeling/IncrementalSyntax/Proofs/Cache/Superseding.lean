import IncrementalSyntax.Cache.Versioned
import IncrementalSyntax.Proofs.Cache.Timestamps

/-!
Versions that take the place of others. A version that is entered makes all entries of the same
document leave that are not of a later version, and only then is there a question of room. Every
call of a cache by snapshot is one or two calls of the map below it (`VersionedCall.below`), so what
holds in all runs of that map holds here: there is room for all entries. `entries_insert` says what
an entry leaves, `not_mem_keys_after` that nothing comes back by itself, and
`insert_supersedes_first` puts the two together for whole runs.
-/
namespace IncrementalSyntax

/-- What can be asked of a cache by snapshot that may change it. -/
inductive VersionedCall (α : Type) where
  | get (key : SnapshotId)
  | insert (key : SnapshotId) (value : α)
  | eraseAll (p : SnapshotId → Bool)
  | eraseDocument (document : DocumentId)

/-- The calls of the map below that a call comes to. -/
def VersionedCall.below {α : Type} : VersionedCall α → List (CacheCall SnapshotId α)
  | get key => [.get key]
  | insert key a => [.eraseAll fun k => k.isSupersededBy key, .insert key a]
  | eraseAll p => [.eraseAll p]
  | eraseDocument d => [.eraseAll fun k => k.document = d]

namespace VersionedCache

variable {α : Type}

def serve (c : VersionedCache α) : VersionedCall α → VersionedCache α
  | .get key => (c.get? key).2
  | .insert key a => c.insert key a
  | .eraseAll p => (c.eraseAll p).2
  | .eraseDocument d => (c.eraseDocument d).2

def after (c : VersionedCache α) (calls : List (VersionedCall α)) : VersionedCache α :=
  calls.foldl serve c

variable {c : VersionedCache α} {key k : SnapshotId} {a : α}

theorem entries_serve (c : VersionedCache α) (call : VersionedCall α) :
    (c.serve call).entries = c.entries.after call.below := by
  cases call <;> rfl

theorem entries_after (c : VersionedCache α) (calls : List (VersionedCall α)) :
    (c.after calls).entries = c.entries.after (calls.flatMap VersionedCall.below) := by
  induction calls generalizing c with
  | nil => rfl
  | cons call calls ih =>
    rw [List.flatMap_cons, RecencyCache.after, List.foldl_append]
    exact (ih (c.serve call)).trans (by rw [entries_serve]; rfl)

theorem bounded_after (capacity : Nat) (calls : List (VersionedCall α)) :
    let c := (empty capacity : VersionedCache α).after calls
    c.capacity = max capacity 1 ∧ c.size ≤ max capacity 1 := by
  have hempty : (RecencyCache.empty capacity : RecencyCache SnapshotId α).Refines capacity
      (.empty capacity) := RecencyCache.refines_empty capacity
  have h := (hempty.answers_eq (calls.flatMap VersionedCall.below)).2
  have hentries := entries_after (empty capacity : VersionedCache α) calls
  constructor
  · rw [VersionedCache.capacity, hentries]
    exact h.capacity_eq
  · rw [size, hentries]
    exact h.size_le

/-- The entries that a new version does not supersede. -/
def unsupersededBy (c : VersionedCache α) (key : SnapshotId) : List (SnapshotId × α) :=
  c.entries.entries.filter fun e => e.1.document ≠ key.document ∨ key.version < e.1.version

theorem entries_eraseAll_superseded (c : VersionedCache α) (key : SnapshotId) :
    (c.entries.eraseAll fun k => k.isSupersededBy key).2.entries = c.unsupersededBy key := by
  refine List.filter_congr fun e _ => ?_
  rw [Bool.eq_iff_iff, Bool.not_eq_true', ← Bool.not_eq_true, SnapshotId.isSupersededBy_iff,
    decide_eq_true_iff, not_and_or, Int.not_le]

/-- A version that is entered comes after those that it does not supersede. The least recent of them
leaves if they take all the room. -/
theorem entries_insert (hpos : 0 < c.capacity) (hsize : c.size ≤ c.capacity) (key : SnapshotId)
    (a : α) :
    (c.insert key a).entries.entries =
      (if (c.unsupersededBy key).length = c.capacity then (c.unsupersededBy key).tail
        else c.unsupersededBy key) ++ [(key, a)] := by
  let current := (c.entries.eraseAll fun k => k.isSupersededBy key).2
  have hcurrent : current.entries = c.unsupersededBy key := entries_eraseAll_superseded c key
  have hle : current.size ≤ current.capacity :=
    Nat.le_trans (RecencyCache.size_eraseAll_le c.entries _) hsize
  have hkey : key ∉ current.keys := by
    rw [RecencyCache.keys_eraseAll]
    intro hmem
    have hself : key.isSupersededBy key = true :=
      SnapshotId.isSupersededBy_iff.mpr ⟨rfl, Int.le_refl _⟩
    simp [hself] at hmem
  rw [← hcurrent]
  by_cases hfull : current.size = current.capacity
  · obtain ⟨e, rest, hentries⟩ := List.exists_cons_of_length_pos (hfull ▸ hpos : 0 < current.size)
    have hinsert := RecencyCache.insert_of_full (a := a) hkey hfull hentries
    refine (congrArg (·.2.entries) hinsert).trans ?_
    rw [if_pos (show current.entries.length = c.capacity from hfull), hentries, List.tail_cons]
  · have hinsert := RecencyCache.insert_of_room (k := key) (a := a) hle (.inr (by omega))
    refine (congrArg (·.2.entries) hinsert).trans ?_
    rw [if_neg (show ¬ current.entries.length = c.capacity from hfull), RecencyCache.put,
      RecencyCache.without_of_not_mem hkey]

theorem length_unsupersededBy_lt {e : SnapshotId × α} (he : e ∈ c.entries.entries)
    (hdocument : e.1.document = key.document) (hversion : e.1.version ≤ key.version) :
    (c.unsupersededBy key).length < c.size := by
  refine List.length_filter_lt_length_iff_exists.mpr ⟨e, he, ?_⟩
  simp [hdocument, hversion]

/-- A version that is entered is the only one left of those that are not later. -/
theorem not_mem_keys_insert (hpos : 0 < c.capacity) (hsize : c.size ≤ c.capacity) (hk : k ≠ key)
    (hdocument : k.document = key.document) (hversion : k.version ≤ key.version) :
    k ∉ (c.insert key a).keys := by
  intro hmem
  obtain ⟨e, he, rfl⟩ := List.mem_map.mp hmem
  rw [entries_insert hpos hsize] at he
  rcases List.mem_append.mp he with he | he
  · have hkept : e ∈ c.unsupersededBy key := by
      split at he
      next => exact List.mem_of_mem_tail he
      next => exact he
    have hnot := of_decide_eq_true (List.mem_filter.mp hkept).2
    rcases hnot with hnot | hnot
    · exact hnot hdocument
    · omega
  · exact hk (by rw [List.mem_singleton.mp he])

/-- The step lemma: no call brings a snapshot back but the one that enters it. -/
theorem not_mem_keys_serve (h : k ∉ c.keys) {call : VersionedCall α}
    (hcall : ∀ b, call ≠ .insert k b) : k ∉ (c.serve call).keys := by
  intro hmem
  obtain ⟨e, he, rfl⟩ := List.mem_map.mp hmem
  have hnot : e ∉ c.entries.entries := fun hold => h (List.mem_map_of_mem hold)
  cases call with
  | get key => exact hnot (RecencyCache.mem_of_mem_get? he)
  | insert key b =>
    rcases RecencyCache.mem_of_mem_insert he with rfl | he
    · exact hcall b rfl
    · exact hnot (RecencyCache.mem_of_mem_eraseAll (p := fun k => k.isSupersededBy key) he)
  | eraseAll p => exact hnot (RecencyCache.mem_of_mem_eraseAll (p := p) he)
  | eraseDocument d =>
    exact hnot (RecencyCache.mem_of_mem_eraseAll (p := fun k => decide (k.document = d)) he)

/-- The run lemma: a snapshot stays away until it is entered. -/
theorem not_mem_keys_after (h : k ∉ c.keys) {calls : List (VersionedCall α)}
    (hcalls : ∀ b, .insert k b ∉ calls) : k ∉ (c.after calls).keys := by
  induction calls generalizing c with
  | nil => exact h
  | cons call calls ih =>
    refine ih (not_mem_keys_serve h ?_) fun b hb => hcalls b (List.mem_cons_of_mem call hb)
    rintro b rfl
    exact hcalls b List.mem_cons_self

/-- Whatever calls a cache has got, a version that is entered comes after the entries that it does
not supersede, in their order, of which the least recent leaves only if they take all the room. So
nothing else leaves if the version supersedes any. And from then on no other version of the document
that is not later is found, until that very version is entered again. All this is so of every cache
that can be made. -/
theorem insert_supersedes_first (capacity : Nat) (calls : List (VersionedCall α))
    (key : SnapshotId) (a : α) :
    let c := (empty capacity : VersionedCache α).after calls
    let kept := c.entries.entries.filter fun e =>
      e.1.document ≠ key.document ∨ key.version < e.1.version
    (kept.length ≤ max capacity 1 ∧ (c.insert key a).entries.entries =
      (if kept.length = max capacity 1 then kept.tail else kept) ++ [(key, a)]) ∧
    ((∃ e ∈ c.entries.entries, e.1.document = key.document ∧ e.1.version ≤ key.version) →
      (c.insert key a).entries.entries = kept ++ [(key, a)]) ∧
    (∀ k : SnapshotId, k ≠ key → k.document = key.document → k.version ≤ key.version →
      ∀ more : List (VersionedCall α), (∀ b, .insert k b ∉ more) →
        (((c.insert key a).after more).get? k).1 = none) ∧
    ∀ made : VersionedCache α, create capacity = .ok made → made.after calls = c := by
  intro c kept
  obtain ⟨hcapacity, hbound⟩ : c.capacity = max capacity 1 ∧ c.size ≤ max capacity 1 :=
    bounded_after capacity calls
  have hpos : 0 < c.capacity := by omega
  have hsize : c.size ≤ c.capacity := hcapacity ▸ hbound
  have hentries : (c.insert key a).entries.entries =
      (if kept.length = max capacity 1 then kept.tail else kept) ++ [(key, a)] := by
    rw [← hcapacity]
    exact entries_insert hpos hsize key a
  have hkept : kept.length ≤ c.size := List.length_filter_le ..
  refine ⟨⟨Nat.le_trans hkept hbound, hentries⟩, ?_, ?_, ?_⟩
  · rintro ⟨e, he, hdocument, hversion⟩
    have hlt : kept.length < c.size := length_unsupersededBy_lt he hdocument hversion
    have hroom : ¬ kept.length = max capacity 1 := by omega
    rwa [if_neg hroom] at hentries
  · intro k hk hdocument hversion more hmore
    have hgone : k ∉ (c.insert key a).keys :=
      not_mem_keys_insert hpos hsize hk hdocument hversion
    have hnot := not_mem_keys_after hgone hmore
    cases hfound : (((c.insert key a).after more).get? k).1 with
    | none => rfl
    | some b => exact absurd (List.mem_map_of_mem (RecencyCache.mem_of_get? hfound)) hnot
  · intro made hmade
    obtain ⟨-, rfl⟩ := create_eq_ok_iff.mp hmade
    rfl

/-- The fifth version of a document is entered into a full cache beside an older one and another
document. Nothing of the other document leaves, and the older version is not found again. -/
theorem insert_supersedes_first_full :
    let one : SnapshotId := ⟨⟨0⟩, 1⟩
    let five : SnapshotId := ⟨⟨0⟩, 5⟩
    let other : SnapshotId := ⟨⟨1⟩, 3⟩
    let calls : List (VersionedCall Char) := [.insert other 'b', .insert one 'a', .get other]
    let more : List (VersionedCall Char) := [.get one, .insert ⟨⟨2⟩, 1⟩ 'c']
    let c : VersionedCache Char := (empty 2).after calls
    (c.entries.entries = [(one, 'a'), (other, 'b')] ∧ one ≠ five ∧
      ∀ b, VersionedCall.insert one b ∉ more) ∧
    (c.insert five 'e').entries.entries = [(other, 'b'), (five, 'e')] ∧
      (((c.insert five 'e').after more).get? one).1 = none := by
  intro one five other calls more c
  have hbefore : c.entries.entries = [(one, 'a'), (other, 'b')] := by decide
  have hne : one ≠ five := by decide
  have hmore : ∀ b, VersionedCall.insert one b ∉ more := by simp [more, one]
  have hmem : ∃ e ∈ c.entries.entries,
      e.1.document = five.document ∧ e.1.version ≤ five.version := by decide
  obtain ⟨-, hroom, hlater, -⟩ := insert_supersedes_first 2 calls five 'e'
  rw [show (empty 2).after calls = c from rfl] at hroom hlater
  have hinsert := hroom hmem
  rw [hbefore] at hinsert
  exact ⟨⟨hbefore, hne, hmore⟩, hinsert, hlater one hne rfl (by decide) more hmore⟩

end VersionedCache

end IncrementalSyntax
