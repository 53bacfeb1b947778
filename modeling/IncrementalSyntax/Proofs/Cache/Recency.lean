import Mathlib.Data.List.Nodup
import IncrementalSyntax.Cache.Recency

/-!
Maps of bounded size, operation by operation. A look that finds its key and an entry that finds room
do the same to a map: the key leaves its place and becomes the most recent one (`put`). An entry
that finds no room does it after the least recent entry has left (`insert_of_full`). What the
operations do is said of the values that are found, of the keys in their order, and of the entries.
-/
namespace IncrementalSyntax

namespace RecencyCache

section Entries

variable {κ α : Type}

theorem map_fst_filter (p : κ → Bool) (es : List (κ × α)) :
    (es.filter fun e => p e.1).map Prod.fst = (es.map Prod.fst).filter p := by
  rw [List.filter_map]
  rfl

theorem keys_eraseAll (c : RecencyCache κ α) (p : κ → Bool) :
    (c.eraseAll p).2.keys = c.keys.filter fun k => !p k :=
  map_fst_filter (fun k => !p k) c.entries

theorem size_eq (c : RecencyCache κ α) : c.size = c.keys.length := by simp [size, keys]

theorem mem_of_mem_eraseAll {c : RecencyCache κ α} {e : κ × α} {p : κ → Bool}
    (h : e ∈ (c.eraseAll p).2.entries) : e ∈ c.entries :=
  (List.mem_filter.mp h).1

theorem size_eraseAll_le (c : RecencyCache κ α) (p : κ → Bool) :
    (c.eraseAll p).2.size ≤ c.size := List.length_filter_le ..

/-- The number of keys that are removed is the number of those that satisfy the condition. -/
theorem fst_eraseAll (c : RecencyCache κ α) (p : κ → Bool) :
    (c.eraseAll p).1 = c.keys.countP p := by
  have hsplit : c.entries.length = _ :=
    List.length_eq_countP_add_countP fun e : κ × α => p e.1
  have hkept : (c.entries.filter fun e => !p e.1).length =
      c.entries.countP fun e => !p e.1 := List.countP_eq_length_filter.symm
  have hkeys : c.keys.countP p = c.entries.countP fun e => p e.1 := List.countP_map
  simp only [Bool.not_eq_true, Bool.decide_eq_false] at hsplit
  simp only [eraseAll]
  omega

end Entries

variable {κ α : Type} [DecidableEq κ] {c : RecencyCache κ α} {e : κ × α} {k : κ} {a : α}

/-- Entries that are left out for their keys are not found; all others are found as before. -/
theorem lookup_filter (p : κ → Bool) (es : List (κ × α)) (k : κ) :
    (es.filter fun e => p e.1).lookup k = if p k then es.lookup k else none := by
  induction es with
  | nil => simp
  | cons e es ih =>
    obtain ⟨j, b⟩ := e
    rw [List.filter_cons]
    by_cases hk : k = j
    · subst hk
      cases hp : p k with
      | false => simpa [hp] using ih
      | true => simp
    · have hne : (k == j) = false := beq_eq_false_iff_ne.mpr hk
      have hskip : ((j, b) :: es).lookup k = es.lookup k := by rw [List.lookup_cons, hne]
      rw [hskip, ← ih]
      cases p j with
      | false => rfl
      | true => rw [if_pos rfl, List.lookup_cons, hne]

theorem peek?_eraseAll (c : RecencyCache κ α) (p : κ → Bool) (k : κ) :
    (c.eraseAll p).2.peek? k = if p k then none else c.peek? k := by
  refine (lookup_filter (fun k => !p k) c.entries k).trans ?_
  cases p k <;> rfl

theorem mem_of_peek? (h : c.peek? k = some a) : (k, a) ∈ c.entries := by
  obtain ⟨before, after, he, -⟩ := List.lookup_eq_some_iff.mp h
  rw [he]
  simp

theorem not_mem_keys_of_peek? (h : c.peek? k = none) : k ∉ c.keys := by
  intro hk
  obtain ⟨e, he, rfl⟩ := List.mem_map.mp hk
  have hne := List.lookup_eq_none_iff.mp h e he
  simp at hne

theorem mem_keys_iff : k ∈ c.keys ↔ (c.peek? k).isSome = true := by
  constructor
  · intro hk
    cases hfound : c.peek? k with
    | none => exact absurd hk (not_mem_keys_of_peek? hfound)
    | some a => rfl
  · intro hsome
    obtain ⟨a, ha⟩ := Option.isSome_iff_exists.mp hsome
    exact List.mem_map.mpr ⟨(k, a), mem_of_peek? ha, rfl⟩

theorem peek?_of_mem (hnodup : c.keys.Nodup) (hmem : (k, a) ∈ c.entries) : c.peek? k = some a := by
  obtain ⟨front, back, hentries⟩ := List.append_of_mem hmem
  rw [keys, hentries, List.map_append, List.map_cons] at hnodup
  have hfront := (List.nodup_append.mp hnodup).2.2
  refine List.lookup_eq_some_iff.mpr ⟨front, back, hentries, ?_⟩
  intro e he
  have hne := hfront e.1 (List.mem_map_of_mem he) k List.mem_cons_self
  exact bne_iff_ne.mpr (Ne.symm hne)

theorem keys_without (c : RecencyCache κ α) (k : κ) :
    (c.without k).map Prod.fst = c.keys.filter fun x => decide (x ≠ k) :=
  map_fst_filter (fun x => decide (x ≠ k)) c.entries

theorem without_of_not_mem (h : k ∉ c.keys) : c.without k = c.entries := by
  refine List.filter_eq_self.mpr fun e he => decide_eq_true ?_
  rintro rfl
  exact h (List.mem_map_of_mem he)

theorem length_without_lt (h : k ∈ c.keys) : (c.without k).length < c.size := by
  obtain ⟨e, he, rfl⟩ := List.mem_map.mp h
  exact List.length_filter_lt_length_iff_exists.mpr ⟨e, he, by simp⟩

/-- The map with a key that leaves its place, if it has one, and becomes the most recent one. -/
def put (c : RecencyCache κ α) (k : κ) (a : α) : RecencyCache κ α :=
  { c with entries := c.without k ++ [(k, a)] }

theorem keys_put (c : RecencyCache κ α) (k : κ) (a : α) :
    (c.put k a).keys = c.keys.filter (fun x => decide (x ≠ k)) ++ [k] := by
  rw [keys, put, List.map_append, keys_without, List.map_singleton]

theorem peek?_put (c : RecencyCache κ α) (k : κ) (a : α) (j : κ) :
    (c.put k a).peek? j = if j = k then some a else c.peek? j := by
  have hothers : (c.without k).lookup j = if decide (j ≠ k) then c.peek? j else none :=
    lookup_filter (fun x => decide (x ≠ k)) c.entries j
  rw [peek?, put, List.lookup_append, hothers]
  by_cases hj : j = k
  · simp [hj]
  · have hne : (j == k) = false := beq_eq_false_iff_ne.mpr hj
    simp [hj, List.lookup_cons, hne]

theorem get?_fst (c : RecencyCache κ α) (k : κ) : (c.get? k).1 = c.peek? k := by
  rw [get?]
  split
  next h => exact h.symm
  next h => exact h.symm

theorem get?_of_none (h : (c.get? k).1 = none) : (c.get? k).2 = c := by
  rw [get?] at h ⊢
  split at h
  next => simp at h
  next => rfl

theorem get?_of_some (h : (c.get? k).1 = some a) : (c.get? k).2 = c.put k a := by
  rw [get?] at h ⊢
  split at h
  next b hb =>
    obtain rfl := Option.some.inj h
    rfl
  next => simp at h

theorem mem_of_get? (h : (c.get? k).1 = some a) : (k, a) ∈ c.entries :=
  mem_of_peek? (get?_fst c k ▸ h)

theorem mem_of_mem_get? (h : e ∈ (c.get? k).2.entries) : e ∈ c.entries := by
  rw [get?] at h
  split at h
  next a ha =>
    rcases List.mem_append.mp h with h | h
    · exact (List.mem_filter.mp h).1
    · rw [List.mem_singleton.mp h]
      exact mem_of_peek? ha
  next => exact h

/-- A key that is found becomes the most recent one. -/
theorem keys_get?_of_some (h : (c.get? k).1 = some a) :
    (c.get? k).2.keys = c.keys.filter (fun x => decide (x ≠ k)) ++ [k] := by
  rw [get?_of_some h, keys_put]

theorem mem_of_mem_insert (h : e ∈ (c.insert k a).2.entries) : e = (k, a) ∨ e ∈ c.entries := by
  rcases List.mem_append.mp h with h | h
  · exact .inr (List.mem_filter.mp (List.mem_of_mem_drop h)).1
  · exact .inl (List.mem_singleton.mp h)

theorem keys_insert (c : RecencyCache κ α) (k : κ) (a : α) :
    (c.insert k a).2.keys =
      (c.keys.filter fun x => decide (x ≠ k)).drop
        ((c.keys.filter fun x => decide (x ≠ k)).length + 1 - c.capacity) ++ [k] := by
  rw [← keys_without, List.length_map, ← List.map_drop]
  simp [keys, insert]

theorem peek?_insert_self (c : RecencyCache κ α) (k : κ) (a : α) :
    (c.insert k a).2.peek? k = some a := by
  have hothers : ((c.without k).drop ((c.without k).length + 1 - c.capacity)).lookup k = none := by
    rw [List.lookup_eq_none_iff]
    intro e he
    have hne := (List.mem_filter.mp (List.mem_of_mem_drop he)).2
    exact bne_iff_ne.mpr (Ne.symm (of_decide_eq_true hne))
  rw [peek?, insert, List.lookup_append, hothers, Option.none_or, List.lookup_cons_self]

/-- A key that has an entry, or for which there is room, needs no other one to leave. -/
theorem size_put_le (hsize : c.size ≤ c.capacity) (h : k ∈ c.keys ∨ c.size < c.capacity) :
    (c.put k a).size ≤ c.capacity := by
  have hput : (c.put k a).size = (c.without k).length + 1 := List.length_append
  rcases h with h | h
  · have := length_without_lt h
    omega
  · have : (c.without k).length ≤ c.size := List.length_filter_le ..
    omega

theorem insert_of_room (hsize : c.size ≤ c.capacity) (h : k ∈ c.keys ∨ c.size < c.capacity) :
    c.insert k a = ([], c.put k a) := by
  have hroom : (c.without k).length + 1 - c.capacity = 0 := by
    have hput : (c.put k a).size = (c.without k).length + 1 := List.length_append
    have := size_put_le (a := a) hsize h
    omega
  simp only [insert, hroom, List.take_zero, List.drop_zero, put]

/-- A new key in a full map takes the place of the least recent one. -/
theorem insert_of_full {rest : List (κ × α)} (hk : k ∉ c.keys) (hfull : c.size = c.capacity)
    (hentries : c.entries = e :: rest) :
    c.insert k a = ([e], { c with entries := rest ++ [(k, a)] }) := by
  have hexcess : c.entries.length + 1 - c.capacity = 1 := by
    have : c.entries.length = c.capacity := hfull
    omega
  simp only [insert, without_of_not_mem hk, hexcess]
  simp [hentries]

end RecencyCache

end IncrementalSyntax
