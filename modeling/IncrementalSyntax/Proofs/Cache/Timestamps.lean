import Mathlib.Data.List.MinMax
import Mathlib.Data.List.Nodup
import IncrementalSyntax.Proofs.Cache.Recency

/-!
Maps of bounded size against clocks. A map that keeps its entries in the order of their last use
keeps no times. `TimedMap` does it the other way round: it maps each key to a value and to the time
of its last use, has no order, and looks for the oldest key when it is full. `Refines` relates the
two, `Refines.agree` is one square per call, and `run_agrees_with_times` states for whole runs that
the order of the entries says all that the times would say.
-/
namespace IncrementalSyntax

inductive CacheCall (κ α : Type) where
  | insert (key : κ) (value : α)
  | get (key : κ)
  | peek (key : κ)
  | contains (key : κ)
  | eraseAll (p : κ → Bool)

/-- The value that a call enters for a key. -/
def CacheCall.entered? {κ α : Type} [DecidableEq κ] (k : κ) : CacheCall κ α → Option α
  | insert j a => if j = k then some a else none
  | get _ | peek _ | contains _ | eraseAll _ => none

/-- The value that calls have last entered for a key. -/
def lastEntered {κ α : Type} [DecidableEq κ] (k : κ) (calls : List (CacheCall κ α)) : Option α :=
  calls.reverse.findSome? (·.entered? k)

theorem lastEntered_concat {κ α : Type} [DecidableEq κ] (k : κ) (calls : List (CacheCall κ α))
    (call : CacheCall κ α) :
    lastEntered k (calls ++ [call]) = (call.entered? k).or (lastEntered k calls) := by
  rw [lastEntered, List.reverse_concat, List.findSome?_cons]
  cases call.entered? k <;> rfl

inductive CacheAnswer (κ α : Type) where
  | evicted (entries : List (κ × α))
  | value (value : Option α)
  | known (known : Bool)
  | erased (count : Nat)
  deriving DecidableEq, Repr

/-- A map of bounded size from keys to values and the times of their last use. -/
structure TimedMap (κ α : Type) where
  capacity : Nat
  /-- The time that the next use will have. -/
  now : Nat
  /-- The keys that have an entry. Their order has no meaning. -/
  keys : List κ
  entry : κ → Option (α × Nat)
  distinct : keys.Nodup
  mem_keys_iff : ∀ k, k ∈ keys ↔ (entry k).isSome = true

namespace TimedMap

variable {κ α : Type}

def empty (capacity : Nat) : TimedMap κ α where
  capacity := max capacity 1
  now := 0
  keys := []
  entry _ := none
  distinct := List.nodup_nil
  mem_keys_iff := by simp

def size (m : TimedMap κ α) : Nat := m.keys.length

def value? (m : TimedMap κ α) (k : κ) : Option α := (m.entry k).map Prod.fst

def time (m : TimedMap κ α) (k : κ) : Nat := (m.entry k).elim 0 Prod.snd

/-- The keys in the order of their times. -/
def byTime (m : TimedMap κ α) : List κ := m.keys.mergeSort fun i j => m.time i ≤ m.time j

def oldest? (m : TimedMap κ α) : Option κ := m.keys.argmin m.time

theorem pairwise_byTime (m : TimedMap κ α) :
    m.byTime.Pairwise fun i j => m.time i ≤ m.time j := by
  have hsorted : m.byTime.Pairwise fun i j => decide (m.time i ≤ m.time j) = true :=
    List.pairwise_mergeSort (by simpa using fun i j k => Nat.le_trans)
      (by simpa using fun i j => Nat.le_total (m.time i) (m.time j)) m.keys
  simpa using hsorted

def erase (m : TimedMap κ α) (p : κ → Bool) : TimedMap κ α where
  capacity := m.capacity
  now := m.now
  keys := m.keys.filter fun k => !p k
  entry k := if p k then none else m.entry k
  distinct := m.distinct.filter _
  mem_keys_iff k := by cases hp : p k <;> simp [hp, m.mem_keys_iff]

variable [DecidableEq κ]

/-- Maps a key to a value and to the present time. -/
def put (m : TimedMap κ α) (k : κ) (a : α) : TimedMap κ α where
  capacity := m.capacity
  now := m.now + 1
  keys := m.keys.insert k
  entry j := if j = k then some (a, m.now) else m.entry j
  distinct := m.distinct.insert
  mem_keys_iff j := by by_cases hj : j = k <;> simp [hj, m.mem_keys_iff]

/-- Takes away the oldest key, and tells what it was mapped to. -/
def evict (m : TimedMap κ α) : List (κ × α) × TimedMap κ α :=
  match m.oldest? with
  | some o => (((m.entry o).map fun e => (o, e.1)).toList, m.erase fun k => k = o)
  | none => ([], m)

/-- Answers a call as the times say. Only an entry and a look that finds its key are uses; a key
has to leave only for a new one, if there is no room. -/
def answer (m : TimedMap κ α) : CacheCall κ α → CacheAnswer κ α × TimedMap κ α
  | .insert k a =>
    if k ∈ m.keys ∨ m.size < m.capacity then (.evicted [], m.put k a)
    else (.evicted m.evict.1, m.evict.2.put k a)
  | .get k =>
    match m.entry k with
    | some e => (.value (some e.1), m.put k e.1)
    | none => (.value none, m)
  | .peek k => (.value (m.value? k), m)
  | .contains k => (.known (m.entry k).isSome, m)
  | .eraseAll p => (.erased (m.keys.countP p), m.erase p)

def answers (m : TimedMap κ α) : List (CacheCall κ α) → List (CacheAnswer κ α)
  | [] => []
  | call :: calls => (m.answer call).1 :: answers (m.answer call).2 calls

def after (m : TimedMap κ α) (calls : List (CacheCall κ α)) : TimedMap κ α :=
  calls.foldl (fun m call => (m.answer call).2) m

@[simp] theorem entry_put_self (m : TimedMap κ α) (k : κ) (a : α) :
    (m.put k a).entry k = some (a, m.now) := if_pos rfl

@[simp] theorem time_put_self (m : TimedMap κ α) (k : κ) (a : α) :
    (m.put k a).time k = m.now := by simp [time]

theorem time_put_of_ne (m : TimedMap κ α) {j k : κ} (a : α) (h : j ≠ k) :
    (m.put k a).time j = m.time j := by simp [time, put, h]

omit [DecidableEq κ] in
theorem time_erase_of_not (m : TimedMap κ α) {p : κ → Bool} {k : κ} (h : p k = false) :
    (m.erase p).time k = m.time k := by simp [time, erase, h]

theorem value?_put (m : TimedMap κ α) (j k : κ) (b : α) :
    (m.put j b).value? k = if k = j then some b else m.value? k := by
  by_cases hk : k = j <;> simp [value?, put, hk]

omit [DecidableEq κ] in
theorem value?_erase (m : TimedMap κ α) (p : κ → Bool) (k : κ) :
    (m.erase p).value? k = if p k then none else m.value? k := by
  cases hp : p k <;> simp [value?, erase, hp]

omit [DecidableEq κ] in
theorem value?_of_erase {m : TimedMap κ α} {p : κ → Bool} {k : κ} {a : α}
    (h : (m.erase p).value? k = some a) : m.value? k = some a := by
  rw [value?_erase] at h
  split at h
  next => simp at h
  next => exact h

theorem value?_of_evict {m : TimedMap κ α} {k : κ} {a : α} (h : m.evict.2.value? k = some a) :
    m.value? k = some a := by
  rw [evict] at h
  split at h
  next => exact value?_of_erase h
  next => exact h

/-- After a call a key has the value that the call has entered for it or, if it has entered none,
the value that the key had. -/
theorem value?_of_answer {m : TimedMap κ α} {call : CacheCall κ α} {k : κ} {a : α}
    (h : (m.answer call).2.value? k = some a) :
    call.entered? k = some a ∨ call.entered? k = none ∧ m.value? k = some a := by
  cases call with
  | insert j b =>
    by_cases hk : k = j
    · subst hk
      refine .inl ((if_pos rfl).trans ?_)
      rw [← h, answer]
      split <;> rw [value?_put, if_pos rfl]
    · refine .inr ⟨if_neg (Ne.symm hk), ?_⟩
      rw [answer] at h
      split at h
      next => rwa [value?_put, if_neg hk] at h
      next =>
        rw [value?_put, if_neg hk] at h
        exact value?_of_evict h
  | get j =>
    refine .inr ⟨rfl, ?_⟩
    rw [answer] at h
    split at h
    next e he =>
      rw [value?_put] at h
      split at h
      next hk => rw [hk, value?, he, Option.map_some, h]
      next => exact h
    next => exact h
  | peek j => exact .inr ⟨rfl, h⟩
  | contains j => exact .inr ⟨rfl, h⟩
  | eraseAll p => exact .inr ⟨rfl, value?_of_erase h⟩

/-- The values that keys have are those that were last entered for them. -/
theorem value?_after {m : TimedMap κ α} {done : List (CacheCall κ α)}
    (h : ∀ k a, m.value? k = some a → lastEntered k done = some a) (calls : List (CacheCall κ α)) :
    ∀ k a, (m.after calls).value? k = some a → lastEntered k (done ++ calls) = some a := by
  induction calls generalizing m done with
  | nil => rwa [List.append_nil]
  | cons call calls ih =>
    rw [List.append_cons]
    refine ih ?_
    intro k a ha
    rw [lastEntered_concat]
    obtain hentered | ⟨hentered, hvalue⟩ := value?_of_answer ha
    · rw [hentered, Option.some_or]
    · rw [hentered, Option.none_or, h k a hvalue]

end TimedMap

namespace RecencyCache

variable {κ α : Type} [DecidableEq κ]

def answer (c : RecencyCache κ α) : CacheCall κ α → CacheAnswer κ α × RecencyCache κ α
  | .insert k a => (.evicted (c.insert k a).1, (c.insert k a).2)
  | .get k => (.value (c.get? k).1, (c.get? k).2)
  | .peek k => (.value (c.peek? k), c)
  | .contains k => (.known (c.contains k), c)
  | .eraseAll p => (.erased (c.eraseAll p).1, (c.eraseAll p).2)

def answers (c : RecencyCache κ α) : List (CacheCall κ α) → List (CacheAnswer κ α)
  | [] => []
  | call :: calls => (c.answer call).1 :: answers (c.answer call).2 calls

def after (c : RecencyCache κ α) (calls : List (CacheCall κ α)) : RecencyCache κ α :=
  calls.foldl (fun c call => (c.answer call).2) c

/-- A map that keeps its entries in order and a map with times that stand for the same: the values
are the same, and the order of the keys is that of their times, which are all past. -/
structure Refines (capacity : Nat) (c : RecencyCache κ α) (m : TimedMap κ α) : Prop where
  capacity_eq : c.capacity = max capacity 1
  timed_capacity_eq : m.capacity = max capacity 1
  size_le : c.size ≤ max capacity 1
  peek?_eq : ∀ k, c.peek? k = m.value? k
  ordered : c.keys.Pairwise fun i j => m.time i < m.time j
  past : ∀ k ∈ c.keys, m.time k < m.now

theorem refines_empty (capacity : Nat) :
    (empty capacity : RecencyCache κ α).Refines capacity (.empty capacity) where
  capacity_eq := rfl
  timed_capacity_eq := rfl
  size_le := Nat.zero_le _
  peek?_eq _ := rfl
  ordered := List.Pairwise.nil
  past k hk := by simp [keys, empty] at hk

namespace Refines

variable {capacity : Nat} {c : RecencyCache κ α} {m : TimedMap κ α} {k : κ} {a : α}

theorem nodup (h : c.Refines capacity m) : c.keys.Nodup :=
  h.ordered.imp fun hlt heq => by simp [heq] at hlt

theorem mem_keys_iff (h : c.Refines capacity m) (k : κ) : k ∈ m.keys ↔ k ∈ c.keys := by
  rw [m.mem_keys_iff, RecencyCache.mem_keys_iff, h.peek?_eq, TimedMap.value?, Option.isSome_map]

theorem perm (h : c.Refines capacity m) : m.keys.Perm c.keys :=
  (List.perm_ext_iff_of_nodup m.distinct h.nodup).mpr h.mem_keys_iff

theorem size_eq (h : c.Refines capacity m) : m.size = c.size := by
  rw [TimedMap.size, h.perm.length_eq, RecencyCache.size_eq]

theorem time_inj (h : c.Refines capacity m) {i j : κ} (hi : i ∈ c.keys) (hj : j ∈ c.keys)
    (htime : m.time i = m.time j) : i = j := by
  have htimes : (c.keys.map m.time).Nodup :=
    List.pairwise_map.mpr (h.ordered.imp fun hlt => Nat.ne_of_lt hlt)
  exact List.inj_on_of_nodup_map htimes hi hj htime

theorem keys_eq_byTime (h : c.Refines capacity m) : c.keys = m.byTime := by
  have hperm : c.keys.Perm m.byTime := h.perm.symm.trans (List.mergeSort_perm ..).symm
  refine hperm.eq_of_pairwise ?_ (h.ordered.imp Nat.le_of_lt) m.pairwise_byTime
  intro i j hi hj hij hji
  exact h.time_inj hi (hperm.mem_iff.mpr hj) (Nat.le_antisymm hij hji)

/-- The least recent key is the one with the earliest time. -/
theorem oldest?_eq (h : c.Refines capacity m) {e : κ × α} {rest : List (κ × α)}
    (hentries : c.entries = e :: rest) : m.oldest? = some e.1 := by
  have hkeys : c.keys = e.1 :: rest.map Prod.fst := by rw [keys, hentries, List.map_cons]
  have hfirst : e.1 ∈ c.keys := by simp [hkeys]
  have hordered := h.ordered
  rw [hkeys, List.pairwise_cons] at hordered
  cases ho : m.oldest? with
  | none =>
    have hnil : m.keys = [] := List.argmin_eq_none.mp ho
    have hmem := (h.mem_keys_iff e.1).mpr hfirst
    simp [hnil] at hmem
  | some o =>
    have hmem := (h.mem_keys_iff o).mp (List.argmin_mem ho)
    have hle : m.time o ≤ m.time e.1 :=
      List.le_of_mem_argmin ((h.mem_keys_iff e.1).mpr hfirst) ho
    rw [hkeys] at hmem
    rcases List.mem_cons.mp hmem with rfl | hmem
    · rfl
    · have := hordered.1 o hmem
      omega

/-- A use of a key makes it the most recent one and gives it the present time. -/
theorem put (h : c.Refines capacity m) (hroom : (c.put k a).size ≤ max capacity 1) :
    (c.put k a).Refines capacity (m.put k a) := by
  have hother : ∀ j ∈ c.keys.filter fun x => decide (x ≠ k), (m.put k a).time j = m.time j := by
    intro j hj
    exact m.time_put_of_ne a (of_decide_eq_true (List.mem_filter.mp hj).2)
  refine ⟨h.capacity_eq, h.timed_capacity_eq, hroom, ?_, ?_, ?_⟩
  · intro j
    rw [peek?_put, h.peek?_eq, TimedMap.value?_put]
  · rw [keys_put]
    refine List.pairwise_append.mpr ⟨?_, List.pairwise_singleton _ _, ?_⟩
    · refine (h.ordered.filter _).imp_of_mem ?_
      intro i j hi hj hlt
      rwa [hother i hi, hother j hj]
    · intro i hi j hj
      obtain rfl := List.mem_singleton.mp hj
      rw [hother i hi, TimedMap.time_put_self]
      exact h.past i (List.mem_filter.mp hi).1
  · intro j hj
    rw [keys_put] at hj
    have hnow : (m.put k a).now = m.now + 1 := rfl
    rcases List.mem_append.mp hj with hj | hj
    · have := h.past j (List.mem_filter.mp hj).1
      rw [hother j hj]
      omega
    · obtain rfl := List.mem_singleton.mp hj
      rw [TimedMap.time_put_self]
      omega

theorem erase (h : c.Refines capacity m) (p : κ → Bool) :
    (c.eraseAll p).2.Refines capacity (m.erase p) := by
  have hkept : ∀ k ∈ (c.eraseAll p).2.keys, k ∈ c.keys ∧ (m.erase p).time k = m.time k := by
    intro k hk
    rw [keys_eraseAll] at hk
    obtain ⟨hmem, hp⟩ := List.mem_filter.mp hk
    exact ⟨hmem, m.time_erase_of_not (by simpa using hp)⟩
  refine ⟨h.capacity_eq, h.timed_capacity_eq, ?_, ?_, ?_, ?_⟩
  · exact Nat.le_trans (size_eraseAll_le c p) h.size_le
  · intro k
    rw [peek?_eraseAll, h.peek?_eq, TimedMap.value?_erase]
  · have hordered : (c.eraseAll p).2.keys.Pairwise fun i j => m.time i < m.time j := by
      rw [keys_eraseAll]
      exact h.ordered.filter _
    refine hordered.imp_of_mem ?_
    intro i j hi hj hlt
    rwa [(hkept i hi).2, (hkept j hj).2]
  · intro k hk
    obtain ⟨hmem, htime⟩ := hkept k hk
    rw [htime]
    exact h.past k hmem

/-- The least recent entry leaves a map just as the key with the earliest time leaves the other. -/
theorem evict (h : c.Refines capacity m) {e : κ × α} {rest : List (κ × α)}
    (hentries : c.entries = e :: rest) :
    m.evict.1 = [e] ∧
      ({ c with entries := rest } : RecencyCache κ α).Refines capacity m.evict.2 := by
  have hnodup := h.nodup
  rw [keys, hentries, List.map_cons, List.nodup_cons] at hnodup
  have hrest : (c.eraseAll fun k => decide (k = e.1)).2 = { c with entries := rest } := by
    have hkept : rest.filter (fun f => !decide (f.1 = e.1)) = rest := by
      refine List.filter_eq_self.mpr fun f hf => ?_
      have hne : f.1 ≠ e.1 := fun heq => hnodup.1 (heq ▸ List.mem_map_of_mem hf)
      simp [hne]
    simp only [eraseAll, hentries]
    rw [List.filter_cons_of_neg (by simp), hkept]
  have hvalue : m.value? e.1 = some e.2 := by
    rw [← h.peek?_eq]
    exact peek?_of_mem h.nodup (by simp [hentries])
  obtain ⟨f, hf, hfst⟩ := Option.map_eq_some_iff.mp hvalue
  rw [TimedMap.evict, h.oldest?_eq hentries, ← hrest]
  refine ⟨?_, h.erase _⟩
  simp [hf, hfst]

/-- Both answer the call alike and then stand for the same again. -/
def Agree (capacity : Nat) (c : RecencyCache κ α) (m : TimedMap κ α) (call : CacheCall κ α) :
    Prop :=
  (c.answer call).1 = (m.answer call).1 ∧ (c.answer call).2.Refines capacity (m.answer call).2

theorem agree_insert (h : c.Refines capacity m) (k : κ) (a : α) :
    Agree capacity c m (.insert k a) := by
  have hcapacity := h.capacity_eq
  have hle := h.size_le
  rw [← hcapacity] at hle
  have hsame : (k ∈ m.keys ∨ m.size < m.capacity) ↔ (k ∈ c.keys ∨ c.size < c.capacity) := by
    rw [h.mem_keys_iff, h.size_eq, h.timed_capacity_eq, hcapacity]
  rw [Agree, answer, TimedMap.answer]
  by_cases hroom : k ∈ c.keys ∨ c.size < c.capacity
  · rw [if_pos (hsame.mpr hroom), insert_of_room hle hroom]
    exact ⟨rfl, h.put (hcapacity ▸ size_put_le hle hroom)⟩
  · rw [if_neg (mt hsame.mp hroom)]
    rw [not_or, Nat.not_lt] at hroom
    obtain ⟨hk, hge⟩ := hroom
    have hfull : c.size = c.capacity := Nat.le_antisymm hle hge
    obtain ⟨e, rest, hentries⟩ : ∃ e rest, c.entries = e :: rest := by
      refine List.exists_cons_of_length_pos (?_ : 0 < c.size)
      omega
    obtain ⟨hevicted, hnext⟩ := h.evict hentries
    rw [insert_of_full hk hfull hentries, hevicted]
    refine ⟨rfl, ?_⟩
    -- the new key is not among those that stay, so entering it only adds it at the end
    have hk' : k ∉ ({ c with entries := rest } : RecencyCache κ α).keys := by
      intro hmem
      rw [keys, hentries, List.map_cons] at hk
      exact hk (List.mem_cons_of_mem _ hmem)
    have hput : ({ c with entries := rest } : RecencyCache κ α).put k a =
        { c with entries := rest ++ [(k, a)] } := by
      rw [RecencyCache.put, without_of_not_mem hk']
    rw [← hput]
    refine hnext.put ?_
    rw [hput, ← hcapacity, ← hfull]
    simp [size, hentries]

theorem agree_get (h : c.Refines capacity m) (k : κ) : Agree capacity c m (.get k) := by
  have hvalue := h.peek?_eq k
  rw [Agree, answer, TimedMap.answer]
  cases hentry : m.entry k with
  | none =>
    have hfound : (c.get? k).1 = none := by
      rw [get?_fst, hvalue, TimedMap.value?, hentry, Option.map_none]
    rw [hfound, get?_of_none hfound]
    exact ⟨rfl, h⟩
  | some e =>
    have hfound : (c.get? k).1 = some e.1 := by
      rw [get?_fst, hvalue, TimedMap.value?, hentry, Option.map_some]
    have hmem : k ∈ c.keys := (h.mem_keys_iff k).mp ((m.mem_keys_iff k).mpr (by rw [hentry]; rfl))
    rw [hfound, get?_of_some hfound]
    have hle := h.size_le
    rw [← h.capacity_eq] at hle
    exact ⟨rfl, h.put (h.capacity_eq ▸ size_put_le hle (.inl hmem))⟩

/-- The step lemma: maps that stand for the same agree on every call. -/
theorem agree (h : c.Refines capacity m) (call : CacheCall κ α) : Agree capacity c m call := by
  cases call with
  | insert k a => exact h.agree_insert k a
  | get k => exact h.agree_get k
  | peek k => exact ⟨congrArg CacheAnswer.value (h.peek?_eq k), h⟩
  | contains k =>
    refine ⟨congrArg CacheAnswer.known ?_, h⟩
    rw [contains, h.peek?_eq, TimedMap.value?, Option.isSome_map]
  | eraseAll p =>
    refine ⟨congrArg CacheAnswer.erased ?_, h.erase p⟩
    rw [fst_eraseAll, h.perm.countP_eq]

theorem answers_eq (h : c.Refines capacity m) (calls : List (CacheCall κ α)) :
    c.answers calls = m.answers calls ∧ (c.after calls).Refines capacity (m.after calls) := by
  induction calls generalizing c m with
  | nil => exact ⟨rfl, h⟩
  | cons call calls ih =>
    obtain ⟨hanswer, hnext⟩ := h.agree call
    obtain ⟨hanswers, hafter⟩ := ih hnext
    exact ⟨by rw [answers, TimedMap.answers, hanswer, hanswers], hafter⟩

end Refines

/-- Whatever calls a map of bounded size gets, it cannot be told from a map with times. The keys
stand in the order of the times, no two of which are the same, and a value that is found is the one
last entered for its key. No key stands twice, and there are never more keys than there is room
for. All this is so of every map that can be made. -/
theorem run_agrees_with_times (capacity : Nat) (calls : List (CacheCall κ α)) :
    let c := (empty capacity : RecencyCache κ α).after calls
    let m := (TimedMap.empty capacity : TimedMap κ α).after calls
    (empty capacity).answers calls = (TimedMap.empty capacity).answers calls ∧
      c.keys = m.byTime ∧ c.size = m.size ∧ (∀ k, c.peek? k = m.value? k) ∧
      (∀ i ∈ m.keys, ∀ j ∈ m.keys, m.time i = m.time j → i = j) ∧
      (∀ k a, c.peek? k = some a → lastEntered k calls = some a) ∧
      (c.keys.Nodup ∧ c.size ≤ max capacity 1) ∧
      ∀ made : RecencyCache κ α, create capacity = .ok made →
        made.after calls = c ∧ made.answers calls = (TimedMap.empty capacity).answers calls := by
  intro c m
  have hempty : (empty capacity : RecencyCache κ α).Refines capacity (.empty capacity) :=
    refines_empty capacity
  obtain ⟨hanswers, h⟩ := hempty.answers_eq calls
  refine ⟨hanswers, h.keys_eq_byTime, h.size_eq.symm, h.peek?_eq, ?_, ?_, ⟨h.nodup, h.size_le⟩, ?_⟩
  · intro i hi j hj htime
    exact h.time_inj ((h.mem_keys_iff i).mp hi) ((h.mem_keys_iff j).mp hj) htime
  · intro k a ha
    rw [h.peek?_eq] at ha
    have hnone : ∀ k a, (TimedMap.empty capacity : TimedMap κ α).value? k = some a →
        lastEntered k [] = some a := by simp [TimedMap.value?, TimedMap.empty]
    exact TimedMap.value?_after hnone calls k a ha
  · intro made hmade
    obtain ⟨-, rfl⟩ := create_eq_ok_iff.mp hmade
    exact ⟨rfl, hanswers⟩

/-- A key that is looked up stays when there is no room for a third one, and so does a new value of
a key that is there. -/
theorem run_agrees_with_times_refreshed :
    let calls : List (CacheCall Nat Char) :=
      [.insert 1 'a', .insert 2 'b', .get 1, .insert 3 'c', .insert 1 'd']
    let c : RecencyCache Nat Char := (empty 2).after calls
    let m : TimedMap Nat Char := (TimedMap.empty 2).after calls
    ((empty 2).answers calls =
        [.evicted [], .evicted [], .value (some 'a'), .evicted [(2, 'b')], .evicted []] ∧
      c.keys = [3, 1] ∧ c.peek? 1 = some 'd') ∧
    (TimedMap.empty 2).answers calls =
        [.evicted [], .evicted [], .value (some 'a'), .evicted [(2, 'b')], .evicted []] ∧
      m.byTime = [3, 1] ∧ lastEntered 1 calls = some 'd' := by
  intro calls c m
  have hanswers : (empty 2).answers calls =
      [.evicted [], .evicted [], .value (some 'a'), .evicted [(2, 'b')], .evicted []] := by decide
  have hkeys : c.keys = [3, 1] := by decide
  have hpeek : c.peek? 1 = some 'd' := by decide
  obtain ⟨hsame, horder, -, -, -, hlast, -⟩ := run_agrees_with_times 2 calls
  exact ⟨⟨hanswers, hkeys, hpeek⟩, hsame.symm.trans hanswers, horder.symm.trans hkeys,
    hlast 1 'd' hpeek⟩

end RecencyCache

end IncrementalSyntax
