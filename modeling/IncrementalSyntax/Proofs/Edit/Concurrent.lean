import Mathlib.Data.List.Sort
import IncrementalSyntax.Proofs.Edit.Order

/-!
Edits placed in one text, in whatever order they are given. They make a set exactly if any two of
them are apart, although only neighbours are compared: among edits in the order of their starts and
ends, two that are apart stand one after the other (`inOrder_of_apart`). The set has its edits in
the only order of that kind which leaves edits of one range as they were given (`Sorts.unique`).
What is found to overlap depends on the ranges alone, and those come out the same for every order
(`overlap?_congr`); so the given order matters only to edits of one range, of which there can be two
only where text is put in.
-/
namespace IncrementalSyntax

/-- The first range starts before the second one, or with it and then ends no later. -/
def TextRange.Precedes (r q : TextRange) : Prop :=
  r.start < q.start ∨ (r.start = q.start ∧ r.stop ≤ q.stop)

theorem TextRange.Precedes.antisymm {r q : TextRange} (h : r.Precedes q) (h' : q.Precedes r) :
    r = q := by
  rw [Precedes] at h h'
  exact ext_iff.mpr ⟨by omega, by omega⟩

namespace EditSet

/-- One of the two edits ends no later than the other one starts. -/
def Apart (a b : TextEdit) : Prop := a.stop ≤ b.start ∨ b.stop ≤ a.start

/-- The second list has the edits of the first one by start, then by end, and those of one range in
the order in which they were. -/
structure Sorts (es sorted : List TextEdit) : Prop where
  perm : sorted.Perm es
  ordered : sorted.Pairwise fun a b => a.range.Precedes b.range
  stable : ∀ range, sorted.filter (·.range = range) = es.filter (·.range = range)

def insertionsAt (offset : Nat) (es : List TextEdit) : List TextEdit :=
  es.filter (·.range = .empty offset)

theorem Apart.symm {a b : TextEdit} (h : Apart a b) : Apart b a := Or.symm h

section Sorting

variable {es fs sorted sorted' : List TextEdit}

theorem comesBefore_iff {a b : TextEdit} :
    comesBefore a b = true ↔ a.range.Precedes b.range := by
  simp only [comesBefore, Bool.or_eq_true, Bool.and_eq_true, decide_eq_true_eq]
  exact Iff.rfl

theorem comesBefore_trans (a b c : TextEdit) (hab : comesBefore a b = true)
    (hbc : comesBefore b c = true) : comesBefore a c = true := by
  rw [comesBefore_iff, TextRange.Precedes] at *
  omega

theorem comesBefore_total (a b : TextEdit) : (comesBefore a b || comesBefore b a) = true := by
  rw [Bool.or_eq_true, comesBefore_iff, comesBefore_iff, TextRange.Precedes, TextRange.Precedes]
  omega

theorem comesBefore_of_range_eq {a b : TextEdit} (h : a.range = b.range) :
    comesBefore a b = true := by
  rw [comesBefore_iff, h]
  exact .inr ⟨rfl, Nat.le_refl _⟩

/-- Sorting keeps edits of one range in their order. -/
theorem filter_mergeSort (es : List TextEdit) (range : TextRange) :
    (es.mergeSort comesBefore).filter (·.range = range) = es.filter (·.range = range) := by
  have hclass : (es.filter (·.range = range)).Pairwise fun a b => comesBefore a b = true := by
    refine List.pairwise_of_forall_mem_list ?_
    intro a ha b hb
    have ha := of_decide_eq_true (List.mem_filter.mp ha).2
    have hb := of_decide_eq_true (List.mem_filter.mp hb).2
    exact comesBefore_of_range_eq (ha.trans hb.symm)
  have hkept : (es.filter (·.range = range)).Sublist (es.mergeSort comesBefore) :=
    List.sublist_mergeSort comesBefore_trans comesBefore_total hclass List.filter_sublist
  have hsub := hkept.filter (·.range = range)
  simp only [List.filter_filter, Bool.and_self] at hsub
  have hlength := ((List.mergeSort_perm es comesBefore).filter (·.range = range)).length_eq
  exact (hsub.eq_of_length hlength.symm).symm

theorem sorts_mergeSort (es : List TextEdit) : Sorts es (es.mergeSort comesBefore) where
  perm := List.mergeSort_perm es comesBefore
  ordered := by
    have h := List.pairwise_mergeSort comesBefore_trans comesBefore_total es
    exact h.imp comesBefore_iff.mp
  stable := filter_mergeSort es

/-- In lists with the same ranges, edits are told apart by their order within a range. -/
theorem eq_of_ranges (hranges : es.map (·.range) = fs.map (·.range))
    (hclasses : ∀ range, es.filter (·.range = range) = fs.filter (·.range = range)) : es = fs := by
  induction es generalizing fs with
  | nil => simpa using hranges.symm
  | cons e es ih =>
    cases fs with
    | nil => simp at hranges
    | cons f fs =>
      rw [List.map_cons, List.map_cons, List.cons.injEq] at hranges
      obtain ⟨hrange, hranges⟩ := hranges
      have hhead : e = f := by
        have hclass := hclasses e.range
        simp only [List.filter_cons, hrange, decide_true, if_true, List.cons.injEq] at hclass
        exact hclass.1
      subst hhead
      have htail := ih hranges (by
        intro range
        have hclass := hclasses range
        by_cases h : e.range = range <;> simpa [List.filter_cons, h] using hclass)
      rw [htail]

/-- Whatever the order in which edits are given, their ranges are sorted in one way. -/
theorem Sorts.ranges_eq (h : Sorts es sorted) (h' : Sorts fs sorted') (hperm : fs.Perm es) :
    sorted'.map (·.range) = sorted.map (·.range) := by
  have hranges : (sorted'.map (·.range)).Perm (sorted.map (·.range)) :=
    ((h'.perm.trans hperm).trans h.perm.symm).map _
  exact hranges.eq_of_pairwise (fun _ _ _ _ => TextRange.Precedes.antisymm)
    (List.pairwise_map.mpr h'.ordered) (List.pairwise_map.mpr h.ordered)

/-- Edits are sorted in one way, by their order within each range. -/
theorem Sorts.unique (h : Sorts es sorted) (h' : Sorts fs sorted') (hperm : fs.Perm es)
    (hclasses : ∀ range, fs.filter (·.range = range) = es.filter (·.range = range)) :
    sorted' = sorted := by
  refine eq_of_ranges (h.ranges_eq h' hperm) ?_
  intro range
  rw [h.stable range, h'.stable range, hclasses range]

end Sorting

section Overlap

variable {es fs : List TextEdit}

theorem overlap?_eq_none_iff : overlap? es = none ↔ InOrder es := by
  refine ⟨inOrder_of_overlap?, ?_⟩
  intro h
  induction es with
  | nil => rfl
  | cons a es ih =>
    cases es with
    | nil => rfl
    | cons b es =>
      obtain ⟨hnext, hrest⟩ := List.pairwise_cons.mp h
      have hle : a.stop ≤ b.start := hnext b (by simp)
      rw [overlap?, if_neg (by omega)]
      exact ih hrest

/-- Of two edits that are apart, the one that comes before the other also ends before it. -/
theorem inOrder_of_apart (hordered : es.Pairwise fun a b => a.range.Precedes b.range)
    (hapart : es.Pairwise Apart) : InOrder es := by
  refine hordered.imp₂ ?_ hapart
  intro a b hbefore hab
  rcases hab with hab | hab
  · exact hab
  · -- the second edit ends where the first one starts: both are empty and at one offset
    have hle := b.start_le_stop
    rw [TextRange.Precedes] at hbefore
    rw [TextEdit.start, TextEdit.stop] at *
    omega

/-- The ranges alone decide which ends are reported. -/
theorem overlap?_congr (h : es.map (·.range) = fs.map (·.range)) :
    (overlap? es).map (fun p => (p.2.start, p.1.stop)) =
      (overlap? fs).map (fun p => (p.2.start, p.1.stop)) := by
  induction es generalizing fs with
  | nil =>
    obtain rfl := List.map_eq_nil_iff.mp h.symm
    rfl
  | cons a es ih =>
    cases fs with
    | nil => simp at h
    | cons b fs =>
      obtain ⟨hrange, hranges⟩ := List.cons.inj h
      have hrest := ih hranges
      cases es with
      | nil =>
        obtain rfl := List.map_eq_nil_iff.mp hranges.symm
        rfl
      | cons c es =>
        cases fs with
        | nil => simp at hranges
        | cons d fs =>
          have hnext : c.start = d.start := congrArg TextRange.start (List.cons.inj hranges).1
          have hstop : a.stop = b.stop := congrArg TextRange.stop hrange
          rw [overlap?, overlap?, hnext, hstop]
          split
          next => simp [hnext, hstop]
          next => exact hrest

end Overlap

section Acceptance

variable {es fs : List TextEdit}

theorem concurrent_eq_ok_iff {s : EditSet} :
    concurrent es = .ok s ↔
      InOrder (es.mergeSort comesBefore) ∧ s.edits = es.mergeSort comesBefore := by
  rw [← overlap?_eq_none_iff, concurrent]
  cases overlap? (es.mergeSort comesBefore) with
  | none =>
    constructor
    · intro h
      obtain rfl := Except.ok.inj h
      exact ⟨rfl, rfl⟩
    · rintro ⟨-, h⟩
      rw [← h]
  | some p => simp

/-- Edits are accepted exactly if any two of them are apart. -/
theorem exists_concurrent_iff : (∃ s, concurrent es = .ok s) ↔ es.Pairwise Apart := by
  have hsorts := sorts_mergeSort es
  have hapart : (es.mergeSort comesBefore).Pairwise Apart ↔ es.Pairwise Apart :=
    hsorts.perm.pairwise_iff Apart.symm
  constructor
  · rintro ⟨s, hs⟩
    obtain ⟨horder, -⟩ := concurrent_eq_ok_iff.mp hs
    exact hapart.mp (horder.imp .inl)
  · intro h
    have horder := inOrder_of_apart hsorts.ordered (hapart.mpr h)
    exact ⟨⟨_⟩, concurrent_eq_ok_iff.mpr ⟨horder, rfl⟩⟩

/-- Edits that are refused are refused with the same ends in any order. -/
theorem concurrent_error_congr (hperm : fs.Perm es) {e : Error} (h : concurrent es = .error e) :
    ∃ start stop, e = .overlappingEdits start stop ∧ concurrent fs = .error e := by
  have hends := overlap?_congr ((sorts_mergeSort es).ranges_eq (sorts_mergeSort fs) hperm)
  rw [concurrent] at *
  cases hes : overlap? (es.mergeSort comesBefore) with
  | none => simp [hes] at h
  | some p =>
    rw [hes] at h hends
    obtain ⟨q, hfs, hq⟩ := Option.map_eq_some_iff.mp hends
    obtain ⟨hstart, hstop⟩ := Prod.mk.inj hq
    obtain rfl := Except.error.inj h
    refine ⟨p.2.start, p.1.stop, rfl, ?_⟩
    simp only [hfs, hstart, hstop]

/-- Two edits of one range that are apart put text in at one offset. -/
theorem range_eq_empty_of_apart {a b : TextEdit} (h : Apart a b) (hrange : a.range = b.range) :
    a.range = .empty a.start := by
  rw [Apart, TextEdit.start, TextEdit.stop, TextEdit.start, TextEdit.stop, ← hrange] at h
  have hle := a.range.start_le_stop
  exact TextRange.ext_iff.mpr ⟨rfl, show a.range.stop = a.range.start by omega⟩

/-- Among edits that are apart there is at most one of each range, save where text is put in. So
the order of those insertions is the whole order within ranges. -/
theorem filter_range_eq (hperm : fs.Perm es) (hapart : es.Pairwise Apart)
    (hinsertions : ∀ offset, insertionsAt offset fs = insertionsAt offset es) (range : TextRange) :
    fs.filter (·.range = range) = es.filter (·.range = range) := by
  have hclass := hperm.filter (·.range = range)
  cases hes : es.filter (·.range = range) with
  | nil =>
    rw [hes] at hclass
    exact hclass.eq_nil
  | cons a rest =>
    cases rest with
    | nil =>
      rw [hes] at hclass
      exact List.perm_singleton.mp hclass
    | cons b rest =>
      have hrange : ∀ e ∈ a :: b :: rest, e.range = range := by
        intro e he
        rw [← hes] at he
        exact of_decide_eq_true (List.mem_filter.mp he).2
      have ha := hrange a (by simp)
      have hb := hrange b (by simp)
      have hab : (a :: b :: rest).Pairwise Apart := by
        rw [← hes]
        exact hapart.filter _
      have hempty := range_eq_empty_of_apart ((List.pairwise_cons.mp hab).1 b (by simp))
        (ha.trans hb.symm)
      rw [← hes, ← ha, hempty]
      exact hinsertions a.start

end Acceptance

/-- Edits placed in one text make a set exactly if any two of them are apart, and the set has them
sorted. In another order they make the same set or are refused with the same ends, as long as the
insertions at each offset keep their order. -/
theorem concurrent_ignores_order (es : List TextEdit) :
    ((∃ s, concurrent es = .ok s) ↔ es.Pairwise Apart) ∧
      (∀ s, concurrent es = .ok s → ∀ sorted, Sorts es sorted ↔ sorted = s.edits) ∧
      ∀ fs, fs.Perm es → (∀ offset, insertionsAt offset fs = insertionsAt offset es) →
        (∃ s, concurrent es = .ok s ∧ concurrent fs = .ok s) ∨
          ∃ start stop, concurrent es = .error (.overlappingEdits start stop) ∧
            concurrent fs = .error (.overlappingEdits start stop) := by
  refine ⟨exists_concurrent_iff, ?_, ?_⟩
  · intro s hs sorted
    obtain ⟨-, hedits⟩ := concurrent_eq_ok_iff.mp hs
    rw [hedits]
    constructor
    · intro h
      exact (sorts_mergeSort es).unique h (.refl es) fun _ => rfl
    · rintro rfl
      exact sorts_mergeSort es
  · intro fs hperm hinsertions
    cases hes : concurrent es with
    | error e =>
      obtain ⟨start, stop, rfl, hfs⟩ := concurrent_error_congr hperm hes
      exact .inr ⟨start, stop, rfl, hfs⟩
    | ok s =>
      refine .inl ⟨s, rfl, concurrent_eq_ok_iff.mpr ?_⟩
      obtain ⟨horder, hedits⟩ := concurrent_eq_ok_iff.mp hes
      have hapart := exists_concurrent_iff.mp ⟨s, hes⟩
      have hsame := (sorts_mergeSort es).unique (sorts_mergeSort fs) hperm
        (filter_range_eq hperm hapart hinsertions)
      rw [hsame]
      exact ⟨horder, hedits⟩

/-- Two insertions at the end of a replacement and one at its start, given from last to first. -/
theorem concurrent_ignores_order_shared :
    let a : TextEdit := .insert 3 "a".toList
    let b : TextEdit := .insert 3 "b".toList
    let c : TextEdit := ⟨.sized 1 2, "é".toList⟩
    let d : TextEdit := .insert 1 "d".toList
    ([a, b, c, d].Perm [d, c, a, b] ∧
        ∀ offset, insertionsAt offset [a, b, c, d] = insertionsAt offset [d, c, a, b]) ∧
      ∃ s, concurrent [d, c, a, b] = .ok s ∧ concurrent [a, b, c, d] = .ok s ∧
        s.edits = [d, c, a, b] := by
  intro a b c d
  have hperm : [a, b, c, d].Perm [d, c, a, b] := by decide
  have hinsertions : ∀ offset,
      insertionsAt offset [a, b, c, d] = insertionsAt offset [d, c, a, b] := by
    intro offset
    by_cases hthree : 3 = offset
    · subst hthree
      decide
    · simp [insertionsAt, List.filter_cons, TextRange.ext_iff, TextEdit.insert, a, b, c, d, hthree]
  have hall := concurrent_ignores_order [d, c, a, b]
  have hapart : [d, c, a, b].Pairwise Apart := by
    simp [Apart, TextEdit.insert, TextEdit.start, TextEdit.stop, a, b, c, d]
  have hsorts : Sorts [d, c, a, b] [d, c, a, b] :=
    ⟨.refl _, by simp [TextRange.Precedes, TextEdit.insert, a, b, c, d], fun _ => rfl⟩
  obtain ⟨s, hs⟩ := hall.1.mpr hapart
  have hedits := (hall.2.1 s hs _).mp hsorts
  obtain ⟨s', hs', hfs⟩ | ⟨start, stop, herror, -⟩ := hall.2.2 _ hperm hinsertions
  · obtain rfl := Except.ok.inj (hs.symm.trans hs')
    exact ⟨⟨hperm, hinsertions⟩, s, hs, hfs, hedits.symm⟩
  · simp [hs] at herror

end EditSet

end IncrementalSyntax
