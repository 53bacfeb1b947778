import IncrementalSyntax.Proofs.Edit.Order
import IncrementalSyntax.Proofs.Edit.Walk
import Mathlib.Data.List.Chain

/-!
Sets taken apart and composed again. The edits of a set can be made one after the other from the
last to the first, each in its own place, or from the first to the last, each where the edits before
it have moved it (`EditSet.inTurn`). If the edits are apart from each other then composing them
gives the same set again, edit by edit: an edit in front of all others is put first
(`compose_in_front`), and a moved edit behind all others is moved back and put last
(`compose_behind`), since edits that are apart take no more bytes away than stand in front of the
next one (`le_start_add_totalDelta`).
-/
namespace IncrementalSyntax

namespace EditSet

/-- The edits of a set as edits in turn, from the first to the last: the range of each is moved by
what the edits before it make the text longer by, and the first one by `shift`. -/
def inTurn (shift : Int) : List TextEdit → Except Error (List TextEdit)
  | [] => .ok []
  | e :: es => do
    let range ← rangeOf (e.start + shift) (e.stop + shift)
    let later ← inTurn (shift + e.delta) es
    return ⟨range, e.replacement⟩ :: later

/-- Edits that are moved in turn, the first one by `shift`, end at the greatest offset or before
it. -/
def MovedWithin (shift : Int) : List TextEdit → Prop
  | [] => True
  | e :: es => e.stop + shift ≤ (Offset.greatest : Nat) ∧ MovedWithin (shift + e.delta) es

instance MovedWithin.decide (shift : Int) : (es : List TextEdit) → Decidable (MovedWithin shift es)
  | [] => isTrue trivial
  | e :: es =>
    have := MovedWithin.decide (shift + e.delta) es
    inferInstanceAs (Decidable (_ ∧ _))

/-- Edits that end before their neighbours start are all apart from each other. -/
theorem separated_of_isChain {es : List TextEdit} (h : es.IsChain fun a b => a.stop < b.start) :
    Separated es := by
  have : Trans (fun a b : TextEdit => a.stop < b.start) (fun a b : TextEdit => a.stop < b.start)
      (fun a b : TextEdit => a.stop < b.start) :=
    ⟨fun {_ b _} hab hbc => Nat.lt_trans hab (Nat.lt_of_le_of_lt b.start_le_stop hbc)⟩
  exact h.pairwise

section Parts

variable {p : Int → TextEdit → Bool} {shift : Int} {es : List TextEdit}

theorem spanMoved_eq_all
    (h : ∀ before e after, es = before ++ e :: after → p (shift + totalDelta before) e = true) :
    spanMoved p shift es = (es, []) := by
  induction es generalizing shift with
  | nil => rfl
  | cons e es ih =>
    have hfirst := h [] e es rfl
    have hrest : spanMoved p (shift + e.delta) es = (es, []) := by
      refine ih fun before f after hes => ?_
      have := h (e :: before) f after (congrArg (e :: ·) hes)
      rwa [totalDelta_cons, ← Int.add_assoc] at this
    rw [totalDelta_nil, Int.add_zero] at hfirst
    rw [spanMoved, if_pos hfirst, hrest]

theorem spanMoved_eq_none (h : ∀ e fs, es = e :: fs → p shift e = false) :
    spanMoved p shift es = ([], es) := by
  cases es with
  | nil => rfl
  | cons e es => rw [spanMoved, h e es rfl, if_neg (by decide)]

end Parts

/-- Edits that start at byte `n` or behind it and are apart move a later edit at most back to
byte `n`. -/
theorem le_start_add_totalDelta {n : Nat} {es : List TextEdit} {e : TextEdit}
    (hes : Separated (es ++ [e])) (hn : ∀ f ∈ es ++ [e], n ≤ f.start) :
    (n : Int) ≤ e.start + totalDelta es := by
  induction es generalizing n with
  | nil => simpa using hn
  | cons f es ih =>
    obtain ⟨hbehind, hrest⟩ := List.pairwise_cons.mp hes
    have hlater := ih (n := f.stop) hrest fun g hg => Nat.le_of_lt (hbehind g hg)
    have hstart := hn f (by simp)
    have hdelta := f.delta_eq
    rw [totalDelta_cons]
    omega

theorem exists_rangeOf {start stop : Int} (hstart : 0 ≤ start) (hle : start ≤ stop)
    (hstop : stop ≤ (Offset.greatest : Nat)) : ∃ range, rangeOf start stop = .ok range := by
  refine ⟨⟨start.toNat, stop.toNat, Int.toNat_le_toNat hle⟩, ?_⟩
  rw [rangeOf, if_pos (by omega), dif_pos (Int.toNat_le_toNat hle)]

/-- An edit that meets no other one and goes back to the place of `e` is put into the set as `e`. -/
theorem merge_nil_eq {shift : Int} {edit e : TextEdit}
    (hstart : (edit.start : Int) = e.start + shift) (hstop : (edit.stop : Int) = e.stop + shift)
    (hreplacement : edit.replacement = e.replacement) (hoffset : e.stop ≤ Offset.greatest) :
    merge shift [] edit = .ok e := by
  have hs : (edit.start : Int) - shift = e.start := by omega
  have he : (edit.stop : Int) - shift = e.stop := by omega
  simp only [merge, List.head?_nil, hs, he, hreplacement]
  exact (rangeOf_bind_eq_ok_iff e.start_le_stop).mpr ⟨hoffset, rfl⟩

/-- An edit in front of all edits of a set is put first, where it is. -/
theorem compose_in_front {e : TextEdit} {es : List TextEdit} (hes : Separated (e :: es))
    (hoffset : e.stop ≤ Offset.greatest) : compose ⟨es⟩ e = .ok ⟨e :: es⟩ := by
  have hbehind := (List.pairwise_cons.mp hes).1
  have hle := e.start_le_stop
  have hfirst : spanMoved (endsBefore e) 0 es = ([], es) := by
    refine spanMoved_eq_none fun f fs hf => decide_eq_false ?_
    have := hbehind f (by simp [hf])
    omega
  have hsecond : spanMoved (startsWithin e) (totalDelta []) es = ([], es) := by
    refine spanMoved_eq_none fun f fs hf => decide_eq_false ?_
    have := hbehind f (by simp [hf])
    rw [totalDelta_nil]
    omega
  rw [compose_eq hfirst hsecond, merge_nil_eq (by simp) (by simp) rfl hoffset]
  rfl

/-- An edit that stands where the edits of a set move `e`, which is behind all of them, is put last
as `e`. -/
theorem compose_behind {es : List TextEdit} {e edit : TextEdit} (hes : Separated (es ++ [e]))
    (hstart : (edit.start : Int) = e.start + totalDelta es)
    (hstop : (edit.stop : Int) = e.stop + totalDelta es)
    (hreplacement : edit.replacement = e.replacement) (hoffset : e.stop ≤ Offset.greatest) :
    compose ⟨es⟩ edit = .ok ⟨es ++ [e]⟩ := by
  have hfirst : spanMoved (endsBefore edit) 0 es = (es, []) := by
    refine spanMoved_eq_all ?_
    rintro before f after rfl
    rw [List.append_assoc] at hes
    obtain ⟨hbehind, hrest⟩ := List.pairwise_cons.mp (List.pairwise_append.mp hes).2.1
    -- what stands behind `f` moves `e` at most back to the end of `f`
    have hlater := le_start_add_totalDelta hrest hbehind
    have hdelta := f.delta_eq
    simp only [totalDelta_append, totalDelta_cons] at hstart
    refine decide_eq_true ?_
    omega
  have hsecond : spanMoved (startsWithin edit) (totalDelta es) [] = ([], []) := rfl
  rw [compose_eq hfirst hsecond, merge_nil_eq hstart hstop hreplacement hoffset]
  rfl

/-- Edits that are apart, composed from the last to the first, are put in front one by one. -/
theorem ofSequence_reverse {es : List TextEdit} (hes : Separated es)
    (hoffsets : ∀ e ∈ es, e.stop ≤ Offset.greatest) : ofSequence es.reverse = .ok ⟨es⟩ := by
  induction es with
  | nil => rfl
  | cons e es ih =>
    have hlater := ih (List.pairwise_cons.mp hes).2 fun f hf => hoffsets f (by simp [hf])
    rw [ofSequence] at hlater
    rw [ofSequence, List.reverse_cons, List.foldlM_append, hlater, ok_bind, List.foldlM_cons,
      compose_in_front hes (hoffsets e (by simp))]
    rfl

/-- Edits that are apart, each moved by the edits before it, are put behind those of a set one by
one. -/
theorem foldlM_compose_inTurn {done todo : List TextEdit} (hes : Separated (done ++ todo))
    (hoffsets : ∀ e ∈ todo, e.stop ≤ Offset.greatest)
    (hmoved : MovedWithin (totalDelta done) todo) :
    ∃ turns, inTurn (totalDelta done) todo = .ok turns ∧
      turns.foldlM compose ⟨done⟩ = .ok ⟨done ++ todo⟩ := by
  induction todo generalizing done with
  | nil => exact ⟨[], rfl, by simp⟩
  | cons e todo ih =>
    rw [List.append_cons] at hes ⊢
    obtain ⟨hwithin, hrest⟩ := hmoved
    have hbefore := (List.pairwise_append.mp hes).1
    have hlow := le_start_add_totalDelta hbefore fun f _ => Nat.zero_le f.start
    have hle := e.start_le_stop
    obtain ⟨range, hrange⟩ := exists_rangeOf hlow (by omega) hwithin
    obtain ⟨hstart, hstop⟩ := bounds_of_rangeOf hrange
    have hput : compose ⟨done⟩ ⟨range, e.replacement⟩ = .ok ⟨done ++ [e]⟩ :=
      compose_behind hbefore hstart hstop rfl (hoffsets e (by simp))
    have hsum : totalDelta (done ++ [e]) = totalDelta done + e.delta := by simp
    rw [← hsum] at hrest
    obtain ⟨turns, hturns, hfold⟩ := ih hes (fun f hf => hoffsets f (by simp [hf])) hrest
    refine ⟨⟨range, e.replacement⟩ :: turns, ?_, ?_⟩
    · rw [inTurn, hrange, ok_bind, ← hsum, hturns]
      rfl
    · rw [List.foldlM_cons, hput, ok_bind, hfold]

/-- Edits that end before their neighbours start make up the same set again, whether they are
composed from the last to the first, each in its own place, or from the first to the last, each
moved by the edits before it. -/
theorem ofSequence_recomposes (s : EditSet)
    (happart : s.edits.IsChain fun a b => a.stop < b.start)
    (hoffsets : ∀ e ∈ s.edits, e.stop ≤ Offset.greatest) :
    ofSequence s.edits.reverse = .ok s ∧
      (MovedWithin 0 s.edits →
        ∃ turns, inTurn 0 s.edits = .ok turns ∧ ofSequence turns = .ok s) := by
  have hes := separated_of_isChain happart
  exact ⟨ofSequence_reverse hes hoffsets, @foldlM_compose_inTurn [] s.edits hes hoffsets⟩

/-- An insertion, a replacement that shrinks the text, and one that makes it longer. -/
theorem ofSequence_recomposes_mixed :
    let s : EditSet :=
      ⟨[.insert 2 "aé".toList, ⟨.sized 3 5, "b".toList⟩, ⟨.sized 9 1, "xyz".toList⟩]⟩
    let turns : List TextEdit :=
      [.insert 2 "aé".toList, ⟨.sized 6 5, "b".toList⟩, ⟨.sized 8 1, "xyz".toList⟩]
    ((s.edits.IsChain fun a b => a.stop < b.start) ∧
        (∀ e ∈ s.edits, e.stop ≤ Offset.greatest) ∧ MovedWithin 0 s.edits) ∧
      ofSequence s.edits.reverse = .ok s ∧ inTurn 0 s.edits = .ok turns ∧
        ofSequence turns = .ok s := by
  intro s turns
  have hpremises : (s.edits.IsChain fun a b => a.stop < b.start) ∧
      (∀ e ∈ s.edits, e.stop ≤ Offset.greatest) ∧ MovedWithin 0 s.edits := by decide
  have hturns : inTurn 0 s.edits = .ok turns := by decide
  obtain ⟨hreverse, hmoved⟩ := ofSequence_recomposes s hpremises.1 hpremises.2.1
  obtain ⟨turns', hturns', hsequence⟩ := hmoved hpremises.2.2
  obtain rfl := Except.ok.inj (hturns.symm.trans hturns')
  exact ⟨hpremises, hreverse, hturns, hsequence⟩

end EditSet

end IncrementalSyntax
