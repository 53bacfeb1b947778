import IncrementalSyntax.Proofs.Edit.Order

/-!
One pass over a text against one replacement after the other. A set is applied in one pass, which
checks each edit when it comes to it. Since the edits are in order, the pass stands at a boundary
and before the next edit all the time, so it stops only at an edit that does not fit, and that is
the first one of the set (`applyFrom_refused`). Where all edits fit, the edits made one at a time
from the last to the first leave the same text: each of them finds the text before it as it was
(`Rewrites.spliceAll_reverse`).
-/
namespace IncrementalSyntax

theorem TextEdit.spliceAll_append (es fs : List TextEdit) (t : Text) :
    spliceAll (es ++ fs) t = spliceAll es t >>= spliceAll fs := by
  induction es generalizing t with
  | nil => rfl
  | cons e es ih =>
    simp only [List.cons_append, spliceAll]
    cases e.splice t with
    | error f => rfl
    | ok u => exact ih u

/-- What edits rewrite a text to is what they leave when the last one is made first. -/
theorem Rewrites.spliceAll_reverse {n : Nat} {es : List TextEdit} {a t u : Text}
    (h : Rewrites n es t u) (ha : a.size = n) :
    TextEdit.spliceAll es.reverse (a ++ t) = .ok (a ++ u) := by
  induction es generalizing n a t u with
  | nil =>
    obtain rfl := h.nil_inv
    rfl
  | cons e es ih =>
    obtain ⟨kept, old, t', u', rfl, rfl, hstart, hstop, rest⟩ := h.cons_inv
    have hbehind : (a ++ kept ++ old).size = e.stop := by
      simp only [Text.size_append]
      omega
    have hlater := ih rest hbehind
    -- the later edits leave everything up to the end of `e` in its place
    have hsplice : e.splice (a ++ kept ++ old ++ u') = .ok (a ++ kept ++ e.replacement ++ u') :=
      TextEdit.splice_eq_ok (by rw [Text.size_append]; omega) hstop
    rw [List.reverse_cons, TextEdit.spliceAll_append]
    simp only [List.append_assoc] at *
    rw [hlater, ok_bind, TextEdit.spliceAll, hsplice]
    rfl

namespace EditSet

/-- The step lemma: the pass goes from a boundary over an edit that fits to the end of that edit,
and copies the text up to it. -/
theorem applyFrom_cons_of_fits {t a b : Text} {e : TextEdit} (ht : t = a ++ b)
    (hle : a.size ≤ e.start) (hfits : e.fits t = true) :
    ∃ kept c d, t = c ++ d ∧ c.size = e.stop ∧ ∀ es,
      applyFrom t a.size (e :: es) = do
        return kept ++ e.replacement ++ (← applyFrom t e.stop es) := by
  obtain ⟨before, old, behind, hcut, hstart, hstop⟩ := TextEdit.fits_iff.mp hfits
  have hsame : a ++ b = before ++ (old ++ behind) := by rw [← ht, hcut, List.append_assoc]
  obtain ⟨kept, rfl, rfl⟩ := Text.append_eq_append_of_size_le hsame (by omega)
  have hslice : t.slice a.size e.start = .ok kept :=
    Text.slice_eq_ok_iff.mpr ⟨a, old ++ behind, by simp [hcut], rfl, by
      rw [Text.size_append] at hstart
      omega⟩
  refine ⟨kept, a ++ kept ++ old, behind, hcut, ?_, ?_⟩
  · rw [Text.size_append]
    omega
  · intro es
    rw [applyFrom, TextEdit.checkFits, if_pos hfits, hslice]
    rfl

/-- The pass over edits in order stops with the error of the first edit that does not fit. -/
theorem applyFrom_refused {es : List TextEdit} {t a b : Text} {e : Error} (ht : t = a ++ b)
    (horder : InOrder es) (hfrom : ∀ f ∈ es, a.size ≤ f.start)
    (h : es.forM (·.checkFits t) = .error e) : applyFrom t a.size es = .error (.refused e) := by
  induction es generalizing a b with
  | nil => simp at h
  | cons f es ih =>
    rw [List.forM_eq_forM, List.forM_cons] at h
    by_cases hfits : f.fits t = true
    · obtain ⟨kept, c, d, hcut, hc, hstep⟩ := applyFrom_cons_of_fits ht (hfrom f (by simp)) hfits
      obtain ⟨hnext, hrest⟩ := List.pairwise_cons.mp horder
      rw [TextEdit.checkFits, if_pos hfits, ok_bind] at h
      rw [← hc] at hnext
      rw [hstep, ← hc, ih hcut hrest hnext h]
      rfl
    · rw [TextEdit.checkFits, if_neg hfits] at h
      obtain rfl := Except.error.inj h
      rw [applyFrom, TextEdit.checkFits, if_neg hfits]
      rfl

/-- A set that there is can be applied to a text exactly if it is not refused for it, and does what
its edits do one at a time from the last to the first; otherwise the error is the same. -/
theorem apply_agrees_with_splicing {s : EditSet} (hs : s.Built) (t : Text) :
    (s.checkFits t = .ok () ∧ ∃ u, s.apply t = .ok u ∧
        TextEdit.spliceAll s.edits.reverse t = .ok u ∧
        (u.size : Int) = t.size + totalDelta s.edits) ∨
      ∃ e, s.checkFits t = .error e ∧ s.apply t = .error (.refused e) := by
  cases hfits : s.checkFits t with
  | ok done =>
    obtain ⟨u, hu⟩ := hs.apply_eq_ok hfits
    have hrewrites := apply_eq_ok_iff.mp hu
    exact .inl ⟨rfl, u, hu, hrewrites.spliceAll_reverse (a := []) rfl, hrewrites.size_eq⟩
  | error e =>
    refine .inr ⟨e, rfl, ?_⟩
    exact applyFrom_refused (a := []) rfl hs.inOrder (fun f _ => Nat.zero_le f.start) hfits

/-- Two insertions where one replacement ends and the next one starts, in a text with characters of
two bytes. -/
theorem apply_agrees_with_splicing_adjacent :
    let s : EditSet := ⟨[⟨.sized 1 2, "xyz".toList⟩, .insert 3 "é".toList, .insert 3 "b".toList,
      ⟨.sized 3 2, []⟩]⟩
    let t : Text := "aéßc".toList
    s.Built ∧ s.checkFits t = .ok () ∧ s.apply t = .ok "axyzébc".toList ∧
      TextEdit.spliceAll s.edits.reverse t = .ok "axyzébc".toList ∧
      (Text.size "axyzébc".toList : Int) = t.size + totalDelta s.edits := by
  intro s t
  have hs : s.Built := by
    refine ⟨[⟨.sized 3 2, []⟩, .insert 3 "é".toList, ⟨.sized 1 2, "xyz".toList⟩,
      .insert 3 "b".toList], .inl ?_⟩
    simp [concurrent, List.mergeSort, List.MergeSort.Internal.splitInTwo, comesBefore, overlap?,
      TextEdit.insert, TextEdit.start, TextEdit.stop, s]
  have happly : s.apply t = .ok "axyzébc".toList := by decide
  obtain ⟨hfits, u, hu, hsplice, hsize⟩ | ⟨e, -, herror⟩ := apply_agrees_with_splicing hs t
  · obtain rfl := Except.ok.inj (happly.symm.trans hu)
    exact ⟨hs, hfits, happly, hsplice, hsize⟩
  · rw [happly] at herror
    simp at herror

end EditSet

end IncrementalSyntax
