import IncrementalSyntax.Proofs.Edit.Composition

/-!
The order of the edits in a set. There are two ways to make a set, and both leave its edits in
order, whatever the edits are that they are given. Edits placed in one text are in order because
neighbours that overlap are refused. Edits in turn are even kept apart from each other, since a new
edit is merged with every edit that it meets or touches (`separated_compose`). Edits in order that
fit a text can all be made in it (`rewrites_of_fits`).
-/
namespace IncrementalSyntax

namespace EditSet

/-- There are bytes between each edit and the next one. -/
def Separated : List TextEdit → Prop := List.Pairwise fun a b => a.stop < b.start

/-- The sets that there are: those of edits placed in one text, and those of edits in turn. -/
def Built (s : EditSet) : Prop :=
  ∃ es, concurrent es = .ok s ∨ ofSequence es = .ok s

theorem Separated.inOrder {es : List TextEdit} (h : Separated es) : InOrder es :=
  h.imp fun hlt => Nat.le_of_lt hlt

/-- If no edit overlaps its neighbour then none overlaps a later one. -/
theorem inOrder_of_overlap? {es : List TextEdit} (h : overlap? es = none) : InOrder es := by
  induction es with
  | nil => exact List.Pairwise.nil
  | cons a es ih =>
    cases es with
    | nil => exact List.pairwise_singleton _ a
    | cons b es =>
      rw [overlap?] at h
      split at h
      next => simp at h
      next hstart =>
        have hrest := ih h
        refine List.pairwise_cons.mpr ⟨?_, hrest⟩
        intro c hc
        rcases List.mem_cons.mp hc with rfl | hc
        · omega
        · have hnext := (List.pairwise_cons.mp hrest).1 c hc
          have hle := b.start_le_stop
          omega

theorem inOrder_concurrent {es : List TextEdit} {s : EditSet} (h : concurrent es = .ok s) :
    InOrder s.edits := by
  rw [concurrent] at h
  split at h
  next => simp at h
  next hnone =>
    obtain rfl := Except.ok.inj h
    exact inOrder_of_overlap? hnone

theorem bounds_of_rangeOf {start stop : Int} {range : TextRange}
    (h : rangeOf start stop = .ok range) :
    (range.start : Int) = start ∧ (range.stop : Int) = stop := by
  rw [rangeOf] at h
  split at h
  next hoffsets =>
    split at h
    next hle =>
      obtain rfl := Except.ok.inj h
      constructor
      · exact Int.toNat_of_nonneg hoffsets.1
      · exact Int.toNat_of_nonneg hoffsets.2.2.1
    next => simp at h
  next => simp at h

/-- A merged edit starts and ends where the new edit, put back into the old text, or an edit that it
meets does. -/
theorem merge_ends {shift : Int} {group : List TextEdit} {edit merged : TextEdit}
    (h : merge shift group edit = .ok merged) :
    ((merged.start : Int) = edit.start - shift ∨ ∃ e ∈ group, merged.start = e.start) ∧
      ((merged.stop : Int) = edit.stop - shift - totalDelta group ∨
        ∃ e ∈ group, merged.stop = e.stop) := by
  rcases List.eq_nil_or_concat group with rfl | ⟨init, last, rfl⟩
  · obtain ⟨range, hrange, hmerged⟩ := bind_eq_ok_iff.mp h
    obtain rfl := Except.ok.inj hmerged
    obtain ⟨hstart, hstop⟩ := bounds_of_rangeOf hrange
    refine ⟨.inl hstart, .inl ?_⟩
    rw [totalDelta_nil, Int.sub_zero]
    exact hstop
  · rw [List.concat_eq_append] at *
    obtain ⟨head, tail, hcons⟩ : ∃ head tail, init ++ [last] = head :: tail := by
      cases init <;> simp
    have hfirst : (init ++ [last]).head? = some head := by rw [hcons]; rfl
    have hfinal : (init ++ [last]).getLast? = some last := by simp
    simp only [merge, hfirst, hfinal] at h
    obtain ⟨p, -, h⟩ := bind_eq_ok_iff.mp h
    obtain ⟨q, -, h⟩ := bind_eq_ok_iff.mp h
    obtain ⟨range, hrange, hmerged⟩ := bind_eq_ok_iff.mp h
    obtain rfl := Except.ok.inj hmerged
    obtain ⟨hstart, hstop⟩ := bounds_of_rangeOf hrange
    have hhead : head ∈ init ++ [last] := by rw [hcons]; simp
    have hlast : last ∈ init ++ [last] := by simp
    constructor
    · by_cases hle : (edit.start : Int) - shift ≤ head.start
      · rw [Int.min_eq_left hle] at hstart
        exact .inl hstart
      · rw [Int.min_eq_right (by omega)] at hstart
        exact .inr ⟨head, hhead, Int.ofNat_inj.mp hstart⟩
    · by_cases hle : (edit.stop : Int) - shift - totalDelta (init ++ [last]) ≤ last.stop
      · rw [Int.max_eq_right hle] at hstop
        exact .inr ⟨last, hlast, Int.ofNat_inj.mp hstop⟩
      · rw [Int.max_eq_left (by omega)] at hstop
        exact .inl hstop

/-- Edits that are passed over end before the new edit, also when it is put back into the old
text. -/
theorem stop_lt_of_passed {es passed rest : List TextEdit} {start : Nat} (hes : Separated es)
    (h : spanMoved (fun shift e => e.start + shift + e.insertSize < (start : Int)) 0 es =
      (passed, rest)) :
    ∀ e ∈ passed, (e.stop : Int) < start - totalDelta passed := by
  rcases List.eq_nil_or_concat passed with rfl | ⟨init, last, rfl⟩
  · simp
  · rw [List.concat_eq_append] at *
    have hends := spanMoved_concat h
    have hdelta := last.delta_eq
    simp only [Int.zero_add, decide_eq_true_eq] at hends
    -- the last of them ends before the new edit, and the others end before the last one
    have hlast : (last.stop : Int) < start - totalDelta (init ++ [last]) := by
      simp only [totalDelta_append, totalDelta_cons, totalDelta_nil, Int.add_zero]
      omega
    intro e he
    rcases List.mem_append.mp he with he | he
    · rw [← append_eq_of_spanMoved h] at hes
      have hinit := (List.pairwise_append.mp hes).1
      have hlt := (List.pairwise_append.mp hinit).2.2 e he last (by simp)
      have hle := last.start_le_stop
      omega
    · obtain rfl := List.mem_singleton.mp he
      exact hlast

/-- Edits that are not reached start after the new edit. -/
theorem lt_start_of_left {es group after : List TextEdit} {shift : Int} {stop : Nat}
    (hes : Separated es)
    (h : spanMoved (fun shift e => e.start + shift ≤ (stop : Int)) shift es = (group, after)) :
    ∀ e ∈ after, (stop : Int) - shift - totalDelta group < e.start := by
  cases after with
  | nil => simp
  | cons f fs =>
    have hstarts := spanMoved_left h
    simp only [decide_eq_false_iff_not, Int.not_le] at hstarts
    intro e he
    rcases List.mem_cons.mp he with rfl | he
    · omega
    · rw [← append_eq_of_spanMoved h] at hes
      have hafter := (List.pairwise_append.mp hes).2.1
      have hlt := (List.pairwise_cons.mp hafter).1 e he
      have hle := f.start_le_stop
      omega

/-- The step lemma: one more edit in turn leaves the edits apart from each other. -/
theorem separated_compose {s s' : EditSet} {edit : TextEdit} (hs : Separated s.edits)
    (h : s.compose edit = .ok s') : Separated s'.edits := by
  rw [compose] at h
  generalize hfirst : spanMoved _ 0 s.edits = first at h
  obtain ⟨passed, rest⟩ := first
  simp only at h
  generalize hsecond : spanMoved _ (totalDelta passed) rest = second at h
  obtain ⟨group, after⟩ := second
  simp only at h
  obtain ⟨merged, hmerged, h⟩ := bind_eq_ok_iff.mp h
  obtain rfl := Except.ok.inj h
  have hedits := append_eq_of_spanMoved hfirst
  have hrest := append_eq_of_spanMoved hsecond
  have hpassed := stop_lt_of_passed hs hfirst
  rw [← hedits] at hs
  obtain ⟨hsepPassed, hsepRest, hacross⟩ := List.pairwise_append.mp hs
  have hleft := lt_start_of_left hsepRest hsecond
  rw [← hrest] at hsepRest hacross
  obtain ⟨-, hsepAfter, hgroup⟩ := List.pairwise_append.mp hsepRest
  obtain ⟨hstart, hstop⟩ := merge_ends hmerged
  have hbefore : ∀ e ∈ passed, e.stop < merged.start := by
    intro e he
    have hlt := hpassed e he
    rcases hstart with hstart | ⟨f, hf, hstart⟩
    · omega
    · have := hacross e he f (List.mem_append_left after hf)
      omega
  have hbehind : ∀ e ∈ after, merged.stop < e.start := by
    intro e he
    have hlt := hleft e he
    rcases hstop with hstop | ⟨f, hf, hstop⟩
    · omega
    · have := hgroup f hf e he
      omega
  refine List.pairwise_append.mpr ⟨hsepPassed, List.pairwise_cons.mpr ⟨hbehind, hsepAfter⟩, ?_⟩
  intro e he f hf
  rcases List.mem_cons.mp hf with rfl | hf
  · exact hbefore e he
  · exact hacross e he f (List.mem_append_right group hf)

/-- Edits in turn, whatever they are, leave a set of edits that are apart from each other. -/
theorem separated_ofSequence {es : List TextEdit} {s : EditSet} (h : ofSequence es = .ok s) :
    Separated s.edits := by
  have hrun : ∀ es : List TextEdit, ∀ s₀ : EditSet, Separated s₀.edits →
      es.foldlM compose s₀ = .ok s → Separated s.edits := by
    intro es
    induction es with
    | nil =>
      intro s₀ hs₀ hfold
      obtain rfl := Except.ok.inj hfold
      exact hs₀
    | cons e es ih =>
      intro s₀ hs₀ hfold
      rw [List.foldlM_cons] at hfold
      obtain ⟨s₁, hcompose, hfold⟩ := bind_eq_ok_iff.mp hfold
      exact ih s₁ (separated_compose hs₀ hcompose) hfold
  exact hrun es empty List.Pairwise.nil h

theorem Built.inOrder {s : EditSet} (h : s.Built) : InOrder s.edits := by
  obtain ⟨es, h | h⟩ := h
  · exact inOrder_concurrent h
  · exact (separated_ofSequence h).inOrder

theorem fits_of_checkFits {s : EditSet} {t : Text} (h : s.checkFits t = .ok ()) :
    ∀ e ∈ s.edits, e.fits t = true := by
  have hall : ∀ es : List TextEdit, es.forM (fun e => e.checkFits t) = .ok () →
      ∀ e ∈ es, e.fits t = true := by
    intro es
    induction es with
    | nil => simp
    | cons f es ih =>
      intro hes
      rw [List.forM_eq_forM, List.forM_cons] at hes
      obtain ⟨done, hf, hes⟩ := bind_eq_ok_iff.mp hes
      intro e he
      rcases List.mem_cons.mp he with rfl | he
      · by_cases hfits : e.fits t = true
        · exact hfits
        · simp [TextEdit.checkFits, hfits] at hf
      · exact ih hes e he
  exact hall s.edits h

/-- Edits in order that fit a text can be made in it, from any cut on that none of them starts
before. -/
theorem rewrites_of_fits {es : List TextEdit} {n : Nat} {a t : Text} (ha : a.size = n)
    (horder : InOrder es) (hfrom : ∀ e ∈ es, n ≤ e.start)
    (hfits : ∀ e ∈ es, e.fits (a ++ t) = true) : ∃ u, Rewrites n es t u := by
  induction es generalizing n a t with
  | nil => exact ⟨t, .nil n t⟩
  | cons e es ih =>
    obtain ⟨before, old, behind, hcut, hstart, hstop⟩ := TextEdit.fits_iff.mp (hfits e (by simp))
    have hle := hfrom e (by simp)
    rw [List.append_assoc] at hcut
    obtain ⟨kept, rfl, rfl⟩ := Text.append_eq_append_of_size_le hcut (by omega)
    rw [Text.size_append] at hstart
    obtain ⟨hnext, hrest⟩ := List.pairwise_cons.mp horder
    have hsize : (a ++ kept ++ old).size = e.stop := by
      simp only [Text.size_append]
      omega
    obtain ⟨u, hu⟩ := ih hsize hrest hnext (by
      intro f hf
      simpa using hfits f (by simp [hf]))
    have hkept : e.start = n + kept.size := by omega
    have hall := Rewrites.cons hkept hstop hu
    rw [List.append_assoc] at hall
    exact ⟨_, hall⟩

/-- A set that there is can be applied to every text that it is not refused for. -/
theorem Built.apply_eq_ok {s : EditSet} {t : Text} (hs : s.Built)
    (hfits : s.checkFits t = .ok ()) : ∃ u, s.apply t = .ok u := by
  obtain ⟨u, hu⟩ := rewrites_of_fits (a := []) (t := t) rfl hs.inOrder (by simp)
    (fits_of_checkFits hfits)
  exact ⟨u, apply_eq_ok_iff.mpr hu⟩

end EditSet

end IncrementalSyntax
