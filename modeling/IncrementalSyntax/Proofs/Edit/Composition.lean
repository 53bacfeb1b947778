import IncrementalSyntax.Proofs.Edit.Rewriting

/-!
Edits in turn against edits at once. The invariant of `EditSet.ofSequence` is that the set made so
far rewrites the first text to the text that the edits so far have left. One more edit cuts that
text in three; the edits before it and after it stay, and the edits that it meets, with the new
one, become one edit (`merge_rewrites`). The main statement, `apply_ofSequence`, says that edits
that fit in turn always give a set, and that the set does at once what they do in turn.
-/
namespace IncrementalSyntax

namespace TextEdit

def spliceAll : List TextEdit → Text → Except Fault Text
  | [], t => .ok t
  | e :: es, t => do spliceAll es (← e.splice t)

/-- Each edit fits the text that the edits before it have left. -/
def FitInTurn : List TextEdit → Text → Prop
  | [], _ => True
  | e :: es, t => e.fits t = true ∧ ∀ u, e.splice t = .ok u → FitInTurn es u

instance FitInTurn.decide : (es : List TextEdit) → (t : Text) → Decidable (FitInTurn es t)
  | [], _ => isTrue trivial
  | e :: es, t =>
    match h : e.splice t with
    | .ok u =>
      have := FitInTurn.decide es u
      decidable_of_iff (e.fits t = true ∧ FitInTurn es u) (by simp [FitInTurn, h])
    | .error _ => decidable_of_iff (e.fits t = true) (by simp [FitInTurn, h])

end TextEdit

namespace EditSet

theorem append_eq_of_spanMoved {p : Int → TextEdit → Bool} {shift : Int}
    {es taken left : List TextEdit} (h : spanMoved p shift es = (taken, left)) :
    taken ++ left = es := by
  have happend := spanMoved_append p shift es
  rwa [h] at happend

theorem spanMoved_concat {p : Int → TextEdit → Bool} {shift : Int} {es taken left : List TextEdit}
    {e : TextEdit} (h : spanMoved p shift es = (taken ++ [e], left)) :
    p (shift + totalDelta taken) e = true := by
  induction es generalizing shift taken with
  | nil => simp [spanMoved] at h
  | cons f es ih =>
    rw [spanMoved] at h
    split at h
    next hf =>
      obtain ⟨htaken, hleft⟩ := Prod.mk.inj h
      cases taken with
      | nil =>
        obtain ⟨rfl, -⟩ := List.cons.inj htaken
        simpa using hf
      | cons g taken =>
        rw [List.cons_append] at htaken
        obtain ⟨rfl, htail⟩ := List.cons.inj htaken
        have := ih (Prod.ext htail hleft)
        rwa [totalDelta_cons, ← Int.add_assoc]
    next =>
      have hnil := (Prod.mk.inj h).1
      simp at hnil

theorem spanMoved_left {p : Int → TextEdit → Bool} {shift : Int} {es taken left : List TextEdit}
    {e : TextEdit} (h : spanMoved p shift es = (taken, e :: left)) :
    p (shift + totalDelta taken) e = false := by
  induction es generalizing shift taken with
  | nil => simp [spanMoved] at h
  | cons f es ih =>
    rw [spanMoved] at h
    split at h
    next hf =>
      obtain ⟨rfl, hleft⟩ := Prod.mk.inj h
      have := ih (Prod.ext rfl hleft)
      rwa [totalDelta_cons, ← Int.add_assoc]
    next hf =>
      obtain ⟨rfl, hleft⟩ := Prod.mk.inj h
      obtain ⟨rfl, -⟩ := List.cons.inj hleft
      simpa using hf

/-- There is an edit between two places of a text exactly if the second one is an offset. -/
theorem rangeOf_bind_eq_ok_iff {start stop : Nat} (h : start ≤ stop) {replacement : Text}
    {e : TextEdit} :
    (rangeOf start stop >>= fun range => pure ⟨range, replacement⟩) = .ok e ↔
      stop ≤ Offset.greatest ∧ ⟨⟨start, stop, h⟩, replacement⟩ = e := by
  rw [rangeOf]
  split
  next hrange =>
    have hstop : stop ≤ Offset.greatest := by omega
    simp [h, hstop]
  next hrange =>
    have hstop : ¬ stop ≤ Offset.greatest := by omega
    rw [error_bind]
    simp only [reduceCtorEq, hstop, false_and]

/-- A cut whose two ends, moved into the replacement, are the ends of a middle part gives it. -/
theorem cutOf_eq_ok {t a m b : Text} {start stop : Int} (ht : t = a ++ m ++ b)
    (hstart : min start.toNat t.size = a.size)
    (hstop : min (max stop.toNat a.size) t.size = a.size + m.size) :
    cutOf t start stop = .ok m := by
  have hslice : t.slice? a.size (a.size + m.size) = some m :=
    Text.slice?_eq_some_iff.mpr ⟨a, b, ht, rfl, rfl⟩
  simp only [cutOf, hstart, hstop, hslice]

/-- Where a merged edit begins. The text `before` in front of a new edit ends within the text kept
in front of the first edit `head` that it meets, or within the replacement of that edit, whose
beginning then stays. -/
theorem merge_start {n : Nat} {shift : Int} {head : TextEdit} {kept before x y : Text} {start : Nat}
    (hcut : kept ++ (head.replacement ++ x) = before ++ y) (hhead : head.start = n + kept.size)
    (hstart : (start : Int) = n + shift + before.size)
    (hmeets : (start : Int) ≤ head.start + shift + head.insertSize) :
    ∃ k₁ k₂ p, kept = k₁ ++ k₂ ∧ before = k₁ ++ p ∧
      cutOf head.replacement 0 (start - (head.start + shift)) = .ok p ∧
      min ((start : Int) - shift) head.start = (n + k₁.size : Nat) := by
  rw [TextEdit.insertSize] at hmeets
  by_cases hle : before.size ≤ kept.size
  · obtain ⟨k₂, rfl, -⟩ := Text.append_eq_append_of_size_le hcut.symm hle
    rw [Text.size_append] at hhead
    refine ⟨before, k₂, [], rfl, by simp, ?_, by omega⟩
    exact cutOf_eq_ok (a := []) (b := head.replacement) (by simp) (by simp)
      (by rw [Text.size_nil]; omega)
  · obtain ⟨p, rfl, hp⟩ := Text.append_eq_append_of_size_le hcut (by omega)
    rw [Text.size_append] at hstart hle
    obtain ⟨r, hr, -⟩ := Text.append_eq_append_of_size_le hp.symm (by omega)
    have hsize : head.replacement.size = p.size + r.size := by rw [hr, Text.size_append]
    refine ⟨kept, [], p, by simp, rfl, ?_, by omega⟩
    refine cutOf_eq_ok (a := []) (b := r) (by simpa using hr) (by simp) ?_
    simp only [Text.size_nil]
    omega

/-- Where a merged edit ends. A new edit ends within the replacement of the last edit `last` that
it meets, whose rest then stays, or in the text kept after that edit. -/
theorem merge_stop {n : Nat} {shift : Int} {last : TextEdit} {after : List TextEdit}
    {v through behind t u : Text} {stop : Nat} {lastStart : Int}
    (hcut : v ++ (last.replacement ++ u) = through ++ behind)
    (hlast : lastStart = n + shift + v.size) (hstop : (stop : Int) = n + shift + through.size)
    (hmeets : lastStart ≤ stop) (h : Rewrites last.stop after t u)
    (hafter : ∀ e es, after = e :: es →
      (stop : Int) < e.start + (lastStart + last.insertSize - last.stop)) :
    ∃ x q t' u', t = x ++ t' ∧ behind = q ++ u' ∧
      cutOf last.replacement (stop - lastStart) (lastStart + last.insertSize - lastStart) = .ok q ∧
      max ((stop : Int) - (lastStart + last.insertSize - last.stop)) last.stop =
        (last.stop + x.size : Nat) ∧
      Rewrites (last.stop + x.size) after t' u' := by
  simp only [TextEdit.insertSize] at hafter ⊢
  obtain ⟨w, rfl, hw⟩ := Text.append_eq_append_of_size_le hcut (by omega)
  rw [Text.size_append] at hstop
  by_cases hle : w.size ≤ last.replacement.size
  · obtain ⟨q, hq, rfl⟩ := Text.append_eq_append_of_size_le hw.symm hle
    have hsize : last.replacement.size = w.size + q.size := by rw [hq, Text.size_append]
    refine ⟨[], q, t, u, rfl, rfl, ?_, by simp; omega, by simpa using h⟩
    exact cutOf_eq_ok (a := w) (b := []) (by simpa using hq) (by omega) (by omega)
  · obtain ⟨x, rfl, rfl⟩ := Text.append_eq_append_of_size_le hw (by omega)
    rw [Text.size_append] at hstop hle
    obtain ⟨t', rfl, h'⟩ := h.skip (by
      intro e es he
      have := hafter e es he
      omega)
    refine ⟨x, [], t', behind, rfl, by simp, ?_, by omega, h'⟩
    exact cutOf_eq_ok (a := last.replacement) (b := []) (by simp) (by omega)
      (by rw [Text.size_nil]; omega)

/-- A new edit that meets no edit of the set goes back into the old text unchanged in kind. -/
theorem merge_nil_rewrites {n : Nat} {shift : Int} {edit : TextEdit} {after : List TextEdit}
    {t before old behind : Text} (h : Rewrites n after t (before ++ old ++ behind))
    (hstart : (edit.start : Int) = n + shift + before.size)
    (hstop : edit.stop = edit.start + old.size)
    (hafter : ∀ e es, after = e :: es → (edit.stop : Int) < e.start + shift) :
    ∃ merged : TextEdit,
      (∀ m, merge shift [] edit = .ok m ↔ merged.stop ≤ Offset.greatest ∧ merged = m) ∧
      Rewrites n (merged :: after) t (before ++ edit.replacement ++ behind) := by
  obtain ⟨w, rfl, hw⟩ := h.skip (by
    intro e es he
    have := hafter e es he
    simp only [Text.size_append]
    omega)
  have hs : (edit.start : Int) - shift = (n + before.size : Nat) := by omega
  have he : (edit.stop : Int) - shift = (n + before.size + old.size : Nat) := by omega
  refine ⟨⟨.sized (n + before.size) old.size, edit.replacement⟩, fun m => ?_, ?_⟩
  · simp only [merge, List.head?_nil, hs, he]
    exact rangeOf_bind_eq_ok_iff (Nat.le_add_right _ _)
  · refine Rewrites.cons rfl rfl ?_
    simpa [TextEdit.stop, Nat.add_assoc] using hw

theorem merge_concat_eq {shift : Int} {init tail : List TextEdit} {head last edit : TextEdit}
    {p q : Text} (hcons : init ++ [last] = head :: tail)
    (hp : cutOf head.replacement 0 (edit.start - (head.start + shift)) = .ok p)
    (hq : cutOf last.replacement
      (edit.stop - (last.start + shift + totalDelta (init ++ [last]) - last.delta))
      (last.start + shift + totalDelta (init ++ [last]) - last.delta + last.insertSize -
        (last.start + shift + totalDelta (init ++ [last]) - last.delta)) = .ok q) :
    merge shift (init ++ [last]) edit =
      (rangeOf (min ((edit.start : Int) - shift) head.start)
        (max ((edit.stop : Int) - shift - totalDelta (init ++ [last])) last.stop) >>=
        fun range => pure ⟨range, p ++ edit.replacement ++ q⟩) := by
  have hfirst : (init ++ [last]).head? = some head := by rw [hcons]; rfl
  have hfinal : (init ++ [last]).getLast? = some last := by simp
  simp only [merge, hfirst, hfinal, hp, hq, ok_bind]

/-- A new edit and the edits of the set that it meets become one edit of the old text, if its end
is an offset. -/
theorem merge_rewrites {n : Nat} {shift : Int} {edit : TextEdit} {group after : List TextEdit}
    {t before old behind : Text} (h : Rewrites n (group ++ after) t (before ++ old ++ behind))
    (hstart : (edit.start : Int) = n + shift + before.size)
    (hstop : edit.stop = edit.start + old.size)
    (hhead : ∀ e es, group = e :: es → (edit.start : Int) ≤ e.start + shift + e.insertSize)
    (hlast : ∀ e es, group = es ++ [e] → e.start + (shift + totalDelta es) ≤ (edit.stop : Int))
    (hafter : ∀ e es, after = e :: es →
      (edit.stop : Int) < e.start + (shift + totalDelta group)) :
    ∃ merged : TextEdit,
      (∀ m, merge shift group edit = .ok m ↔ merged.stop ≤ Offset.greatest ∧ merged = m) ∧
      Rewrites n (merged :: after) t (before ++ edit.replacement ++ behind) := by
  rcases List.eq_nil_or_concat group with rfl | ⟨init, last, rfl⟩
  · exact merge_nil_rewrites h hstart hstop (by simpa using hafter)
  rw [List.concat_eq_append] at *
  obtain ⟨t₁, t₂, u₁, u₂, rfl, hu, hgroup, hrest⟩ := h.append_inv
  have hsize := hgroup.size_eq
  obtain ⟨v, rfl, hend, hlastStart⟩ := hgroup.concat_inv
  obtain ⟨head, tail, hcons⟩ : ∃ head tail, init ++ [last] = head :: tail := by
    cases init <;> simp
  obtain ⟨kept, o, t', u', rfl, hv, hs, he, -⟩ := (hcons ▸ hgroup).cons_inv
  have hdelta := last.delta_eq
  have hmeets := hlast last init rfl
  -- the beginning of the merged edit is decided by the first edit of the group
  have hcut : kept ++ (head.replacement ++ (u' ++ u₂)) = before ++ (old ++ behind) := by
    rw [hv] at hu
    simpa using hu.symm
  obtain ⟨k₁, k₂, p, rfl, rfl, hp, hlow⟩ := merge_start hcut hs hstart (hhead head tail hcons)
  -- its end is decided by the last one
  have hcut' : v ++ (last.replacement ++ u₂) = (k₁ ++ p ++ old) ++ behind := by
    simpa using hu.symm
  have hthrough : (edit.stop : Int) = n + shift + (k₁ ++ p ++ old).size := by
    rw [Text.size_append _ old]
    omega
  have hlastAt : (last.start : Int) + shift + totalDelta (init ++ [last]) - last.delta =
      n + shift + v.size := by
    simp only [totalDelta_append, totalDelta_cons, totalDelta_nil, Int.add_zero]
    omega
  obtain ⟨x, q, t₃, u₃, rfl, rfl, hq, hhigh, hafter'⟩ := merge_stop hcut' hlastAt hthrough
    (by simp; omega) (hend ▸ hrest) (by
      intro e es hes
      have := hafter e es hes
      simp only [totalDelta_append, totalDelta_cons, totalDelta_nil, Int.add_zero] at this ⊢
      omega)
  have hat : last.stop + x.size = n + k₁.size + (k₂ ++ o ++ t' ++ x).size := by
    rw [hend]
    simp only [List.append_assoc, Text.size_append]
    omega
  let merged : TextEdit :=
    ⟨.sized (n + k₁.size) (k₂ ++ o ++ t' ++ x).size, p ++ edit.replacement ++ q⟩
  refine ⟨merged, fun m => ?_, ?_⟩
  · have hback : (edit.stop : Int) - shift - totalDelta (init ++ [last]) =
        edit.stop - (last.start + shift + totalDelta (init ++ [last]) - last.delta +
          last.insertSize - last.stop) := by omega
    rw [merge_concat_eq hcons hp hq, hlow, hback, hhigh, hat]
    exact rangeOf_bind_eq_ok_iff (Nat.le_add_right _ _)
  · have hrest' : Rewrites merged.stop after t₃ u₃ := by
      rw [hat] at hafter'
      exact hafter'
    have hnew : Rewrites n (merged :: after) (k₁ ++ (k₂ ++ o ++ t' ++ x) ++ t₃)
        (k₁ ++ merged.replacement ++ u₃) := .cons rfl rfl hrest'
    simpa [merged] using hnew

/-- One more edit of the new text, put into a set, makes the set rewrite the old text to what the
edit leaves of the new one. It can be put in if all places of the old text are offsets. -/
theorem exists_composed {s : EditSet} {edit : TextEdit} {t before old behind : Text}
    (h : Rewrites 0 s.edits t (before ++ old ++ behind)) (hstart : before.size = edit.start)
    (hstop : edit.stop = edit.start + old.size) :
    ∃ composed : EditSet, Rewrites 0 composed.edits t (before ++ edit.replacement ++ behind) ∧
      (t.size ≤ Offset.greatest → s.compose edit = .ok composed) ∧
      ∀ s', s.compose edit = .ok s' → composed = s' := by
  rw [compose]
  generalize hfirst : spanMoved _ 0 s.edits = first
  obtain ⟨passed, rest⟩ := first
  simp only
  generalize hsecond : spanMoved _ (totalDelta passed) rest = second
  obtain ⟨group, after⟩ := second
  have hrest : group ++ after = rest := append_eq_of_spanMoved hsecond
  have hedits : passed ++ rest = s.edits := append_eq_of_spanMoved hfirst
  rw [← hedits, ← hrest] at h
  obtain ⟨t₁, t₂, u₁, u₂, rfl, hu, hpassed, hmet⟩ := h.append_inv
  have hsize := hpassed.size_eq
  -- the edits passed over end before the new one starts
  have hle : u₁.size ≤ before.size := by
    rcases List.eq_nil_or_concat passed with rfl | ⟨init, last, rfl⟩
    · cases hpassed
      simp
    · rw [List.concat_eq_append] at hfirst hpassed
      have hends := spanMoved_concat hfirst
      obtain ⟨v, rfl, -, hv⟩ := hpassed.concat_inv
      simp only [Int.zero_add, TextEdit.insertSize, decide_eq_true_eq] at hends
      rw [Text.size_append]
      omega
  rw [List.append_assoc] at hu
  obtain ⟨a, rfl, rfl⟩ := Text.append_eq_append_of_size_le hu.symm hle
  rw [Text.size_append] at hstart
  rw [← List.append_assoc a] at hmet
  have hat : (edit.start : Int) = (0 + t₁.size : Nat) + totalDelta passed + a.size := by omega
  obtain ⟨merged, hmerged, hnew⟩ := merge_rewrites hmet hat hstop
    (by
      rintro e es rfl
      have := spanMoved_left (hrest ▸ hfirst)
      simp only [Int.zero_add, decide_eq_false_iff_not, Int.not_lt] at this
      omega)
    (by
      rintro e es rfl
      have := spanMoved_concat hsecond
      simpa using this)
    (by
      rintro e es rfl
      have := spanMoved_left hsecond
      simpa using this)
  refine ⟨⟨passed ++ merged :: after⟩, by simpa using Rewrites.append hpassed hnew, ?_, ?_⟩
  · intro hfits
    have hle := hnew.stop_le merged (List.mem_cons_self ..)
    rw [Text.size_append] at hfits
    rw [(hmerged merged).mpr ⟨by omega, rfl⟩, ok_bind, pure_eq_ok]
  · intro s' hs'
    obtain ⟨m, hm, hs'⟩ := bind_eq_ok_iff.mp hs'
    obtain ⟨-, rfl⟩ := (hmerged m).mp hm
    exact Except.ok.inj hs'

/-- Edits that fit in turn go into a set one by one, and the set does what they do. -/
theorem foldlM_compose_rewrites {es : List TextEdit} {s : EditSet} {t u : Text}
    (h : Rewrites 0 s.edits t u) (hfits : t.size ≤ Offset.greatest)
    (hes : TextEdit.FitInTurn es u) :
    ∃ s' v, es.foldlM compose s = .ok s' ∧ TextEdit.spliceAll es u = .ok v ∧
      Rewrites 0 s'.edits t v := by
  induction es generalizing s u with
  | nil => exact ⟨s, u, rfl, rfl, h⟩
  | cons e es ih =>
    obtain ⟨hfit, hnext⟩ := hes
    obtain ⟨before, old, behind, rfl, hstart, hstop⟩ := TextEdit.fits_iff.mp hfit
    have hsplice := TextEdit.splice_eq_ok (b := behind) hstart hstop
    obtain ⟨s₁, h₁, hcompose, -⟩ := exists_composed h hstart hstop
    obtain ⟨s₂, v, hfold, hall, h₂⟩ := ih h₁ (hnext _ hsplice)
    refine ⟨s₂, v, ?_, ?_, h₂⟩
    · rw [List.foldlM_cons, hcompose hfits, ok_bind, hfold]
    · rw [TextEdit.spliceAll, hsplice, ok_bind, hall]

/-- A set that edits have gone into one by one does what they do, whatever the size of the text. -/
theorem rewrites_of_foldlM_compose {es : List TextEdit} {s s' : EditSet} {t u v : Text}
    (h : Rewrites 0 s.edits t u) (hes : TextEdit.FitInTurn es u)
    (hfold : es.foldlM compose s = .ok s') (hall : TextEdit.spliceAll es u = .ok v) :
    Rewrites 0 s'.edits t v := by
  induction es generalizing s u with
  | nil =>
    obtain rfl := Except.ok.inj hfold
    obtain rfl := Except.ok.inj hall
    exact h
  | cons e es ih =>
    obtain ⟨hfit, hnext⟩ := hes
    obtain ⟨before, old, behind, rfl, hstart, hstop⟩ := TextEdit.fits_iff.mp hfit
    have hsplice := TextEdit.splice_eq_ok (b := behind) hstart hstop
    rw [TextEdit.spliceAll, hsplice, ok_bind] at hall
    obtain ⟨s₁, hcompose, hrest⟩ := bind_eq_ok_iff.mp hfold
    obtain ⟨composed, h₁, -, hunique⟩ := exists_composed h hstart hstop
    obtain rfl := hunique s₁ hcompose
    exact ih h₁ (hnext _ hsplice) hrest hall

/-- Edits that fit in turn compose: there is a set for them, and it turns the first text into the
text that the edits leave when they are made one after the other. -/
theorem apply_ofSequence (es : List TextEdit) (t : Text) (hfits : TextEdit.FitInTurn es t)
    (hsize : t.size ≤ Offset.greatest) :
    ∃ s u, ofSequence es = .ok s ∧ TextEdit.spliceAll es t = .ok u ∧ s.apply t = .ok u := by
  obtain ⟨s, u, hs, hu, h⟩ := foldlM_compose_rewrites (s := empty) (.nil 0 t) hsize hfits
  exact ⟨s, u, hs, hu, apply_eq_ok_iff.mpr h⟩

/-- Two edits, and a third one that cuts the replacements of both inside of them. -/
theorem apply_ofSequence_across :
    let es : List TextEdit :=
      [⟨.sized 2 2, "ßa".toList⟩, ⟨.sized 7 1, "bü".toList⟩, ⟨.sized 4 4, "-".toList⟩]
    let t : Text := "01é345678".toList
    (TextEdit.FitInTurn es t ∧ t.size ≤ Offset.greatest) ∧
      ∃ s u, ofSequence es = .ok s ∧ TextEdit.spliceAll es t = .ok u ∧ s.apply t = .ok u :=
  ⟨by decide, apply_ofSequence _ _ (by decide) (by decide)⟩

end EditSet

end IncrementalSyntax
