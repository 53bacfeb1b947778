import IncrementalSyntax.Proofs.Edit.Order

/-!
Where edits move the text that they leave. An offset that no edit replaces the bytes around cuts
the old text in two, and the edits with it: those that start before the offset rewrite the first
part, the others the second one (`Rewrites.cut`). So the offset moves to where the first part ends
after its edits. Two such cuts around a range that no edit touches leave no edit for what stands
between them, which therefore stands in the new text as it is. `ranges_move_verbatim` puts this
together for every set that there is.
-/
namespace IncrementalSyntax

/-- The edit replaces the bytes on both sides of the offset. -/
def TextEdit.Encloses (e : TextEdit) (offset : Nat) : Prop := e.start < offset ∧ offset < e.stop

/-- The edit reaches the range or one of its two ends. -/
def TextEdit.Meets (e : TextEdit) (range : TextRange) : Prop :=
  e.start ≤ range.stop ∧ range.start ≤ e.stop

namespace EditSet

def before (s : EditSet) (offset : Nat) : EditSet :=
  ⟨s.edits.filter fun e => e.start < offset⟩

/-- Edits that start at or after an offset are not among those before it. -/
theorem filter_before_eq_nil {es : List TextEdit} {offset : Nat}
    (h : ∀ e ∈ es, offset ≤ e.start) : es.filter (fun e => e.start < offset) = [] := by
  refine List.filter_eq_nil_iff.mpr ?_
  intro e he hlt
  have hle := h e he
  have hlt' : e.start < offset := by simpa using hlt
  omega

theorem filter_from_eq_self {es : List TextEdit} {offset : Nat}
    (h : ∀ e ∈ es, offset ≤ e.start) : es.filter (fun e => offset ≤ e.start) = es := by
  refine List.filter_eq_self.mpr ?_
  intro e he
  simpa using h e he

/-- The edits after one that ends behind an offset start behind it too. -/
theorem start_ge_of_inOrder {e : TextEdit} {es : List TextEdit} {offset : Nat}
    (h : InOrder (e :: es)) (hle : offset ≤ e.start) : ∀ f ∈ e :: es, offset ≤ f.start := by
  intro f hf
  rcases List.mem_cons.mp hf with rfl | hf
  · exact hle
  · have hnext := (List.pairwise_cons.mp h).1 f hf
    have := e.start_le_stop
    omega

/-- An offset has no place after the edits exactly if one of them replaces the bytes around it. -/
theorem shiftAt_eq_none_iff {es : List TextEdit} {offset : Nat} (h : InOrder es) :
    shiftAt offset es = none ↔ ∃ e ∈ es, e.Encloses offset := by
  induction es with
  | nil => simp [shiftAt]
  | cons e es ih =>
    have hrest := ih (List.pairwise_cons.mp h).2
    rw [shiftAt]
    by_cases hle : offset ≤ e.start
    · rw [if_pos hle]
      constructor
      · simp
      · rintro ⟨f, hf, hstart, -⟩
        have := start_ge_of_inOrder h hle f hf
        omega
    · by_cases hstop : e.stop ≤ offset
      · rw [if_neg hle, if_pos hstop, Option.map_eq_none_iff, hrest]
        constructor
        · rintro ⟨f, hf, hencloses⟩
          exact ⟨f, List.mem_cons_of_mem e hf, hencloses⟩
        · rintro ⟨f, hf, hencloses⟩
          rcases List.mem_cons.mp hf with rfl | hf
          · have := hencloses.2
            omega
          · exact ⟨f, hf, hencloses⟩
      · rw [if_neg hle, if_neg hstop]
        have hencloses : e.Encloses offset := ⟨by omega, by omega⟩
        simp only [true_iff]
        exact ⟨e, List.mem_cons_self, hencloses⟩

/-- An offset is moved by what the edits that start before it add together. -/
theorem shiftAt_eq_some {es : List TextEdit} {offset : Nat} {shift : Int} (h : InOrder es)
    (hshift : shiftAt offset es = some shift) :
    shift = totalDelta (es.filter fun e => e.start < offset) := by
  induction es generalizing shift with
  | nil => simpa [shiftAt] using hshift.symm
  | cons e es ih =>
    rw [shiftAt] at hshift
    by_cases hle : offset ≤ e.start
    · rw [if_pos hle] at hshift
      rw [filter_before_eq_nil (start_ge_of_inOrder h hle), totalDelta_nil]
      exact (Option.some.inj hshift).symm
    · rw [if_neg hle] at hshift
      by_cases hstop : e.stop ≤ offset
      · rw [if_pos hstop] at hshift
        obtain ⟨rest, hrest, rfl⟩ := Option.map_eq_some_iff.mp hshift
        rw [List.filter_cons_of_pos (by simpa using hle), totalDelta_cons,
          ih (List.pairwise_cons.mp h).2 hrest]
      · simp [hstop] at hshift

/-- Only the first edit that does not end before a range can reach it, if any does. -/
theorem touches_iff {s : EditSet} (h : InOrder s.edits) {range : TextRange} :
    s.touches range = true ↔ ∃ e ∈ s.edits, e.Meets range := by
  obtain ⟨es⟩ := s
  induction es with
  | nil => simp [touches]
  | cons e es ih =>
    obtain ⟨hnext, hrest⟩ := List.pairwise_cons.mp h
    by_cases hstop : e.stop < range.start
    · have hskip : touches ⟨e :: es⟩ range = touches ⟨es⟩ range := by simp [touches, hstop]
      rw [hskip, ih hrest]
      constructor
      · rintro ⟨f, hf, hmeets⟩
        exact ⟨f, List.mem_cons_of_mem e hf, hmeets⟩
      · rintro ⟨f, hf, hmeets⟩
        rcases List.mem_cons.mp hf with rfl | hf
        · have := hmeets.2
          omega
        · exact ⟨f, hf, hmeets⟩
    · have hfirst : touches ⟨e :: es⟩ range = decide (e.start ≤ range.stop) := by
        simp [touches, hstop]
      rw [hfirst, decide_eq_true_iff]
      constructor
      · intro hstart
        exact ⟨e, List.mem_cons_self, hstart, by omega⟩
      · rintro ⟨f, hf, hstart, -⟩
        rcases List.mem_cons.mp hf with rfl | hf
        · exact hstart
        · have := hnext f hf
          have := e.start_le_stop
          omega

end EditSet

namespace Rewrites

open EditSet

theorem inOrder {n : Nat} {es : List TextEdit} {t u : Text} (h : Rewrites n es t u) :
    InOrder es ∧ ∀ e ∈ es, n ≤ e.start := by
  induction es generalizing n t u with
  | nil => exact ⟨List.Pairwise.nil, by simp⟩
  | cons e es ih =>
    obtain ⟨kept, old, t', u', rfl, rfl, hstart, hstop, rest⟩ := h.cons_inv
    obtain ⟨horder, hfrom⟩ := ih rest
    have hall : InOrder (e :: es) := List.pairwise_cons.mpr ⟨hfrom, horder⟩
    exact ⟨hall, start_ge_of_inOrder hall (by omega)⟩

/-- A cut of the old text that no edit replaces the bytes around is a cut of the new one. The edits
that start before it rewrite what stands before it, and the others what stands after it. -/
theorem cut {n : Nat} {es : List TextEdit} {a b u : Text} (h : Rewrites n es (a ++ b) u)
    (hclear : ∀ e ∈ es, ¬ e.Encloses (n + a.size)) :
    ∃ v w, u = v ++ w ∧ Rewrites n (es.filter fun e => e.start < n + a.size) a v ∧
      Rewrites (n + a.size) (es.filter fun e => n + a.size ≤ e.start) b w := by
  induction es generalizing n a u with
  | nil =>
    obtain rfl := h.nil_inv
    exact ⟨a, b, rfl, .nil n a, .nil (n + a.size) b⟩
  | cons e es ih =>
    obtain ⟨kept, old, t', u', ht, rfl, hstart, hstop, rest⟩ := h.cons_inv
    by_cases hle : n + a.size ≤ e.start
    · -- the cut stands in the text that is kept before the first edit
      have hfrom := start_ge_of_inOrder h.inOrder.1 hle
      rw [filter_before_eq_nil hfrom, filter_from_eq_self hfrom]
      rw [List.append_assoc] at ht
      obtain ⟨kept', rfl, rfl⟩ := Text.append_eq_append_of_size_le ht (by omega)
      rw [Text.size_append] at hstart
      have hstart' : e.start = n + a.size + kept'.size := by omega
      refine ⟨a, kept' ++ e.replacement ++ u', by simp, .nil n a, ?_⟩
      rw [← List.append_assoc]
      exact .cons hstart' hstop rest
    · -- the first edit ends before the cut, since it does not enclose it
      have hends : e.stop ≤ n + a.size := by
        by_cases hstop' : e.stop ≤ n + a.size
        · exact hstop'
        · exact absurd ⟨by omega, by omega⟩ (hclear e List.mem_cons_self)
      have hsize : (kept ++ old).size ≤ a.size := by
        rw [Text.size_append]
        omega
      obtain ⟨a', rfl, rfl⟩ := Text.append_eq_append_of_size_le ht.symm hsize
      have hat : n + (kept ++ old ++ a').size = e.stop + a'.size := by
        simp only [Text.size_append]
        omega
      rw [hat] at hclear hle ⊢
      obtain ⟨v, w, rfl, hv, hw⟩ := ih rest fun f hf => hclear f (List.mem_cons_of_mem e hf)
      rw [List.filter_cons_of_pos (by simpa using hle),
        List.filter_cons_of_neg (by simpa using hle)]
      exact ⟨kept ++ e.replacement ++ v, w, by simp, .cons hstart hstop hv, hw⟩

end Rewrites

namespace EditSet

variable {s : EditSet} {a b u : Text}

/-- An offset that no edit replaces the bytes around moves to where the text before it ends after
the edits that start before it. -/
theorem mapOffset_of_cut (h : Rewrites 0 s.edits (a ++ b) u) (hu : u.size ≤ Offset.greatest)
    (hclear : ∀ e ∈ s.edits, ¬ e.Encloses a.size) :
    ∃ v w, u = v ++ w ∧ Rewrites 0 (s.before a.size).edits a v ∧
      Rewrites a.size (s.edits.filter fun e => a.size ≤ e.start) b w ∧
      s.mapOffset a.size = some v.size := by
  obtain ⟨v, w, rfl, hv, hw⟩ := h.cut (by simpa using hclear)
  rw [Nat.zero_add] at hv hw
  have horder := h.inOrder.1
  obtain ⟨shift, hshift⟩ : ∃ shift, shiftAt a.size s.edits = some shift := by
    cases hs : shiftAt a.size s.edits with
    | none =>
      obtain ⟨e, he, hencloses⟩ := (shiftAt_eq_none_iff horder).mp hs
      exact absurd hencloses (hclear e he)
    | some shift => exact ⟨shift, rfl⟩
  have hsum := shiftAt_eq_some horder hshift
  have hsize := hv.size_eq
  rw [Text.size_append] at hu
  have hmoved : (a.size : Int) + shift = v.size := by omega
  refine ⟨v, w, rfl, hv, hw, ?_⟩
  have hrange : (0 : Int) ≤ v.size ∧ (v.size : Int) ≤ Offset.greatest := by omega
  simp only [mapOffset, hshift, hmoved, if_pos hrange, Int.toNat_natCast]

theorem mapOffset_eq_none_iff (h : Rewrites 0 s.edits (a ++ b) u) (hu : u.size ≤ Offset.greatest) :
    s.mapOffset a.size = none ↔ ∃ e ∈ s.edits, e.Encloses a.size := by
  by_cases hclear : ∃ e ∈ s.edits, e.Encloses a.size
  · have hnone := (shiftAt_eq_none_iff h.inOrder.1).mpr hclear
    simp only [mapOffset, hnone, hclear]
  · obtain ⟨v, w, -, -, -, hsome⟩ := mapOffset_of_cut h hu
      fun e he hencloses => hclear ⟨e, he, hencloses⟩
    simp only [hsome, hclear, reduceCtorEq]

/-- An offset that has a place after the edits has the one where the text before it ends. -/
theorem mapOffset_eq_some (h : Rewrites 0 s.edits (a ++ b) u) (hu : u.size ≤ Offset.greatest)
    {n : Nat} (hn : s.mapOffset a.size = some n) :
    ∃ v w, u = v ++ w ∧ Rewrites 0 (s.before a.size).edits a v ∧ v.size = n := by
  have hclear : ∀ e ∈ s.edits, ¬ e.Encloses a.size := by
    intro e he hencloses
    rw [(mapOffset_eq_none_iff h hu).mpr ⟨e, he, hencloses⟩] at hn
    simp at hn
  obtain ⟨v, w, rfl, hv, -, hsome⟩ := mapOffset_of_cut h hu hclear
  exact ⟨v, w, rfl, hv, Option.some.inj (hsome.symm.trans hn)⟩

theorem mapOffset_mono {x y z : Text} (h : Rewrites 0 s.edits (x ++ y ++ z) u)
    (hu : u.size ≤ Offset.greatest) {n₁ n₂ : Nat} (h₁ : s.mapOffset x.size = some n₁)
    (h₂ : s.mapOffset (x ++ y).size = some n₂) : n₁ ≤ n₂ := by
  obtain ⟨v₂, w₂, rfl, hv₂, rfl⟩ := mapOffset_eq_some h hu h₂
  rw [List.append_assoc] at h
  obtain ⟨v₁, w₁, hcut, hv₁, rfl⟩ := mapOffset_eq_some h hu h₁
  -- the edits before the second offset include those before the first one
  have hclear : ∀ e ∈ (s.before (x ++ y).size).edits, ¬ e.Encloses (0 + x.size) := by
    intro e he hencloses
    rw [Nat.zero_add] at hencloses
    have hmem := (List.mem_filter.mp he).1
    rw [(mapOffset_eq_none_iff h hu).mpr ⟨e, hmem, hencloses⟩] at h₁
    simp at h₁
  obtain ⟨v, w, rfl, hv, -⟩ := hv₂.cut hclear
  have hsame : (s.before (x ++ y).size).edits.filter (fun e => e.start < 0 + x.size) =
      (s.before x.size).edits := by
    rw [before, before, List.filter_filter, Nat.zero_add]
    apply List.filter_congr
    intro e _
    rw [Text.size_append]
    by_cases hlt : e.start < x.size
    · simp [hlt, Nat.lt_add_right y.size hlt]
    · simp [hlt]
  rw [hsame] at hv
  have hsize := hv.size_eq
  have hsize₁ := hv₁.size_eq
  rw [Text.size_append]
  omega

/-- A range that no edit touches stands in the new text as it is, where its two ends move to. -/
theorem moved_of_not_touches {x m y : Text} (h : Rewrites 0 s.edits (x ++ m ++ y) u)
    (hu : u.size ≤ Offset.greatest)
    (hfree : ∀ e ∈ s.edits, e.stop < x.size ∨ x.size + m.size < e.start) :
    ∃ v w, u = v ++ m ++ w ∧ s.mapOffset x.size = some v.size ∧
      s.mapOffset (x.size + m.size) = some (v.size + m.size) := by
  have hsize : (x ++ m).size = x.size + m.size := Text.size_append x m
  have hclear₂ : ∀ e ∈ s.edits, ¬ e.Encloses (x ++ m).size := by
    rintro e he ⟨hstart, hstop⟩
    rcases hfree e he with hfree | hfree <;> omega
  obtain ⟨v₂, w₂, -, hv₂, -, hmap₂⟩ := mapOffset_of_cut h hu hclear₂
  rw [List.append_assoc] at h
  have hclear₁ : ∀ e ∈ s.edits, ¬ e.Encloses x.size := by
    rintro e he ⟨hstart, hstop⟩
    rcases hfree e he with hfree | hfree <;> omega
  obtain ⟨v₁, w₁, rfl, hv₁, hw₁, hmap₁⟩ := mapOffset_of_cut h hu hclear₁
  -- the edits behind the range start behind it, so none of them rewrites the range itself
  have hbehind : ∀ e ∈ s.edits.filter (fun e => x.size ≤ e.start), x.size + m.size < e.start := by
    intro e he
    obtain ⟨hmem, hle⟩ := List.mem_filter.mp he
    rcases hfree e hmem with hfree | hfree
    · have := e.start_le_stop
      simp only [decide_eq_true_eq] at hle
      omega
    · exact hfree
  obtain ⟨m', w, rfl, hm, -⟩ := hw₁.cut (by
    rintro e he ⟨hstart, -⟩
    have := hbehind e he
    omega)
  rw [filter_before_eq_nil fun e he => Nat.le_of_lt (hbehind e he)] at hm
  obtain rfl := hm.nil_inv
  -- the same edits stand before the one end and before the other
  have hsame : (s.before (x ++ m).size).edits = (s.before x.size).edits := by
    apply List.filter_congr
    intro e he
    rw [hsize]
    rcases hfree e he with hfree | hfree
    · have := e.start_le_stop
      have hlt : e.start < x.size := by omega
      simp [hlt, Nat.lt_add_right m.size hlt]
    · have hge : ¬ e.start < x.size := by omega
      have hge' : ¬ e.start < x.size + m.size := by omega
      simp [hge, hge']
  rw [hsame] at hv₂
  have hsize₁ := hv₁.size_eq
  have hsize₂ := hv₂.size_eq
  refine ⟨v₁, w, by simp, hmap₁, ?_⟩
  rw [← hsize, hmap₂]
  congr 1
  omega

/-- What a set of edits does to the places of a text that it fits. An offset between two characters
has no place after the edits exactly if an edit replaces the bytes around it; else its place is
where the text before it ends after the edits that start before it, so that places keep their
order. A range is touched exactly if an edit reaches it or one of its ends. A range that is not
touched stands in the new text as it is, where its ends have moved to. -/
theorem ranges_move_verbatim {s : EditSet} {t : Text} (hs : s.Built)
    (hfits : s.checkFits t = .ok ()) :
    ∃ u, s.apply t = .ok u ∧ (u.size ≤ Offset.greatest →
      (∀ o, t.isBoundary o = true →
        (s.mapOffset o = none ↔ ∃ e ∈ s.edits, e.start < o ∧ o < e.stop) ∧
        ∀ n, s.mapOffset o = some n →
          ∃ a v, t.slice 0 o = .ok a ∧ (s.before o).apply a = .ok v ∧ n = v.size) ∧
      (∀ o₁ o₂ n₁ n₂, t.isBoundary o₁ = true → t.isBoundary o₂ = true → o₁ ≤ o₂ →
        s.mapOffset o₁ = some n₁ → s.mapOffset o₂ = some n₂ → n₁ ≤ n₂) ∧
      (∀ range : TextRange, s.touches range = true ↔
        ∃ e ∈ s.edits, e.start ≤ range.stop ∧ range.start ≤ e.stop) ∧
      ∀ range : TextRange, t.isBoundary range.start = true → t.isBoundary range.stop = true →
        s.touches range = false →
          ∃ n m, s.mapOffset range.start = some n ∧
            s.mapOffset range.stop = some (n + range.size) ∧
            t.slice range.start range.stop = .ok m ∧ u.slice n (n + range.size) = .ok m) := by
  obtain ⟨u, happly⟩ := hs.apply_eq_ok hfits
  have h := apply_eq_ok_iff.mp happly
  refine ⟨u, happly, fun hu => ⟨?_, ?_, fun range => touches_iff hs.inOrder, ?_⟩⟩
  · intro o ho
    obtain ⟨a, b, rfl, rfl⟩ := Text.isBoundary_iff.mp ho
    refine ⟨mapOffset_eq_none_iff h hu, ?_⟩
    intro n hn
    obtain ⟨v, w, -, hv, rfl⟩ := mapOffset_eq_some h hu hn
    exact ⟨a, v, Text.slice_eq_ok_iff.mpr ⟨[], b, rfl, rfl, by simp⟩, apply_eq_ok_iff.mpr hv, rfl⟩
  · intro o₁ o₂ n₁ n₂ ho₁ ho₂ hle h₁ h₂
    obtain ⟨x, rest, rfl, rfl⟩ := Text.isBoundary_iff.mp ho₁
    obtain ⟨c, z, hcut, rfl⟩ := Text.isBoundary_iff.mp ho₂
    obtain ⟨y, rfl, rfl⟩ := Text.append_eq_append_of_size_le hcut hle
    rw [← List.append_assoc] at h
    exact mapOffset_mono h hu h₁ h₂
  · intro range hstart hstop htouch
    obtain ⟨x, rest, rfl, hx⟩ := Text.isBoundary_iff.mp hstart
    obtain ⟨c, y, hcut, hc⟩ := Text.isBoundary_iff.mp hstop
    have hle := range.start_le_stop
    obtain ⟨m, rfl, rfl⟩ := Text.append_eq_append_of_size_le hcut (by omega)
    rw [Text.size_append] at hc
    have hrange : range.size = m.size := by
      rw [TextRange.size]
      omega
    have hfree : ∀ e ∈ s.edits, e.stop < x.size ∨ x.size + m.size < e.start := by
      intro e he
      by_cases hends : e.stop < x.size
      · exact .inl hends
      · by_cases hstarts : x.size + m.size < e.start
        · exact .inr hstarts
        · have hmeets : e.Meets range := ⟨by omega, by omega⟩
          rw [(touches_iff hs.inOrder).mpr ⟨e, he, hmeets⟩] at htouch
          simp at htouch
    rw [← List.append_assoc] at h
    obtain ⟨v, w, rfl, hmap₁, hmap₂⟩ := moved_of_not_touches h hu hfree
    refine ⟨v.size, m, by rw [← hx, hmap₁], by rw [← hc, hmap₂, hrange], ?_, ?_⟩
    · exact Text.slice_eq_ok_iff.mpr ⟨x, y, by simp, hx, by omega⟩
    · exact Text.slice_eq_ok_iff.mpr ⟨v, w, rfl, rfl, by omega⟩

/-- Two insertions where a replacement starts, and the text behind them. -/
theorem ranges_move_verbatim_abutting :
    let s : EditSet := ⟨[.insert 3 "a".toList, .insert 3 "bc".toList, ⟨.sized 3 2, "é".toList⟩]⟩
    let t : Text := "xé12345".toList
    let range : TextRange := .sized 6 2
    (s.Built ∧ s.checkFits t = .ok () ∧ s.touches range = false) ∧
      ∃ u n m, s.apply t = .ok u ∧ s.mapOffset range.start = some n ∧
        t.slice range.start range.stop = .ok m ∧ u.slice n (n + range.size) = .ok m := by
  intro s t range
  have hs : s.Built := by
    refine ⟨[⟨.sized 3 2, "é".toList⟩, .insert 3 "a".toList, .insert 3 "bc".toList], .inl ?_⟩
    simp [concurrent, List.mergeSort, List.MergeSort.Internal.splitInTwo, comesBefore, overlap?,
      TextEdit.insert, TextEdit.start, TextEdit.stop, s]
  have hfits : s.checkFits t = .ok () := by decide
  have htouch : s.touches range = false := by decide
  have happly : s.apply t = .ok "xéabcé345".toList := by decide
  obtain ⟨u, hu, hall⟩ := ranges_move_verbatim hs hfits
  obtain rfl := Except.ok.inj (happly.symm.trans hu)
  obtain ⟨n, m, hn, -, hold, hnew⟩ := (hall (by decide)).2.2.2 range (by decide) (by decide) htouch
  exact ⟨⟨hs, hfits, htouch⟩, _, n, m, happly, hn, hold, hnew⟩

end EditSet

end IncrementalSyntax
