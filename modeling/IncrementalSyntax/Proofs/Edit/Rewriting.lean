import IncrementalSyntax.Proofs.Edit.Cut

/-!
What a set of edits does to a text, without a cursor. `Replaces n es t u` says that the edits `es`,
placed in a text of which `t` is the stretch from byte `n` up to the end of the last edit, leave
`u` in the place of `t`. Stretches can be put together, which is how proofs about lists of edits
go. `apply_eq_ok_iff` says that applying a set of edits succeeds exactly if the edits replace a
beginning of the text in this sense, and what the result then is.
-/
namespace IncrementalSyntax

/-- The edits turn the stretch `t` that begins at byte `n` into `u`: between the edits the text is
kept, and both stretches end with the last edit. -/
inductive Replaces : Nat → List TextEdit → Text → Text → Prop where
  | nil (n : Nat) : Replaces n [] [] []
  | cons {n : Nat} {e : TextEdit} {es : List TextEdit} {kept old t u : Text}
      (hstart : e.start = n + kept.size) (hstop : e.stop = e.start + old.size)
      (rest : Replaces e.stop es t u) :
      Replaces n (e :: es) (kept ++ old ++ t) (kept ++ e.replacement ++ u)

/-- The edits turn the text `t` that begins at byte `n` into `u`: after the last edit the text is
kept. -/
def Rewrites (n : Nat) (es : List TextEdit) (t u : Text) : Prop :=
  ∃ t' u' tail, Replaces n es t' u' ∧ t = t' ++ tail ∧ u = u' ++ tail

namespace Replaces

variable {n : Nat} {e : TextEdit} {es fs : List TextEdit} {t u : Text}

theorem cons_inv (h : Replaces n (e :: es) t u) :
    ∃ kept old t' u', t = kept ++ old ++ t' ∧ u = kept ++ e.replacement ++ u' ∧
      e.start = n + kept.size ∧ e.stop = e.start + old.size ∧ Replaces e.stop es t' u' := by
  cases h with
  | cons hstart hstop rest => exact ⟨_, _, _, _, rfl, rfl, hstart, hstop, rest⟩

theorem append {t' u' : Text} (h : Replaces n es t u) (h' : Replaces (n + t.size) fs t' u') :
    Replaces n (es ++ fs) (t ++ t') (u ++ u') := by
  induction h with
  | nil n => simpa using h'
  | @cons n e es kept old t u hstart hstop rest ih =>
    have hn : n + (kept ++ old ++ t).size = e.stop + t.size := by
      simp only [List.append_assoc, Text.size_append]
      omega
    rw [hn] at h'
    have hj := Replaces.cons hstart hstop (ih h')
    simpa using hj

/-- A stretch can be taken apart between any two of its edits. -/
theorem append_inv (h : Replaces n (es ++ fs) t u) :
    ∃ t₁ t₂ u₁ u₂, t = t₁ ++ t₂ ∧ u = u₁ ++ u₂ ∧ Replaces n es t₁ u₁ ∧
      Replaces (n + t₁.size) fs t₂ u₂ := by
  induction es generalizing n t u with
  | nil => exact ⟨[], t, [], u, rfl, rfl, .nil n, by simpa using h⟩
  | cons e es ih =>
    obtain ⟨kept, old, t', u', rfl, rfl, hstart, hstop, rest⟩ := h.cons_inv
    obtain ⟨t₁, t₂, u₁, u₂, rfl, rfl, h₁, h₂⟩ := ih rest
    have hn : e.stop + t₁.size = n + (kept ++ old ++ t₁).size := by
      simp only [List.append_assoc, Text.size_append]
      omega
    rw [hn] at h₂
    exact ⟨kept ++ old ++ t₁, t₂, kept ++ e.replacement ++ u₁, u₂, by simp, by simp,
      .cons hstart hstop h₁, h₂⟩

theorem size_eq (h : Replaces n es t u) : (u.size : Int) = t.size + EditSet.totalDelta es := by
  induction h with
  | nil n => simp
  | @cons n e es kept old t u hstart hstop rest ih =>
    have hd := e.delta_eq
    rw [TextEdit.insertSize] at hd
    simp only [List.append_assoc, Text.size_append, Int.natCast_add, ih, EditSet.totalDelta_cons]
    omega

theorem stop_le (h : Replaces n es t u) : ∀ e ∈ es, e.stop ≤ n + t.size := by
  induction h with
  | nil n => simp
  | @cons n e es kept old t u hstart hstop rest ih =>
    intro f hf
    simp only [Text.size_append]
    rcases List.mem_cons.mp hf with rfl | hf
    · omega
    · have := ih f hf
      omega

/-- The last edit ends both stretches, and its place in the new one is where the edits before it
have moved it. -/
theorem concat_inv (h : Replaces n (es ++ [e]) t u) :
    ∃ v, u = v ++ e.replacement ∧ e.stop = n + t.size ∧
      (e.start : Int) + EditSet.totalDelta es = n + v.size := by
  obtain ⟨t₁, t₂, u₁, u₂, rfl, rfl, h₁, h₂⟩ := h.append_inv
  obtain ⟨kept, old, t', u', rfl, rfl, hstart, hstop, rest⟩ := h₂.cons_inv
  cases rest
  have hs := h₁.size_eq
  refine ⟨u₁ ++ kept, by simp, ?_, ?_⟩
  · simp only [List.append_nil, Text.size_append]
    omega
  · simp only [Text.size_append, Int.natCast_add]
    omega

end Replaces

namespace Rewrites

variable {n : Nat} {e : TextEdit} {es fs : List TextEdit} {t u : Text}

theorem nil (n : Nat) (t : Text) : Rewrites n [] t t := ⟨[], [], t, .nil n, rfl, rfl⟩

theorem nil_inv (h : Rewrites n [] t u) : t = u := by
  obtain ⟨t', u', tail, h, rfl, rfl⟩ := h
  cases h
  rfl

theorem cons {kept old : Text} (hstart : e.start = n + kept.size)
    (hstop : e.stop = e.start + old.size) (h : Rewrites e.stop es t u) :
    Rewrites n (e :: es) (kept ++ old ++ t) (kept ++ e.replacement ++ u) := by
  obtain ⟨t', u', tail, h, rfl, rfl⟩ := h
  exact ⟨_, _, tail, .cons hstart hstop h, by simp, by simp⟩

theorem cons_inv (h : Rewrites n (e :: es) t u) :
    ∃ kept old t' u', t = kept ++ old ++ t' ∧ u = kept ++ e.replacement ++ u' ∧
      e.start = n + kept.size ∧ e.stop = e.start + old.size ∧ Rewrites e.stop es t' u' := by
  obtain ⟨t', u', tail, h, rfl, rfl⟩ := h
  obtain ⟨kept, old, t'', u'', rfl, rfl, hstart, hstop, rest⟩ := h.cons_inv
  exact ⟨kept, old, t'' ++ tail, u'' ++ tail, by simp, by simp, hstart, hstop,
    t'', u'', tail, rest, rfl, rfl⟩

theorem append {t' u' : Text} (h : Replaces n es t u) (h' : Rewrites (n + t.size) fs t' u') :
    Rewrites n (es ++ fs) (t ++ t') (u ++ u') := by
  obtain ⟨t₂, u₂, tail, h₂, rfl, rfl⟩ := h'
  exact ⟨t ++ t₂, u ++ u₂, tail, h.append h₂, by simp, by simp⟩

theorem append_inv (h : Rewrites n (es ++ fs) t u) :
    ∃ t₁ t₂ u₁ u₂, t = t₁ ++ t₂ ∧ u = u₁ ++ u₂ ∧ Replaces n es t₁ u₁ ∧
      Rewrites (n + t₁.size) fs t₂ u₂ := by
  obtain ⟨t', u', tail, h, rfl, rfl⟩ := h
  obtain ⟨t₁, t₂, u₁, u₂, rfl, rfl, h₁, h₂⟩ := h.append_inv
  exact ⟨t₁, t₂ ++ tail, u₁, u₂ ++ tail, by simp, by simp, h₁, t₂, u₂, tail, h₂, rfl, rfl⟩

theorem size_eq (h : Rewrites n es t u) : (u.size : Int) = t.size + EditSet.totalDelta es := by
  obtain ⟨t', u', tail, h, rfl, rfl⟩ := h
  have := h.size_eq
  simp only [Text.size_append, Int.natCast_add]
  omega

theorem stop_le (h : Rewrites n es t u) : ∀ e ∈ es, e.stop ≤ n + t.size := by
  obtain ⟨t', u', tail, h, rfl, rfl⟩ := h
  intro e he
  have := h.stop_le e he
  simp only [Text.size_append]
  omega

/-- What stands in the new text before the first edit stands there in the old text too. -/
theorem skip {x v : Text} (h : Rewrites n es t (x ++ v))
    (hx : ∀ e fs, es = e :: fs → n + x.size ≤ e.start) :
    ∃ w, t = x ++ w ∧ Rewrites (n + x.size) es w v := by
  cases es with
  | nil =>
    obtain rfl := h.nil_inv
    exact ⟨v, rfl, .nil _ v⟩
  | cons e es =>
    obtain ⟨kept, old, t', u', rfl, hu, hstart, hstop, rest⟩ := h.cons_inv
    have hle := hx e es rfl
    rw [List.append_assoc kept] at hu
    obtain ⟨k, rfl, rfl⟩ := Text.append_eq_append_of_size_le hu (by omega)
    have hk : e.start = n + x.size + k.size := by
      simp only [Text.size_append] at hstart
      omega
    refine ⟨k ++ old ++ t', by simp, ?_⟩
    simpa using Rewrites.cons hk hstop rest

end Rewrites

namespace EditSet

/-- Applying edits from a cut on succeeds exactly if they replace a beginning of what follows the
cut. -/
theorem applyFrom_eq_ok_iff {t u : Text} {cursor : Nat} {es : List TextEdit} :
    applyFrom t cursor es = .ok u ↔
      ∃ a t' u' tail, t = a ++ t' ++ tail ∧ a.size = cursor ∧ u = u' ++ tail ∧
        Replaces cursor es t' u' := by
  induction es generalizing cursor u with
  | nil =>
    have hslice : applyFrom t cursor [] = .ok u ↔ t.sliceFrom cursor = .ok u := by
      rw [applyFrom]
      cases t.sliceFrom cursor <;> simp
    rw [hslice, Text.sliceFrom_eq_ok_iff]
    constructor
    · rintro ⟨a, rfl, ha⟩
      exact ⟨a, [], [], u, by simp, ha, rfl, .nil cursor⟩
    · rintro ⟨a, t', u', tail, rfl, ha, rfl, h⟩
      cases h
      exact ⟨a, by simp, ha⟩
  | cons e es ih =>
    have hstep : applyFrom t cursor (e :: es) = .ok u ↔
        e.fits t = true ∧ ∃ kept, t.slice cursor e.start = .ok kept ∧
          ∃ rest, applyFrom t e.stop es = .ok rest ∧ kept ++ e.replacement ++ rest = u := by
      rw [applyFrom, TextEdit.checkFits]
      cases e.fits t with
      | false => simp
      | true => cases t.slice cursor e.start <;> simp [bind_eq_ok_iff]
    rw [hstep]
    constructor
    · rintro ⟨-, kept, hkept, rest, hrest, rfl⟩
      obtain ⟨a, b, rfl, ha, hstart⟩ := Text.slice_eq_ok_iff.mp hkept
      obtain ⟨c, t', u', tail, hcut, hc, rfl, h⟩ := ih.mp hrest
      have hle := e.start_le_stop
      -- the cut at the end of `e` stands after the part that is kept
      rw [List.append_assoc c] at hcut
      have hbefore : (a ++ kept).size ≤ c.size := by
        rw [Text.size_append]
        omega
      obtain ⟨old, rfl, rfl⟩ := Text.append_eq_append_of_size_le hcut hbefore
      refine ⟨a, kept ++ old ++ t', kept ++ e.replacement ++ u', tail, by simp, ha, by simp, ?_⟩
      exact .cons hstart (by simp only [Text.size_append] at hc; omega) h
    · rintro ⟨a, t', u', tail, rfl, ha, rfl, h⟩
      obtain ⟨kept, old, t'', u'', rfl, rfl, hstart, hstop, rest⟩ := h.cons_inv
      refine ⟨?_, kept, ?_, u'' ++ tail, ?_, by simp⟩
      · exact TextEdit.fits_iff.mpr
          ⟨a ++ kept, old, t'' ++ tail, by simp, by simp; omega, hstop⟩
      · exact Text.slice_eq_ok_iff.mpr ⟨a, old ++ t'' ++ tail, by simp, ha, hstart⟩
      · exact ih.mpr ⟨a ++ kept ++ old, t'', u'', tail, by simp, by simp; omega, rfl, rest⟩

/-- Applying a set of edits succeeds exactly if the edits rewrite the text, and the result is what
they rewrite it to. -/
theorem apply_eq_ok_iff {s : EditSet} {t u : Text} :
    s.apply t = .ok u ↔ Rewrites 0 s.edits t u := by
  rw [apply, applyFrom_eq_ok_iff]
  constructor
  · rintro ⟨a, t', u', tail, rfl, ha, rfl, h⟩
    have hnil : a = [] := Text.size_eq_zero_iff.mp ha
    exact ⟨t', u', tail, h, by simp [hnil], rfl⟩
  · rintro ⟨t', u', tail, h, rfl, rfl⟩
    exact ⟨[], t', u', tail, rfl, rfl, rfl, h⟩

end EditSet

end IncrementalSyntax
