import IncrementalSyntax.Proofs.Edit.Difference

/-!
The smallest edit. An edit that turns one text into another one keeps a beginning and an end that
the two texts share (`turns_iff`). What they share at their beginnings never is more than what
`TextEdit.diff` takes away there. Together with what they share at their ends it never is more than
both parts that are taken away, although an end that is kept may begin in front of what is left of
a text: then the whole of the shorter rest is taken away (`size_kept_le`). So no other edit replaces
less or puts in less than the difference of the two texts (`diff_smallest`).
-/
namespace IncrementalSyntax

namespace TextEdit

open Text

/-- The edit fits the old text and leaves the new one. -/
def Turns (e : TextEdit) (old new : Text) : Prop := e.fits old = true ∧ e.splice old = .ok new

/-- An edit turns one text into another exactly if it keeps a beginning and an end of both. -/
theorem turns_iff {e : TextEdit} {old new : Text} :
    e.Turns old new ↔ ∃ a m b, old = a ++ m ++ b ∧ new = a ++ e.replacement ++ b ∧
      a.size = e.start ∧ e.stop = e.start + m.size := by
  rw [Turns, fits_iff]
  constructor
  · rintro ⟨⟨a, m, b, rfl, hstart, hstop⟩, hnew⟩
    rw [splice_eq_ok hstart hstop] at hnew
    exact ⟨a, m, b, rfl, (Except.ok.inj hnew).symm, hstart, hstop⟩
  · rintro ⟨a, m, b, rfl, rfl, hstart, hstop⟩
    exact ⟨⟨a, m, b, rfl, hstart, hstop⟩, splice_eq_ok hstart hstop⟩

section Common

variable {u s t common s' t' : Text}

/-- Whatever begins two texts begins what is taken from their beginnings. -/
theorem isPrefix_of_stripCommon (h : stripCommon s t = (common, s', t')) (hs : u <+: s)
    (ht : u <+: t) : u <+: common := by
  induction s generalizing u t common with
  | nil =>
    rw [List.prefix_nil.mp hs]
    exact List.nil_prefix
  | cons a s ih =>
    cases u with
    | nil => exact List.nil_prefix
    | cons c u =>
      cases t with
      | nil => simp at ht
      | cons b t =>
        obtain ⟨rfl, hsTail⟩ := List.cons_prefix_cons.mp hs
        obtain ⟨rfl, htTail⟩ := List.cons_prefix_cons.mp ht
        rw [stripCommon, if_pos rfl] at h
        obtain ⟨rfl, hrest⟩ := Prod.mk.inj h
        exact List.cons_prefix_cons.mpr ⟨rfl, ih (Prod.ext rfl hrest) hsTail htTail⟩

/-- Whatever ends two texts ends what is taken from their ends. -/
theorem isSuffix_of_stripCommon_reverse (h : stripCommon s.reverse t.reverse = (common, s', t'))
    (hs : u <:+ s) (ht : u <:+ t) : u <:+ common.reverse := by
  rw [← List.reverse_prefix, List.reverse_reverse]
  exact isPrefix_of_stripCommon h (List.reverse_prefix.mpr hs) (List.reverse_prefix.mpr ht)

end Common

theorem size_le_of_isSuffix {s t : Text} (h : s <:+ t) : s.size ≤ t.size := by
  obtain ⟨u, rfl⟩ := h
  simp

theorem size_le_of_isPrefix {s t : Text} (h : s <+: t) : s.size ≤ t.size := by
  obtain ⟨u, rfl⟩ := h
  simp

/-- A beginning and an end that two texts keep are together no larger than what is taken away from
them, first at their beginnings and then at the ends of what is left. -/
theorem size_kept_le {a m r b common old new shared old' new' : Text}
    (hfirst : stripCommon (a ++ m ++ b) (a ++ r ++ b) = (common, old, new))
    (hsecond : stripCommon old.reverse new.reverse = (shared, old', new')) :
    a.size + b.size ≤ common.size + size shared.reverse := by
  obtain ⟨hold, hnew⟩ := append_of_stripCommon hfirst
  have hbegin : a <+: common :=
    isPrefix_of_stripCommon hfirst ⟨m ++ b, by simp⟩ ⟨r ++ b, by simp⟩
  have hbOld : b <:+ a ++ m ++ b := List.suffix_append _ b
  have hbNew : b <:+ a ++ r ++ b := List.suffix_append _ b
  have holdEnds : old <:+ a ++ m ++ b := hold ▸ List.suffix_append common old
  have hnewEnds : new <:+ a ++ r ++ b := hnew ▸ List.suffix_append common new
  have hsizeOld := congrArg size hold
  have hsizeNew := congrArg size hnew
  simp only [size_append] at hsizeOld hsizeNew
  -- the shortest of `b`, `old` and `new` ends the two others
  by_cases hshort : b.length ≤ old.length ∧ b.length ≤ new.length
  · have hend := isSuffix_of_stripCommon_reverse hsecond
      (List.suffix_of_suffix_length_le hbOld holdEnds hshort.1)
      (List.suffix_of_suffix_length_le hbNew hnewEnds hshort.2)
    exact Nat.add_le_add (size_le_of_isPrefix hbegin) (size_le_of_isSuffix hend)
  · rcases Nat.le_total old.length new.length with hle | hle
    · have hends := List.suffix_of_suffix_length_le holdEnds hbOld (by omega)
      have hboth := List.suffix_of_suffix_length_le (hends.trans hbNew) hnewEnds hle
      have hsize := size_le_of_isSuffix
        (isSuffix_of_stripCommon_reverse hsecond List.suffix_rfl hboth)
      omega
    · have hends := List.suffix_of_suffix_length_le hnewEnds hbNew (by omega)
      have hboth := List.suffix_of_suffix_length_le (hends.trans hbOld) holdEnds hle
      have hsize := size_le_of_isSuffix
        (isSuffix_of_stripCommon_reverse hsecond hboth List.suffix_rfl)
      omega

/-- The difference of two texts, by what is taken away from them. -/
theorem diff_eq_some {old new common old' new' shared old'' new'' : Text} (hne : old ≠ new)
    (hfirst : stripCommon old new = (common, old', new'))
    (hsecond : stripCommon old'.reverse new'.reverse = (shared, old'', new'')) :
    diff old new = some ⟨.sized common.size (size old''.reverse), new''.reverse⟩ := by
  simp only [diff, if_neg hne, hfirst, hsecond]

theorem diff_eq_none_iff {old new : Text} : diff old new = none ↔ old = new := by
  by_cases h : old = new
  · simp [diff, h]
  · simp [diff_eq_some h rfl rfl, h]

/-- Two texts have a difference exactly if they differ. It is found by the bytes without a fault,
its places are offsets, it turns the old text into the new one, and no other edit that does so
replaces fewer bytes or puts in fewer. -/
theorem diff_smallest (old new : Text) (hold : old.size ≤ Offset.greatest)
    (hnew : new.size ≤ Offset.greatest) :
    diffBytes old new = .ok (diff old new) ∧ (diff old new = none ↔ old = new) ∧
      ∀ e, diff old new = some e →
        e.stop ≤ Offset.greatest ∧ e.insertSize ≤ Offset.greatest ∧ e.Turns old new ∧
          ∀ f : TextEdit, f.Turns old new →
            e.range.size ≤ f.range.size ∧ e.insertSize ≤ f.insertSize := by
  refine ⟨diffBytes_eq_ok old new, diff_eq_none_iff, ?_⟩
  intro e he
  have hne : old ≠ new := by
    rintro rfl
    rw [diff_eq_none_iff.mpr rfl] at he
    simp at he
  rcases hfirst : stripCommon old new with ⟨common, old', new'⟩
  rcases hsecond : stripCommon old'.reverse new'.reverse with ⟨shared, old'', new''⟩
  rw [diff_eq_some hne hfirst hsecond] at he
  obtain rfl := Option.some.inj he
  obtain ⟨hold', hnew'⟩ := append_of_stripCommon_reverse hsecond
  obtain ⟨holdCut, hnewCut⟩ := append_of_stripCommon hfirst
  rw [hold', ← List.append_assoc] at holdCut
  rw [hnew', ← List.append_assoc] at hnewCut
  have hsizeOld := congrArg size holdCut
  have hsizeNew := congrArg size hnewCut
  simp only [size_append] at hsizeOld hsizeNew
  have hturns : Turns ⟨.sized common.size (size old''.reverse), new''.reverse⟩ old new :=
    turns_iff.mpr ⟨common, old''.reverse, shared.reverse, holdCut, hnewCut, rfl, rfl⟩
  refine ⟨?_, ?_, hturns, ?_⟩
  · simp only [stop, TextRange.sized_stop]
    omega
  · simp only [insertSize]
    omega
  · intro f hf
    obtain ⟨a, m, b, rfl, rfl, hstart, hstop⟩ := turns_iff.mp hf
    have hkept := size_kept_le hfirst hsecond
    have hrange : f.range.size = m.size := by
      rw [TextRange.size, ← stop, ← start]
      omega
    simp only [size_append] at hsizeOld hsizeNew
    rw [hrange]
    simp only [insertSize, TextRange.size, TextRange.sized_start, TextRange.sized_stop,
      Nat.add_sub_cancel_left]
    omega

/-- A text with a repeated beginning, where one of the characters that go shares bytes with the one
that comes. -/
theorem diff_smallest_repeated :
    let old : Text := "ababéb".toList
    let new : Text := "abèb".toList
    let e : TextEdit := ⟨.sized 2 4, "è".toList⟩
    (old.size ≤ Offset.greatest ∧ new.size ≤ Offset.greatest) ∧ diff old new = some e ∧
      e.Turns old new ∧
        ∀ f : TextEdit, f.Turns old new → 4 ≤ f.range.size ∧ 2 ≤ f.insertSize := by
  intro old new e
  have hdiff : diff old new = some e := by decide
  obtain ⟨-, -, hall⟩ := diff_smallest old new (by decide) (by decide)
  obtain ⟨-, -, hturns, hsmallest⟩ := hall e hdiff
  exact ⟨by decide, hdiff, hturns, hsmallest⟩

end TextEdit

end IncrementalSyntax
