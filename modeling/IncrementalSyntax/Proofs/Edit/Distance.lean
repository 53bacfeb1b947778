import IncrementalSyntax.Proofs.Edit.Movement

/-!
How far apart edits leave two offsets. Nothing is assumed here of the text that the edits are made
in, or that they fit one: only their order is used. What moves two offsets against each other are
the edits that start between them (`totalDelta_before`), and these cannot take away more than stands
there (`neg_le_totalDelta`). So a range that no edit touches moves as a whole (`mapOffset_within`),
and what stands behind it stays behind it (`mapOffset_behind_untouched`).
-/
namespace IncrementalSyntax

namespace EditSet

variable {s : EditSet} {range : TextRange} {offset m n : Nat}

def between (s : EditSet) (low high : Nat) : EditSet :=
  ⟨s.edits.filter fun e => low ≤ e.start && e.start < high⟩

theorem mem_between {e : TextEdit} {low high : Nat} :
    e ∈ (s.between low high).edits ↔ e ∈ s.edits ∧ low ≤ e.start ∧ e.start < high := by
  simp [between]

/-- Edits within a range take away no more than its bytes. -/
theorem neg_le_totalDelta {es : List TextEdit} (h : InOrder es) {low high : Nat}
    (hle : low ≤ high) (hwithin : ∀ e ∈ es, low ≤ e.start ∧ e.stop ≤ high) :
    (low : Int) - high ≤ totalDelta es := by
  induction es generalizing low with
  | nil =>
    rw [totalDelta_nil]
    omega
  | cons e es ih =>
    obtain ⟨hnext, hrest⟩ := List.pairwise_cons.mp h
    obtain ⟨hstart, hstop⟩ := hwithin e List.mem_cons_self
    have hlater := ih hrest hstop fun f hf =>
      ⟨hnext f hf, (hwithin f (List.mem_cons_of_mem e hf)).2⟩
    have hdelta := e.delta_eq
    rw [totalDelta_cons]
    omega

/-- The edits before an offset are those before an earlier one and those between the two. -/
theorem totalDelta_before (s : EditSet) {low high : Nat} (hle : low ≤ high) :
    totalDelta (s.before high).edits =
      totalDelta (s.before low).edits + totalDelta (s.between low high).edits := by
  obtain ⟨es⟩ := s
  induction es with
  | nil => rfl
  | cons e es ih =>
    simp only [before, between] at ih ⊢
    by_cases hlow : e.start < low
    · have hhigh : e.start < high := by omega
      have hout : ¬ low ≤ e.start := by omega
      simp [hlow, hhigh, hout, ih, Int.add_assoc]
    · have hin : low ≤ e.start := by omega
      by_cases hhigh : e.start < high
      · simp [hlow, hhigh, hin, ih, Int.add_left_comm]
      · simp [hlow, hhigh, ih]

/-- An offset that has a place after the edits is moved by those that start before it, and no edit
replaces the bytes around it. -/
theorem mapOffset_eq_add (h : InOrder s.edits) (hn : s.mapOffset offset = some n) :
    (n : Int) = offset + totalDelta (s.before offset).edits ∧
      ∀ e ∈ s.edits, ¬ e.Encloses offset := by
  cases hshift : shiftAt offset s.edits with
  | none => simp [mapOffset, hshift] at hn
  | some shift =>
    have hsum := shiftAt_eq_some h hshift
    simp only [mapOffset, hshift, Option.ite_none_right_eq_some, Option.some.injEq] at hn
    refine ⟨?_, ?_⟩
    · rw [before, ← hsum]
      omega
    · intro e he hencloses
      rw [(shiftAt_eq_none_iff h).mpr ⟨e, he, hencloses⟩] at hshift
      simp at hshift

theorem mapOffset_sub {low high : Nat} (h : InOrder s.edits) (hle : low ≤ high)
    (hn : s.mapOffset low = some n) (hm : s.mapOffset high = some m) :
    (m : Int) - n = high - low + totalDelta (s.between low high).edits := by
  have hsplit := totalDelta_before s hle
  have hlow := (mapOffset_eq_add h hn).1
  have hhigh := (mapOffset_eq_add h hm).1
  omega

theorem clear_of_not_touches (h : InOrder s.edits) (htouch : s.touches range = false) :
    ∀ e ∈ s.edits, e.stop < range.start ∨ range.stop < e.start := by
  intro e he
  by_cases hmeets : e.Meets range
  · rw [(touches_iff h).mpr ⟨e, he, hmeets⟩] at htouch
    simp at htouch
  · simp only [TextEdit.Meets] at hmeets
    omega

/-- A range that no edit touches moves as a whole. -/
theorem mapOffset_within (h : InOrder s.edits) (htouch : s.touches range = false)
    (hn : s.mapOffset range.start = some n) (hstart : range.start ≤ offset)
    (hstop : offset ≤ range.stop) (hm : s.mapOffset offset = some m) :
    m = n + (offset - range.start) := by
  have hnone : (s.between range.start offset).edits = [] := by
    refine List.eq_nil_iff_forall_not_mem.mpr ?_
    intro e he
    obtain ⟨hmem, hlow, hhigh⟩ := mem_between.mp he
    have hle := e.start_le_stop
    rcases clear_of_not_touches h htouch e hmem with hends | hends <;> omega
  have hsub := mapOffset_sub h hstart hn hm
  rw [hnone, totalDelta_nil] at hsub
  omega

/-- What stands behind a range that no edit touches moves to a place behind it. -/
theorem mapOffset_behind_untouched (h : InOrder s.edits) (htouch : s.touches range = false)
    (hn : s.mapOffset range.start = some n) (hbehind : range.stop ≤ offset)
    (hm : s.mapOffset offset = some m) : n + range.size ≤ m := by
  have hle := range.start_le_stop
  have hwithin : ∀ e ∈ (s.between range.start offset).edits,
      range.stop ≤ e.start ∧ e.stop ≤ offset := by
    intro e he
    obtain ⟨hmem, hlow, hhigh⟩ := mem_between.mp he
    have hclear := (mapOffset_eq_add h hm).2 e hmem
    simp only [TextEdit.Encloses] at hclear
    have := e.start_le_stop
    rcases clear_of_not_touches h htouch e hmem with hends | hends <;> omega
  have horder : InOrder (s.between range.start offset).edits := List.Pairwise.filter _ h
  have hbound := neg_le_totalDelta horder hbehind hwithin
  have hsub := mapOffset_sub h (Nat.le_trans hle hbehind) hn hm
  rw [TextRange.size]
  omega

end EditSet

end IncrementalSyntax
