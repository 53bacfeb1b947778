import IncrementalSyntax.Edit.Sequence

/-!
Cuts of texts in words of concatenation. Offsets and cuts that may fail are what the definitions
compute with; the proofs about edits compare parts of texts instead. Every statement here turns
one of the former into the latter, exactly.
-/
namespace IncrementalSyntax

section Outcome

variable {ε α β : Type}

@[simp] theorem ok_bind (a : α) (f : α → Except ε β) : (Except.ok a >>= f) = f a := rfl

@[simp] theorem error_bind (e : ε) (f : α → Except ε β) : (Except.error e >>= f) = .error e := rfl

@[simp] theorem pure_eq_ok (a : α) : (pure a : Except ε α) = .ok a := rfl

/-- A computation in two parts has a result exactly if both parts have. -/
theorem bind_eq_ok_iff {x : Except ε α} {f : α → Except ε β} {b : β} :
    (x >>= f) = .ok b ↔ ∃ a, x = .ok a ∧ f a = .ok b := by
  cases x <;> simp

instance decideEqOk [DecidableEq α] : (x : Except ε α) → (a : α) → Decidable (x = .ok a)
  | .ok b, a => decidable_of_iff (b = a) (by simp)
  | .error _, _ => isFalse (by simp)

end Outcome

namespace Text

/-- Two ways to cut one text: the part that ends first is a beginning of the other one. -/
theorem append_eq_append_of_size_le {a b c d : Text} (h : a ++ b = c ++ d)
    (hs : a.size ≤ c.size) : ∃ x, c = a ++ x ∧ b = x ++ d := by
  rcases List.append_eq_append_iff.mp h with ⟨x, hc, hb⟩ | ⟨x, ha, hd⟩
  · exact ⟨x, hc, hb⟩
  · have hx : x = [] := by
      rw [ha, size_append] at hs
      exact size_eq_zero_iff.mp (by omega)
    subst hx
    exact ⟨[], by simpa using ha.symm, by simpa using hd.symm⟩

theorem isBoundary_iff {t : Text} {n : Nat} :
    t.isBoundary n = true ↔ ∃ a b, t = a ++ b ∧ size a = n := by
  rw [isBoundary, Option.isSome_iff_exists]
  constructor
  · rintro ⟨⟨a, b⟩, h⟩
    exact ⟨a, b, split?_eq_some_iff.mp h⟩
  · rintro ⟨a, b, h⟩
    exact ⟨(a, b), split?_eq_some_iff.mpr h⟩

theorem slice?_eq_some_iff {t m : Text} {start stop : Nat} :
    t.slice? start stop = some m ↔
      ∃ a b, t = a ++ m ++ b ∧ size a = start ∧ stop = start + size m := by
  constructor
  · intro h
    by_cases hle : start ≤ stop
    · simp only [slice?, hle, if_true, Option.bind_eq_bind, Option.bind_eq_some_iff, Prod.exists,
        Option.pure_def, Option.some.injEq] at h
      obtain ⟨a, rest, ha, inner, b, hb, rfl⟩ := h
      obtain ⟨rfl, hsize⟩ := eq_append_of_split? ha
      obtain ⟨rfl, hm⟩ := eq_append_of_split? hb
      exact ⟨a, b, by simp, hsize, by omega⟩
    · simp [slice?, hle] at h
  · rintro ⟨a, b, rfl, rfl, rfl⟩
    have ha := split?_size_append a (m ++ b)
    rw [← List.append_assoc] at ha
    simp only [slice?, ha, Nat.le_add_right, if_true, Nat.add_sub_cancel_left, Option.bind_eq_bind,
      Option.bind_some, split?_size_append m b, Option.pure_def]

theorem slice_eq_ok_iff {t m : Text} {start stop : Nat} :
    t.slice start stop = .ok m ↔
      ∃ a b, t = a ++ m ++ b ∧ size a = start ∧ stop = start + size m := by
  rw [← slice?_eq_some_iff, slice]
  cases t.slice? start stop <;> simp

theorem sliceFrom_eq_ok_iff {t m : Text} {start : Nat} :
    t.sliceFrom start = .ok m ↔ ∃ a, t = a ++ m ∧ size a = start := by
  rw [sliceFrom, slice_eq_ok_iff]
  constructor
  · rintro ⟨a, b, rfl, rfl, hb⟩
    have hb : b = [] := size_eq_zero_iff.mp (by simp only [size_append] at hb; omega)
    exact ⟨a, by simp [hb], rfl⟩
  · rintro ⟨a, rfl, rfl⟩
    exact ⟨a, [], by simp, rfl, by simp⟩

end Text

namespace TextEdit

theorem delta_eq (e : TextEdit) : e.delta = (e.insertSize : Int) - ((e.stop : Int) - e.start) := by
  have hle := e.start_le_stop
  rw [delta, TextRange.size, stop, start] at *
  omega

/-- An edit fits a text exactly if its range is a middle part of the text. -/
theorem fits_iff {e : TextEdit} {t : Text} :
    e.fits t = true ↔
      ∃ a m b, t = a ++ m ++ b ∧ a.size = e.start ∧ e.stop = e.start + m.size := by
  simp only [fits, Bool.and_eq_true, decide_eq_true_eq, Text.isBoundary_iff]
  constructor
  · rintro ⟨⟨-, a, r, rfl, ha⟩, c, b, hc, hstop⟩
    have hle := e.start_le_stop
    obtain ⟨m, rfl, rfl⟩ := Text.append_eq_append_of_size_le hc (by omega)
    rw [Text.size_append] at hstop
    exact ⟨a, m, b, by simp, ha, by omega⟩
  · rintro ⟨a, m, b, rfl, ha, hstop⟩
    refine ⟨⟨?_, a, m ++ b, by simp, ha⟩, a ++ m, b, rfl, ?_⟩
    · simp only [List.append_assoc, Text.size_append]
      omega
    · simp only [Text.size_append]
      omega

/-- Making an edit puts its text between what is before and what is after its range. -/
theorem splice_eq_ok {e : TextEdit} {a m b : Text} (ha : a.size = e.start)
    (hm : e.stop = e.start + m.size) :
    e.splice (a ++ m ++ b) = .ok (a ++ e.replacement ++ b) := by
  have hbefore : (a ++ m ++ b).slice 0 e.start = .ok a :=
    Text.slice_eq_ok_iff.mpr ⟨[], m ++ b, by simp, rfl, by omega⟩
  have hafter : (a ++ m ++ b).sliceFrom e.stop = .ok b :=
    Text.sliceFrom_eq_ok_iff.mpr ⟨a ++ m, rfl, by simp; omega⟩
  rw [splice, hbefore, ok_bind, hafter, ok_bind, pure_eq_ok]

end TextEdit

end IncrementalSyntax
