import IncrementalSyntax.Proofs.Text.Positions
import Mathlib.Data.List.DropRight

/-!
Offsets to positions and back. What stands before an offset is cut behind its last newline: the
newlines are the line, and the characters since then are the column, in bytes or in units. That part
is a beginning of the content of its line (`exists_lineAt_of_cut`), so the position leads back to
the offset. The one exception is an offset between a carriage return and its newline: there the
content has already ended, and the position leads to the end of the content.
-/
namespace IncrementalSyntax

namespace Text

def lastLine (t : Text) : Text := t.rtakeWhile (· ≠ '\n')

theorem not_mem_lastLine (t : Text) : '\n' ∉ lastLine t := by
  intro hmem
  have hne := List.mem_rtakeWhile_imp hmem
  simp at hne

/-- A text is cut behind its last newline. -/
theorem exists_append_lastLine (t : Text) :
    ∃ before, t = before ++ lastLine t ∧ (before = [] ∨ before.getLast? = some '\n') := by
  refine ⟨t.rdropWhile (· ≠ '\n'), ?_, ?_⟩
  · rw [lastLine, List.rtakeWhile, List.rdropWhile, ← List.reverse_append,
      List.takeWhile_append_dropWhile, List.reverse_reverse]
  · by_cases hnil : t.rdropWhile (· ≠ '\n') = []
    · exact .inl hnil
    · have hlast := List.rdropWhile_last_not (· ≠ '\n') t hnil
      right
      rw [List.getLast?_eq_some_getLast hnil]
      simpa using hlast

theorem count_append_of_not_mem (before : Text) {x : Text} (h : '\n' ∉ x) :
    (before ++ x).count '\n' = before.count '\n' := by
  rw [List.count_append, List.count_eq_zero.mpr h, Nat.add_zero]

/-- The cut of a text into `a` and `b` is between a carriage return and its newline. -/
def SplitsEnding (a b : Text) : Prop := a.getLast? = some '\r' ∧ b.head? = some '\n'

instance (a b : Text) : Decidable (SplitsEnding a b) := inferInstanceAs (Decidable (_ ∧ _))

theorem SplitsEnding.getLast?_eq {before x b : Text} (h : SplitsEnding (before ++ x) b)
    (hbefore : before = [] ∨ before.getLast? = some '\n') : x.getLast? = some '\r' := by
  have hlast := h.1
  rcases List.eq_nil_or_concat x with rfl | ⟨init, last, rfl⟩
  · rw [List.append_nil] at hlast
    rcases hbefore with rfl | hbefore
    · simp at hlast
    · simp [hbefore] at hlast
  · simpa using hlast

/-- The line that a cut falls on. What stands before the cut on the line is a beginning of its
content, unless the cut is between a carriage return and its newline. -/
theorem exists_lineAt_of_cut {before x : Text} (b : Text)
    (h : before = [] ∨ before.getLast? = some '\n') (hx : '\n' ∉ x) :
    ∃ content, (before ++ x ++ b).LineAt (before.count '\n') before.size content ∧
      ((¬ SplitsEnding (before ++ x) b ∧ ∃ y, content = x ++ y) ∨
        (SplitsEnding (before ++ x) b ∧ x = content ++ ['\r'])) := by
  by_cases hmem : '\n' ∈ b
  · obtain ⟨l, after, rfl, hl⟩ := List.eq_append_cons_of_mem hmem
    rcases List.eq_nil_or_concat l with rfl | ⟨init, last, rfl⟩
    · by_cases hcr : x.getLast? = some '\r'
      · obtain ⟨content, rfl⟩ := List.getLast?_eq_some_iff.mp hcr
        have hcontent : '\n' ∉ content := fun hc => hx (List.mem_append_left _ hc)
        refine ⟨content, ⟨before, ['\r', '\n'], after, by simp, ⟨h, hcontent, .inl rfl⟩, rfl, rfl⟩,
          .inr ⟨⟨by simp, by simp⟩, rfl⟩⟩
      · refine ⟨x, ⟨before, ['\n'], after, by simp, ⟨h, hx, .inr (.inl ⟨rfl, hcr⟩)⟩, rfl, rfl⟩,
          .inl ⟨fun hsplit => hcr (hsplit.getLast?_eq h), [], by simp⟩⟩
    · -- the newline stands further behind
      rw [List.concat_eq_append] at *
      have hhead : ¬ SplitsEnding (before ++ x) (init ++ [last] ++ '\n' :: after) := by
        rintro ⟨-, hnewline⟩
        have hfirst : (init ++ [last]).head? = some '\n' := by cases init <;> simpa using hnewline
        exact hl (List.mem_of_head? hfirst)
      simp only [List.mem_append, List.mem_singleton, not_or] at hl
      by_cases hcr : last = '\r'
      · refine ⟨x ++ init, ⟨before, ['\r', '\n'], after, by simp [hcr],
          ⟨h, by simp [hx, hl.1], .inl rfl⟩, rfl, rfl⟩, .inl ⟨hhead, init, rfl⟩⟩
      · refine ⟨x ++ (init ++ [last]), ⟨before, ['\n'], after, by simp,
          ⟨h, by simp [hx, hl.1, hl.2], .inr (.inl ⟨rfl, ?_⟩)⟩, rfl, rfl⟩, .inl ⟨hhead, _, rfl⟩⟩
        rw [← List.append_assoc, List.getLast?_concat]
        simpa using hcr
  · refine ⟨x ++ b, ⟨before, [], [], by simp, ⟨h, by simp [hx, hmem], .inr (.inr ⟨rfl, rfl⟩)⟩,
      rfl, rfl⟩, .inl ⟨?_, b, rfl⟩⟩
    rintro ⟨-, hnewline⟩
    exact hmem (List.mem_of_head? hnewline)

end Text

/-- As many elements are taken from the front as have the numbers up to `k`. -/
theorem length_takeWhile_eq {α : Type} {l : List α} {p : α → Bool} {k : Nat} (hk : k < l.length)
    (h : ∀ i x, l[i]? = some x → (p x = true ↔ i ≤ k)) : (l.takeWhile p).length = k + 1 := by
  induction l generalizing k with
  | nil => simp at hk
  | cons x l ih =>
    have hx : p x = true := (h 0 x rfl).mpr (Nat.zero_le k)
    rw [List.takeWhile_cons_of_pos hx, List.length_cons, Nat.add_right_cancel_iff]
    cases k with
    | zero =>
      cases l with
      | nil => rfl
      | cons y l =>
        have hy := h 1 y rfl
        rw [List.takeWhile_cons_of_neg (by simpa using hy)]
        rfl
    | succ k =>
      refine ih (by simpa using hk) fun i y hy => ?_
      rw [h (i + 1) y (by simpa using hy)]
      omega

namespace LineIndex

open Text

/-- The line of an offset is the number of newlines before it. -/
theorem lineAt_ofText (a b : Text) : (ofText (a ++ b)).lineAt a.size = a.count '\n' := by
  have hcount := lineCount_ofText (a ++ b)
  rw [List.count_append, lineCount] at hcount
  have hlength := length_takeWhile_eq (l := (ofText (a ++ b)).lines) (k := a.count '\n')
    (p := fun l => l.start ≤ a.size) (by omega) ?_
  · rw [lineAt, hlength, Nat.add_sub_cancel]
  · intro i l hl
    have hi : i < (ofText (a ++ b)).lines.length := (List.getElem?_eq_some_iff.mp hl).1
    obtain ⟨start, content, hline⟩ := exists_lineAt (t := a ++ b) (n := i)
      (by rw [List.count_append]; omega)
    obtain rfl := Option.some.inj ((lines_getElem? hline).symm.trans hl)
    rw [decide_eq_true_iff]
    exact hline.start_le_iff

/-- The units before a column, found by taking off what the wide characters before it have more. -/
theorem unitColumn_ofLine (x y : Text) (k base : Nat) :
    unitColumn (k + x.size) (base + x.size) (WideChar.ofLine k (x ++ y)) =
      .ok (base + x.units) := by
  induction x generalizing k base with
  | nil =>
    cases hwide : WideChar.ofLine k y with
    | nil => simp [hwide, unitColumn]
    | cons w ws =>
      obtain ⟨hstart, hlt, -⟩ := WideChar.start_bounds (hwide ▸ List.mem_cons_self)
      have hbehind : ¬ w.stop ≤ k := by omega
      simp [hwide, unitColumn, hbehind]
  | cons c x ih =>
    have hpos := c.utf8Size_pos
    rw [size_cons, units_cons, List.cons_append]
    by_cases hc : 1 < c.utf8Size
    · have hle := unitsOf_le c
      have hextra := Offset.sub_eq_ok hle
      have hleft : Offset.sub (base + (c.utf8Size + Text.size x)) (c.utf8Size - unitsOf c) =
          .ok (base + unitsOf c + Text.size x) := Offset.sub_eq_of_add (by omega)
      have hbefore : k + c.utf8Size ≤ k + (c.utf8Size + Text.size x) := by omega
      have hrest := ih (k + c.utf8Size) (base + unitsOf c)
      rw [Nat.add_assoc k, Nat.add_assoc base (unitsOf c) (units x)] at hrest
      rw [WideChar.ofLine_cons_wide hc, unitColumn, if_pos hbefore]
      simp only [WideChar.size_of_char, WideChar.units_of_char, ok_bind, hextra, hleft, hrest]
    · have hone : c.utf8Size = 1 := by omega
      have hunit : unitsOf c = 1 := by simp [unitsOf, hone]
      have hrest := ih (k + 1) (base + 1)
      rw [WideChar.ofLine_cons_narrow hc, hone, hunit, ← Nat.add_assoc, ← Nat.add_assoc,
        ← Nat.add_assoc]
      exact hrest

section Cut

variable {before x : Text} (b : Text) (h : before = [] ∨ before.getLast? = some '\n')
  (hx : '\n' ∉ x)
include h hx

/-- The entry of the line that a cut falls on knows the wide characters before the cut. -/
theorem exists_line_of_cut :
    ∃ stop y, (ofText (before ++ x ++ b)).line (before.count '\n') =
      .ok ⟨before.size, stop, WideChar.ofLine 0 (x ++ y)⟩ := by
  obtain ⟨content, hline, hcases⟩ := exists_lineAt_of_cut b h hx
  have hentry := lines_getElem? hline
  rcases hcases with ⟨-, y, rfl⟩ | ⟨-, rfl⟩
  · exact ⟨_, y, by rw [line, hentry]⟩
  · refine ⟨before.size + content.size, [], ?_⟩
    rw [line, hentry, List.append_nil, WideChar.ofLine_append_narrow rfl]

theorem lineCol_of_cut :
    (ofText (before ++ x ++ b)).lineCol (before ++ x).size =
      .ok ⟨before.count '\n', x.size⟩ := by
  obtain ⟨stop, y, hentry⟩ := exists_line_of_cut b h hx
  have hcol : Offset.sub (before ++ x).size before.size = .ok x.size :=
    Offset.sub_eq_of_add (by rw [size_append, Nat.add_comm])
  rw [lineCol, lineAt_ofText, count_append_of_not_mem before hx, hentry, ok_bind]
  simp only [hcol, ok_bind, pure_eq_ok]

theorem positionUtf16_of_cut :
    (ofText (before ++ x ++ b)).positionUtf16 (before ++ x).size =
      .ok ⟨before.count '\n', x.units⟩ := by
  obtain ⟨stop, y, hentry⟩ := exists_line_of_cut b h hx
  have hunits := unitColumn_ofLine x y 0 0
  simp only [Nat.zero_add] at hunits
  rw [positionUtf16, lineCol_of_cut b h hx, ok_bind, hentry, ok_bind, hunits]
  rfl

theorem offset_of_cut (hsize : (before ++ x ++ b).size ≤ Offset.greatest) :
    (ofText (before ++ x ++ b)).offset ⟨before.count '\n', x.size⟩ =
      .ok (some (before ++ x).size) := by
  obtain ⟨content, hline, -⟩ := exists_lineAt_of_cut b h hx
  have hentry := lines_getElem? hline
  have hfits : before.size + x.size ≤ Offset.greatest := by
    simp only [size_append] at hsize
    omega
  simp only [offset, hentry, Offset.add_eq_ok hfits, size_append]
  rfl

theorem offsetUtf16_of_cut (hsize : (before ++ x ++ b).size ≤ Offset.greatest) :
    (ofText (before ++ x ++ b)).offsetUtf16 ⟨before.count '\n', x.units⟩ =
      .ok (if SplitsEnding (before ++ x) b then (before ++ x).size - 1
        else (before ++ x).size) := by
  obtain ⟨content, hline, hcases⟩ := exists_lineAt_of_cut b h hx
  rcases hcases with ⟨hwhole, y, rfl⟩ | ⟨hsplit, rfl⟩
  · have hplace : (before ++ x ++ b).Resolves ⟨before.count '\n', x.units⟩
        (.ok (before.size + x.size)) := .inside hline rfl rfl
    rw [if_neg hwhole, size_append, offsetUtf16_of_resolves hsize hplace]
    rfl
  · -- the position is one unit behind the content
    have hplace : (before ++ (content ++ ['\r']) ++ b).Resolves
        ⟨before.count '\n', (content ++ ['\r']).units⟩ (.ok (before.size + content.size)) := by
      refine .past hline ?_
      have := unitsOf_pos '\r'
      simp only [units_append, units_cons, units_nil]
      omega
    have hcr : Char.utf8Size '\r' = 1 := rfl
    rw [if_pos hsplit, offsetUtf16_of_resolves hsize hplace]
    simp only [size_append, size_cons, size_nil, hcr, Nat.add_zero, ← Nat.add_assoc,
      Nat.add_sub_cancel]
    rfl

end Cut

/-- Offsets and positions of a text lead to each other. The line of an offset between two characters
is the number of newlines before it, and its column is what stands since the last of them. Both
conversions back lead to the offset again, except that from between a carriage return and its
newline an editor's position leads in front of both. The other way round, a position within the
content of a line is the position of the offset that it leads to. -/
theorem positions_inverse (t : Text) (hsize : t.size ≤ Offset.greatest) :
    (∀ o, t.isBoundary o = true → ∃ a b, t = a ++ b ∧ a.size = o ∧
      (ofText t).lineCol o = .ok ⟨a.count '\n', a.lastLine.size⟩ ∧
      (ofText t).offset ⟨a.count '\n', a.lastLine.size⟩ = .ok (some o) ∧
      (ofText t).positionUtf16 o = .ok ⟨a.count '\n', a.lastLine.units⟩ ∧
      (ofText t).offsetUtf16 ⟨a.count '\n', a.lastLine.units⟩ =
        .ok (if SplitsEnding a b then o - 1 else o)) ∧
      ∀ p start content o, t.LineAt p.line start content → p.character ≤ content.units →
        (ofText t).offsetUtf16 p = .ok o → (ofText t).positionUtf16 o = .ok p := by
  constructor
  · intro o ho
    obtain ⟨a, b, rfl, rfl⟩ := isBoundary_iff.mp ho
    obtain ⟨before, ha, hbegins⟩ := exists_append_lastLine a
    have hx := not_mem_lastLine a
    refine ⟨a, b, rfl, rfl, ?_⟩
    generalize lastLine a = x at *
    subst ha
    rw [count_append_of_not_mem before hx]
    exact ⟨lineCol_of_cut b hbegins hx, offset_of_cut b hbegins hx hsize,
      positionUtf16_of_cut b hbegins hx, offsetUtf16_of_cut b hbegins hx hsize⟩
  · intro p start content o hline hle ho
    have hplace := resolves_of_offsetUtf16 (r := .ok o) hsize ho
    rcases hplace.ok_cases with ⟨hlast, -⟩ | ⟨start', x, y, hline', rfl, hunits⟩
    · have := hline.le_count
      omega
    · obtain ⟨rfl, rfl⟩ := hline.eq_of_number hline'
      have hx : x.units = p.character := by
        rw [units_append] at hle
        rcases hunits with hunits | ⟨rfl, hlt⟩
        · exact hunits
        · rw [units_nil] at hle
          omega
      obtain ⟨before, ending, after, rfl, hisLine, hcount, rfl⟩ := hline
      have hnot : '\n' ∉ x := fun hmem => hisLine.not_mem (List.mem_append_left _ hmem)
      have hposition := positionUtf16_of_cut (y ++ ending ++ after) hisLine.begins hnot
      rw [hcount, hx, size_append] at hposition
      simpa using hposition

/-- The offset between a carriage return and its newline, and a position behind a wide character. -/
theorem positions_inverse_across :
    let t : Text := "é\r\n😀b".toList
    t.size ≤ Offset.greatest ∧ t.isBoundary 3 = true ∧
      (∃ p, (ofText t).positionUtf16 3 = .ok p ∧ (ofText t).offsetUtf16 p = .ok 2) ∧
      (ofText t).positionUtf16 8 = .ok ⟨1, 2⟩ := by
  intro t
  have hsize : t.size ≤ Offset.greatest := by decide
  have hboundary : t.isBoundary 3 = true := by decide
  have hsplit : split? 3 t = some ("é\r".toList, "\n😀b".toList) := by decide
  have hline : t.LineAt 1 4 "😀b".toList :=
    ⟨"é\r\n".toList, [], [], rfl, ⟨.inr rfl, by decide, .inr (.inr ⟨rfl, rfl⟩)⟩, rfl, rfl⟩
  obtain ⟨hback, hthere⟩ := positions_inverse t hsize
  refine ⟨hsize, hboundary, ?_, hthere ⟨1, 2⟩ 4 _ 8 hline (by decide) rfl⟩
  obtain ⟨a, b, htext, ha, -, -, hposition, hoffset⟩ := hback 3 hboundary
  have hcut := hsplit.symm.trans (split?_eq_some_iff.mpr ⟨htext, ha⟩)
  obtain ⟨rfl, rfl⟩ := Prod.mk.inj (Option.some.inj hcut)
  exact ⟨_, hposition, hoffset⟩

end LineIndex

end IncrementalSyntax
