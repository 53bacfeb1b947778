import IncrementalSyntax.Proofs.Edit.Cut
import IncrementalSyntax.Text.LineIndex

/-!
The lines of a text, said of its characters. A line begins at the beginning of the text or behind a
newline, and it ends before a newline, before a carriage return and a newline, or at the end of the
text; `IsLine` says so for a text that is cut in four. Every line is in the index of the text with
its start, the end of its content and the wide characters of its content (`lines_getElem?`), and
every number up to that of the newlines is the number of a line (`exists_lineAt`). Where a line
starts and how many newlines stand before an offset are two ways to compare them (`start_le_iff`).
-/
namespace IncrementalSyntax

namespace Text

theorem unitsOf_pos (c : Char) : 0 < unitsOf c := by
  rw [unitsOf]
  split <;> omega

theorem unitsOf_le (c : Char) : unitsOf c ≤ c.utf8Size := by
  have := c.utf8Size_pos
  rw [unitsOf]
  split <;> omega

@[simp] theorem units_nil : units [] = 0 := rfl

@[simp] theorem units_cons (c : Char) (t : Text) : units (c :: t) = unitsOf c + units t := rfl

@[simp] theorem units_append (s t : Text) : units (s ++ t) = units s + units t := by
  induction s with
  | nil => simp
  | cons c s ih => simp [ih, Nat.add_assoc]

theorem units_le_size (t : Text) : t.units ≤ t.size := by
  induction t with
  | nil => simp
  | cons c t ih =>
    have := unitsOf_le c
    simp only [units_cons, size_cons]
    omega

theorem lines_of_not_mem {l : Text} (h : '\n' ∉ l) : lines l = [l] := by
  induction l with
  | nil => rfl
  | cons c l ih =>
    simp only [List.mem_cons, not_or] at h
    rw [lines, if_neg (Ne.symm h.1), ih h.2]

theorem lines_append {l : Text} (h : '\n' ∉ l) (t : Text) :
    lines (l ++ '\n' :: t) = l :: lines t := by
  induction l with
  | nil => simp [lines]
  | cons c l ih =>
    simp only [List.mem_cons, not_or] at h
    rw [List.cons_append, lines, if_neg (Ne.symm h.1), ih h.2]

theorem length_lines (t : Text) : (lines t).length = t.count '\n' + 1 := by
  induction t with
  | nil => rfl
  | cons c t ih =>
    rw [lines]
    split
    next hc => simp [hc, ih]
    next hc =>
      split
      next hnil => exact absurd hnil (lines_ne_nil t)
      next l ls heq =>
        rw [heq] at ih
        rw [List.count_cons_of_ne hc, ← ih]
        rfl

/-- A line and how it stands in a text: behind `before`, followed by `ending` and `after`. -/
structure IsLine (before content ending after : Text) : Prop where
  begins : before = [] ∨ before.getLast? = some '\n'
  not_mem : '\n' ∉ content
  ends : ending = ['\r', '\n'] ∨ (ending = ['\n'] ∧ content.getLast? ≠ some '\r') ∨
    (ending = [] ∧ after = [])

/-- Line `n` of the text starts at byte `start`, and `content` are its characters without its
newline, and without a carriage return in front of that. -/
def LineAt (t : Text) (n start : Nat) (content : Text) : Prop :=
  ∃ before ending after, t = before ++ content ++ ending ++ after ∧
    IsLine before content ending after ∧ before.count '\n' = n ∧ before.size = start

/-- The rest of a text behind a newline, or all of it, begins with a line. -/
theorem exists_isLine {before : Text} (h : before = [] ∨ before.getLast? = some '\n')
    (rest : Text) :
    ∃ content ending after, rest = content ++ ending ++ after ∧
      IsLine before content ending after := by
  by_cases hmem : '\n' ∈ rest
  · obtain ⟨l, after, rfl, hl⟩ := List.eq_append_cons_of_mem hmem
    by_cases hcr : l.getLast? = some '\r'
    · obtain ⟨content, rfl⟩ := List.getLast?_eq_some_iff.mp hcr
      refine ⟨content, ['\r', '\n'], after, by simp, h, ?_, .inl rfl⟩
      exact fun hc => hl (List.mem_append_left _ hc)
    · exact ⟨l, ['\n'], after, by simp, h, hl, .inr (.inl ⟨rfl, hcr⟩)⟩
  · exact ⟨rest, [], [], by simp, h, hmem, .inr (.inr ⟨rfl, rfl⟩)⟩

/-- A text can be cut behind any of its newlines. -/
theorem exists_cut_behind {t : Text} {n : Nat} (h : n ≤ t.count '\n') :
    ∃ before rest, t = before ++ rest ∧ (before = [] ∨ before.getLast? = some '\n') ∧
      before.count '\n' = n := by
  induction n with
  | zero => exact ⟨[], t, rfl, .inl rfl, rfl⟩
  | succ n ih =>
    obtain ⟨before, rest, rfl, -, hcount⟩ := ih (by omega)
    rw [List.count_append] at h
    have hmem : '\n' ∈ rest := List.count_pos_iff.mp (by omega)
    obtain ⟨l, rest, rfl, hl⟩ := List.eq_append_cons_of_mem hmem
    refine ⟨before ++ (l ++ ['\n']), rest, by simp, .inr (by simp), ?_⟩
    simp [List.count_eq_zero.mpr hl, hcount]

/-- Every number up to that of the newlines is the number of a line. -/
theorem exists_lineAt {t : Text} {n : Nat} (h : n ≤ t.count '\n') :
    ∃ start content, t.LineAt n start content := by
  obtain ⟨before, rest, rfl, hbegins, hcount⟩ := exists_cut_behind h
  obtain ⟨content, ending, after, rfl, hline⟩ := exists_isLine hbegins rest
  exact ⟨before.size, content, before, ending, after, by simp, hline, hcount, rfl⟩

theorem LineAt.le_count {t : Text} {n start : Nat} {content : Text}
    (h : t.LineAt n start content) : n ≤ t.count '\n' := by
  obtain ⟨before, ending, after, rfl, -, rfl, -⟩ := h
  simp only [List.count_append]
  omega

/-- A line starts at or before an offset exactly if no more newlines stand before the line than
before the offset. -/
theorem LineAt.start_le_iff {a b : Text} {n start : Nat} {content : Text}
    (h : (a ++ b).LineAt n start content) : start ≤ a.size ↔ n ≤ a.count '\n' := by
  obtain ⟨before, ending, after, htext, hline, rfl, rfl⟩ := h
  rw [List.append_assoc, List.append_assoc] at htext
  constructor
  · intro hle
    obtain ⟨x, rfl, -⟩ := append_eq_append_of_size_le htext.symm hle
    rw [List.count_append]
    exact Nat.le_add_right _ _
  · intro hle
    by_cases hlt : before.size ≤ a.size
    · exact hlt
    · -- the line starts behind the offset, and the newline in front of it stands there too
      obtain ⟨x, rfl, -⟩ := append_eq_append_of_size_le htext (by omega)
      rcases List.eq_nil_or_concat x with rfl | ⟨init, last, rfl⟩
      · simp at hlt
      · have hlast : last = '\n' := by
          rcases hline.begins with hnil | hlast
          · simp at hnil
          · simpa using hlast
        rw [hlast, List.concat_eq_append, List.count_append, List.count_append,
          List.count_singleton_self] at hle
        omega

/-- The content of a line ends before every later line starts. -/
theorem LineAt.lt_start {t : Text} {m n start start' : Nat} {content content' : Text}
    (h : t.LineAt m start content) (h' : t.LineAt n start' content') (hlt : m < n) :
    start + content.size < start' := by
  obtain ⟨before, ending, after, rfl, hline, rfl, rfl⟩ := h
  rw [List.append_assoc] at h'
  have hiff := h'.start_le_iff
  have hcount : (before ++ content).count '\n' = before.count '\n' := by
    simp [List.count_eq_zero.mpr hline.not_mem]
  rw [hcount, size_append] at hiff
  omega

theorem LineAt.add_size_le {t : Text} {n start : Nat} {content : Text}
    (h : t.LineAt n start content) : start + content.size ≤ t.size := by
  obtain ⟨before, ending, after, rfl, -, -, rfl⟩ := h
  simp only [size_append]
  omega

theorem LineAt.slice {t : Text} {n start : Nat} {content : Text} (h : t.LineAt n start content) :
    t.slice start (start + content.size) = .ok content := by
  obtain ⟨before, ending, after, rfl, -, -, rfl⟩ := h
  exact slice_eq_ok_iff.mpr ⟨before, ending ++ after, by simp, rfl, rfl⟩

end Text

namespace WideChar

/-- A character of one byte adds nothing. -/
theorem ofLine_append_narrow {c : Char} (h : c.utf8Size = 1) (col : Nat) (l : Text) :
    ofLine col (l ++ [c]) = ofLine col l := by
  induction l generalizing col with
  | nil => simp [ofLine, h]
  | cons d l ih => simp [ofLine, ih]

end WideChar

namespace LineIndex

open Text

theorem entries_cons (start : Nat) (l : Text) {ls : List Text} (h : ls ≠ []) :
    entries start (l :: ls) =
      ⟨start, start + l.size - (if l.getLast? = some '\r' then 1 else 0), WideChar.ofLine 0 l⟩ ::
        entries (start + l.size + 1) ls := by
  cases ls with
  | nil => exact absurd rfl h
  | cons l' ls => rfl

theorem length_entries (start : Nat) (ls : List Text) : (entries start ls).length = ls.length := by
  induction ls generalizing start with
  | nil => rfl
  | cons l ls ih =>
    by_cases h : ls = []
    · simp [h, entries]
    · simp [entries_cons start l h, ih]

theorem lineCount_ofText (t : Text) : (ofText t).lineCount = t.count '\n' + 1 := by
  rw [lineCount, ofText, length_entries, length_lines]

/-- The entry of a line that has no newline before it. -/
theorem entries_first {content ending after : Text} (h : IsLine [] content ending after)
    (start : Nat) :
    (entries start (Text.lines (content ++ ending ++ after))).head? =
      some ⟨start, start + content.size, WideChar.ofLine 0 content⟩ := by
  have hcr : Char.utf8Size '\r' = 1 := rfl
  rcases h.ends with rfl | ⟨rfl, hlast⟩ | ⟨rfl, rfl⟩
  · have hl : '\n' ∉ content ++ ['\r'] := by simp [h.not_mem]
    have hlines : Text.lines (content ++ ['\r', '\n'] ++ after) =
        (content ++ ['\r']) :: Text.lines after := by
      rw [← lines_append hl]
      simp
    rw [hlines, entries_cons start _ (lines_ne_nil after)]
    simp [WideChar.ofLine_append_narrow hcr, hcr]
  · have hlines : Text.lines (content ++ ['\n'] ++ after) = content :: Text.lines after := by
      rw [← lines_append h.not_mem]
      simp
    rw [hlines, entries_cons start _ (lines_ne_nil after), if_neg hlast]
    rfl
  · rw [List.append_nil, List.append_nil, lines_of_not_mem h.not_mem]
    rfl

/-- Every line has its entry. The induction is on the number of newlines before it. -/
theorem entries_getElem? {before content ending after : Text}
    (h : IsLine before content ending after) (start : Nat) :
    (entries start (Text.lines (before ++ content ++ ending ++ after)))[before.count '\n']? =
      some ⟨start + before.size, start + before.size + content.size,
        WideChar.ofLine 0 content⟩ := by
  induction hn : before.count '\n' generalizing before start with
  | zero =>
    have hnil : before = [] := by
      rcases h.begins with hnil | hlast
      · exact hnil
      · exact absurd (List.mem_of_getLast? hlast) (List.count_eq_zero.mp hn)
    subst hnil
    rw [← List.head?_eq_getElem?]
    exact entries_first h start
  | succ n ih =>
    have hmem : '\n' ∈ before := List.count_pos_iff.mp (by omega)
    obtain ⟨l, later, rfl, hl⟩ := List.eq_append_cons_of_mem hmem
    have hcount : later.count '\n' = n := by
      simp only [List.count_append, List.count_eq_zero.mpr hl, List.count_cons_self] at hn
      omega
    have hbegins : later = [] ∨ later.getLast? = some '\n' := by
      rcases List.eq_nil_or_concat later with hnil | ⟨init, last, rfl⟩
      · exact .inl hnil
      · have hcut : l ++ '\n' :: init.concat last = l ++ '\n' :: init ++ [last] := by simp
        rcases h.begins with hnil | hlast
        · simp at hnil
        · rw [hcut, List.getLast?_concat] at hlast
          exact .inr (by rw [List.concat_eq_append, List.getLast?_concat, hlast])
    have hlines : Text.lines (l ++ '\n' :: later ++ content ++ ending ++ after) =
        l :: Text.lines (later ++ content ++ ending ++ after) := by
      rw [← lines_append hl]
      simp
    have hnewline : Char.utf8Size '\n' = 1 := rfl
    rw [hlines, entries_cons start l (lines_ne_nil _), List.getElem?_cons_succ,
      ih ⟨hbegins, h.not_mem, h.ends⟩ (start + Text.size l + 1) hcount]
    simp [hnewline, Nat.add_assoc]

theorem lines_getElem? {t : Text} {n start : Nat} {content : Text}
    (h : t.LineAt n start content) :
    (ofText t).lines[n]? = some ⟨start, start + content.size, WideChar.ofLine 0 content⟩ := by
  obtain ⟨before, ending, after, rfl, hline, rfl, rfl⟩ := h
  simpa [ofText] using entries_getElem? hline 0

end LineIndex

theorem Text.LineAt.eq_of_number {t : Text} {n start start' : Nat} {content content' : Text}
    (h : t.LineAt n start content) (h' : t.LineAt n start' content') :
    start = start' ∧ content = content' := by
  have hentry := (LineIndex.lines_getElem? h).symm.trans (LineIndex.lines_getElem? h')
  simp only [Option.some.injEq, Line.mk.injEq] at hentry
  obtain ⟨rfl, hstop, -⟩ := hentry
  have hslice := h'.slice
  rw [← hstop] at hslice
  exact ⟨rfl, Except.ok.inj (h.slice.symm.trans hslice)⟩

end IncrementalSyntax
