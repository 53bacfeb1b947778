import IncrementalSyntax.Proofs.Text.Lines

/-!
Where an editor's position stands. `Text.Resolves` says it of the characters of the line: the
position stands behind the characters that have as many units as it asks for, at the end of the
content if there are not so many, and nowhere if it falls between the two units of one character.
The index does not walk the characters. Passing over one of them moves the columns that it counts by
the bytes and the units of that one (`byteColumn_step`), so that after any beginning of the line
they are those of the beginning (`byteColumn_run`).
-/
namespace IncrementalSyntax

/-- Where a position of a text stands, or why it stands nowhere. -/
inductive Text.Resolves (t : Text) (p : Position) : Except Error Nat → Prop
  /-- There is no such line. -/
  | outside (h : t.count '\n' + 1 < p.line) :
    Resolves t p (.error (.positionOutOfBounds p.line p.character))
  /-- The line after the last one is the end of the text. -/
  | behind (h : p.line = t.count '\n' + 1) : Resolves t p (.ok t.size)
  /-- The beginning of the line that has exactly the units asked for. -/
  | inside {start : Nat} {content a b : Text} (hline : t.LineAt p.line start content)
    (hcut : content = a ++ b) (hunits : a.units = p.character) : Resolves t p (.ok (start + a.size))
  /-- Between the two units of a character. -/
  | split {start : Nat} {content a b : Text} {c : Char} (hline : t.LineAt p.line start content)
    (hcut : content = a ++ c :: b) (hfour : c.utf8Size = 4) (hunits : p.character = a.units + 1) :
    Resolves t p (.error (.splitSurrogatePair p.line p.character))
  /-- The line has fewer units. -/
  | past {start : Nat} {content : Text} (hline : t.LineAt p.line start content)
    (hunits : content.units < p.character) : Resolves t p (.ok (start + content.size))

namespace Text

/-- A number of units ends a beginning of a line, or it splits a character, or the line is
shorter. -/
theorem units_cases (t : Text) (n : Nat) :
    (∃ a b, t = a ++ b ∧ units a = n) ∨
      (∃ a c b, t = a ++ c :: b ∧ c.utf8Size = 4 ∧ n = units a + 1) ∨ t.units < n := by
  induction t generalizing n with
  | nil =>
    cases n with
    | zero => exact .inl ⟨[], [], rfl, rfl⟩
    | succ n => exact .inr (.inr (Nat.succ_pos n))
  | cons c t ih =>
    by_cases hle : unitsOf c ≤ n
    · rcases ih (n - unitsOf c) with ⟨a, b, rfl, hn⟩ | ⟨a, d, b, rfl, hd, hn⟩ | hlt
      · exact .inl ⟨c :: a, b, rfl, by simp only [units_cons]; omega⟩
      · exact .inr (.inl ⟨c :: a, d, b, rfl, hd, by simp only [units_cons]; omega⟩)
      · exact .inr (.inr (by simp only [units_cons]; omega))
    · cases n with
      | zero => exact .inl ⟨[], c :: t, rfl, rfl⟩
      | succ n =>
        -- more than one unit is left of the character, so it has two
        have hfour : c.utf8Size = 4 := by
          rw [unitsOf] at hle
          split at hle
          · assumption
          · omega
        rw [unitsOf, if_pos hfour] at hle
        exact .inr (.inl ⟨[], c, t, rfl, hfour, by rw [units_nil]; omega⟩)

theorem exists_resolves (t : Text) (p : Position) : ∃ r, t.Resolves p r := by
  by_cases hline : p.line ≤ t.count '\n'
  · obtain ⟨start, content, hline⟩ := exists_lineAt hline
    rcases units_cases content p.character with ⟨a, b, hcut, hn⟩ | ⟨a, c, b, hcut, hc, hn⟩ | hlt
    · exact ⟨_, .inside hline hcut hn⟩
    · exact ⟨_, .split hline hcut hc hn⟩
    · exact ⟨_, .past hline hlt⟩
  · by_cases hlast : p.line = t.count '\n' + 1
    · exact ⟨_, .behind hlast⟩
    · exact ⟨_, .outside (by omega)⟩

/-- A position that stands somewhere stands behind a beginning of its line, or at the end of the
text. -/
theorem Resolves.ok_cases {t : Text} {p : Position} {n : Nat} (h : t.Resolves p (.ok n)) :
    (p.line = t.count '\n' + 1 ∧ n = t.size) ∨
      ∃ start a b, t.LineAt p.line start (a ++ b) ∧ n = start + a.size ∧
        (a.units = p.character ∨ (b = [] ∧ a.units < p.character)) := by
  cases h with
  | behind h => exact .inl ⟨h, rfl⟩
  | @inside start content a b hline hcut hunits =>
    subst hcut
    exact .inr ⟨start, a, b, hline, rfl, .inl hunits⟩
  | @past start content hline hunits =>
    refine .inr ⟨start, content, [], ?_, rfl, .inr ⟨rfl, hunits⟩⟩
    rwa [List.append_nil]

theorem Resolves.isBoundary {t : Text} {p : Position} {n : Nat} (h : t.Resolves p (.ok n)) :
    t.isBoundary n = true := by
  rcases h.ok_cases with ⟨-, rfl⟩ | ⟨start, a, b, hline, rfl, -⟩
  · exact isBoundary_iff.mpr ⟨t, [], by simp, rfl⟩
  · obtain ⟨before, ending, after, rfl, -, -, rfl⟩ := hline
    exact isBoundary_iff.mpr ⟨before ++ a, b ++ ending ++ after, by simp, size_append before a⟩

/-- Of two beginnings of one line, the one with fewer units has fewer bytes. -/
theorem size_le_of_units_le {a b a' b' : Text} (h : a ++ b = a' ++ b') (hle : a.units ≤ a'.units) :
    a.size ≤ a'.size := by
  by_cases hsize : a.size ≤ a'.size
  · exact hsize
  · obtain ⟨x, rfl, -⟩ := append_eq_append_of_size_le h.symm (by omega)
    cases x with
    | nil => simp
    | cons c x =>
      have := unitsOf_pos c
      simp only [units_append, units_cons] at hle
      omega

/-- Later positions do not stand before earlier ones. -/
theorem Resolves.mono {t : Text} {p q : Position} {m n : Nat} (hp : t.Resolves p (.ok m))
    (hq : t.Resolves q (.ok n))
    (hle : p.line < q.line ∨ p.line = q.line ∧ p.character ≤ q.character) : m ≤ n := by
  rcases hp.ok_cases with ⟨hlast, rfl⟩ | ⟨start, a, b, hline, rfl, ha⟩
  · rcases hq.ok_cases with ⟨-, rfl⟩ | ⟨start', a', b', hline', rfl, -⟩
    · exact Nat.le_refl _
    · have := hline'.le_count
      omega
  · have hend := hline.add_size_le
    rw [size_append] at hend
    rcases hq.ok_cases with ⟨-, rfl⟩ | ⟨start', a', b', hline', rfl, ha'⟩
    · omega
    · rcases hle with hlt | ⟨hsame, hle⟩
      · have := hline.lt_start hline' hlt
        rw [size_append] at this
        omega
      · rw [← hsame] at hline'
        obtain ⟨rfl, hcut⟩ := hline.eq_of_number hline'
        have hsize := congrArg size hcut
        have hunits := congrArg units hcut
        simp only [size_append] at hsize
        simp only [units_append] at hunits
        rcases ha' with ha' | ⟨rfl, -⟩
        · -- the later position ends a beginning of the line, and the earlier one does so too
          have hfewer : a.units ≤ a'.units := by
            rcases ha with ha | ⟨-, ha⟩ <;> omega
          exact Nat.add_le_add_left (size_le_of_units_le hcut hfewer) start
        · rw [size_nil] at hsize
          omega

end Text

namespace WideChar

theorem size_of_char (col : Nat) (c : Char) : size ⟨col, col + c.utf8Size⟩ = .ok c.utf8Size :=
  Offset.sub_eq_of_add (Nat.add_comm _ _)

theorem units_of_char (col : Nat) (c : Char) :
    units ⟨col, col + c.utf8Size⟩ = .ok (Text.unitsOf c) := by
  rw [units, size_of_char]
  rfl

theorem ofLine_cons_narrow {c : Char} (h : ¬ 1 < c.utf8Size) (col : Nat) (l : Text) :
    ofLine col (c :: l) = ofLine (col + c.utf8Size) l := by
  simp [ofLine, h]

theorem ofLine_cons_wide {c : Char} (h : 1 < c.utf8Size) (col : Nat) (l : Text) :
    ofLine col (c :: l) = ⟨col, col + c.utf8Size⟩ :: ofLine (col + c.utf8Size) l := by
  simp [ofLine, h]

/-- The wide characters of a part of a line stand in that part. -/
theorem start_bounds {col : Nat} {l : Text} {w : WideChar} (h : w ∈ ofLine col l) :
    col ≤ w.start ∧ w.start < w.stop ∧ w.stop ≤ col + l.size := by
  induction l generalizing col with
  | nil => simp [ofLine] at h
  | cons c l ih =>
    have hpos := c.utf8Size_pos
    rw [Text.size_cons]
    by_cases hc : 1 < c.utf8Size
    · rw [ofLine_cons_wide hc] at h
      rcases List.mem_cons.mp h with rfl | h
      · exact ⟨Nat.le_refl _, Nat.lt_add_of_pos_right hpos,
          Nat.add_le_add_left (Nat.le_add_right _ _) _⟩
      · obtain ⟨hstart, hlt, hstop⟩ := ih h
        exact ⟨by omega, hlt, by omega⟩
    · rw [ofLine_cons_narrow hc] at h
      obtain ⟨hstart, hlt, hstop⟩ := ih h
      exact ⟨by omega, hlt, by omega⟩

end WideChar

namespace LineIndex

open Text

/-- The columns after a beginning of a line: `bytes` and `units` right after its last wide
character, and `narrow` characters of one byte since then. -/
structure Columns (done : Text) (bytes units narrow : Nat) : Prop where
  bytes_eq : bytes + narrow = done.size
  units_eq : units + narrow = done.units

variable {p : Position} {done : Text} {bytes units narrow : Nat}

/-- The step lemma: one more character, if the position stands behind it. -/
theorem byteColumn_step (h : Columns done bytes units narrow) (c : Char) (rest : Text)
    (hsize : (done ++ c :: rest).size ≤ Offset.greatest)
    (hpast : (done ++ [c]).units ≤ p.character) :
    ∃ bytes' units' narrow', Columns (done ++ [c]) bytes' units' narrow' ∧
      byteColumn p bytes units (WideChar.ofLine done.size (c :: rest)) =
        byteColumn p bytes' units' (WideChar.ofLine (done ++ [c]).size rest) := by
  obtain ⟨hbytes, hunits⟩ := h
  have hle := units_le_size (done ++ [c])
  have hpos := unitsOf_pos c
  simp only [size_append, size_cons, size_nil, units_append, units_cons, units_nil,
    Nat.add_zero] at *
  by_cases hc : 1 < c.utf8Size
  · refine ⟨done.size + c.utf8Size, done.units + unitsOf c, 0, ⟨by simp, by simp⟩, ?_⟩
    have hnarrow : Offset.sub done.size bytes = .ok narrow :=
      Offset.sub_eq_of_add (by omega)
    have hreach : units + narrow ≤ Offset.greatest := by omega
    have hreached : Offset.add units narrow = .ok done.units := hunits ▸ Offset.add_eq_ok hreach
    have hwide : done.units + unitsOf c ≤ Offset.greatest := by omega
    have hwidth := Offset.add_eq_ok hwide
    have hbehind : ¬ p.character ≤ done.units := by omega
    have hbehind' : ¬ p.character < done.units + unitsOf c := by omega
    rw [WideChar.ofLine_cons_wide hc, byteColumn]
    simp only [hnarrow, hreached, hwidth, WideChar.units_of_char, Failure.ofFault_ok, ok_bind,
      if_neg hbehind, if_neg hbehind', pure_eq_ok]
  · have hone : c.utf8Size = 1 := by
      have := c.utf8Size_pos
      omega
    have hunit : unitsOf c = 1 := by simp [unitsOf, hone]
    refine ⟨bytes, units, narrow + 1, ⟨?_, ?_⟩, ?_⟩
    · simp only [size_append, size_cons, size_nil]
      omega
    · simp only [units_append, units_cons, units_nil]
      omega
    · rw [WideChar.ofLine_cons_narrow hc]

/-- The run lemma: a beginning of a line, if the position stands behind it. -/
theorem byteColumn_run (h : Columns done bytes units narrow) (more rest : Text)
    (hsize : (done ++ more ++ rest).size ≤ Offset.greatest)
    (hpast : (done ++ more).units ≤ p.character) :
    ∃ bytes' units' narrow', Columns (done ++ more) bytes' units' narrow' ∧
      byteColumn p bytes units (WideChar.ofLine done.size (more ++ rest)) =
        byteColumn p bytes' units' (WideChar.ofLine (done ++ more).size rest) := by
  induction more generalizing done bytes units narrow with
  | nil => exact ⟨bytes, units, narrow, by simpa using h, by simp⟩
  | cons c more ih =>
    have hcut : done ++ c :: more = done ++ [c] ++ more := by simp
    have hfirst : (done ++ [c]).units ≤ p.character := by
      rw [hcut, units_append] at hpast
      omega
    obtain ⟨_, _, _, hstep, heq⟩ := byteColumn_step h c (more ++ rest) (by simpa using hsize) hfirst
    rw [hcut] at hsize hpast ⊢
    obtain ⟨bytes', units', narrow', hcolumns, hrun⟩ := ih hstep hsize hpast
    exact ⟨bytes', units', narrow', hcolumns, heq.trans hrun⟩

/-- The position stands right behind what has been passed. -/
theorem byteColumn_inside (h : Columns done bytes units narrow) (rest : Text)
    (hsize : (done ++ rest).size ≤ Offset.greatest) (hat : p.character = done.units) :
    byteColumn p bytes units (WideChar.ofLine done.size rest) = .ok done.size := by
  obtain ⟨hbytes, hunits⟩ := h
  have hle := units_le_size done
  rw [size_append] at hsize
  have hmore : Offset.sub p.character units = .ok narrow := Offset.sub_eq_of_add (by omega)
  have hsum : Offset.addUpTo bytes narrow = done.size := by
    rw [Offset.addUpTo, hbytes, Nat.min_eq_left (by omega)]
  cases hwide : WideChar.ofLine done.size rest with
  | nil => simp [byteColumn, hmore, hsum]
  | cons w ws =>
    obtain ⟨hstart, hlt, hstop⟩ := WideChar.start_bounds (hwide ▸ List.mem_cons_self)
    have hle' : bytes ≤ w.start := by omega
    have hnarrow := Offset.sub_eq_ok hle'
    have hreach : units + (w.start - bytes) ≤ Offset.greatest := by omega
    have hreached := Offset.add_eq_ok hreach
    have hbefore : p.character ≤ units + (w.start - bytes) := by omega
    simp [byteColumn, hnarrow, hreached, hbefore, hmore, hsum]

/-- The position stands between the two units of the next character. -/
theorem byteColumn_split (h : Columns done bytes units narrow) {c : Char} (rest : Text)
    (hsize : (done ++ c :: rest).size ≤ Offset.greatest) (hfour : c.utf8Size = 4)
    (hat : p.character = done.units + 1) :
    byteColumn p bytes units (WideChar.ofLine done.size (c :: rest)) =
      .error (.refused (.splitSurrogatePair p.line p.character)) := by
  obtain ⟨hbytes, hunits⟩ := h
  have hle := units_le_size done
  have htwo : unitsOf c = 2 := if_pos hfour
  rw [size_append, size_cons] at hsize
  have hnarrow : Offset.sub done.size bytes = .ok narrow := Offset.sub_eq_of_add (by omega)
  have hreach : units + narrow ≤ Offset.greatest := by omega
  have hreached : Offset.add units narrow = .ok done.units := hunits ▸ Offset.add_eq_ok hreach
  have hwide : done.units + 2 ≤ Offset.greatest := by omega
  have hwidth := Offset.add_eq_ok hwide
  have hbehind : ¬ p.character ≤ done.units := by omega
  have hinside : p.character < done.units + 2 := by omega
  rw [WideChar.ofLine_cons_wide (by omega), byteColumn]
  simp only [hnarrow, hreached, WideChar.units_of_char, htwo, hwidth, Failure.ofFault_ok, ok_bind,
    if_neg hbehind, if_pos hinside]
  rfl

/-- The position stands behind the whole line. -/
theorem byteColumn_past (h : Columns done bytes units narrow)
    (hsize : done.size ≤ Offset.greatest) (hpast : done.units ≤ p.character) :
    ∃ col, byteColumn p bytes units [] = .ok col ∧ done.size ≤ col := by
  obtain ⟨hbytes, hunits⟩ := h
  have hle : units ≤ p.character := by omega
  have hmore := Offset.sub_eq_ok hle
  refine ⟨Offset.addUpTo bytes (p.character - units), by simp [byteColumn, hmore], ?_⟩
  rw [Offset.addUpTo]
  omega

variable {t : Text} {start : Nat} {content : Text}

theorem offsetUtf16_of_column (hsize : t.size ≤ Offset.greatest)
    (hline : t.LineAt p.line start content) {col : Nat}
    (hcol : byteColumn p 0 0 (WideChar.ofLine 0 content) = .ok col) :
    (ofText t).offsetUtf16 p = .ok (start + min col content.size) := by
  have hend := hline.add_size_le
  have hentry := lines_getElem? hline
  have hwidth : Offset.sub (start + content.size) start = .ok content.size :=
    Offset.sub_eq_of_add (Nat.add_comm _ _)
  have hfits : start + min col content.size ≤ Offset.greatest := by omega
  have hsum := Offset.add_eq_ok hfits
  simp [offsetUtf16, offset, hentry, hwidth, hcol, hsum]

theorem offsetUtf16_of_refused (hline : t.LineAt p.line start content) {failure : Failure}
    (hcol : byteColumn p 0 0 (WideChar.ofLine 0 content) = .error failure) :
    (ofText t).offsetUtf16 p = .error failure := by
  have hentry := lines_getElem? hline
  have hwidth : Offset.sub (start + content.size) start = .ok content.size :=
    Offset.sub_eq_of_add (Nat.add_comm _ _)
  simp [offsetUtf16, hentry, hwidth, hcol]

theorem offsetUtf16_of_resolves (hsize : t.size ≤ Offset.greatest) {r : Except Error Nat}
    (h : t.Resolves p r) : (ofText t).offsetUtf16 p = Failure.ofRefusal r := by
  have hcount := lineCount_ofText t
  have hstart : Columns [] 0 0 0 := ⟨rfl, rfl⟩
  cases h with
  | outside h =>
    have hnone : (ofText t).lines[p.line]? = none :=
      List.getElem?_eq_none (by rw [lineCount] at hcount; omega)
    simp only [offsetUtf16, hnone, hcount, if_neg (show p.line ≠ t.count '\n' + 1 by omega)]
    rfl
  | behind h =>
    have hnone : (ofText t).lines[p.line]? = none :=
      List.getElem?_eq_none (by rw [lineCount] at hcount; omega)
    simp only [offsetUtf16, hnone, hcount, if_pos h]
    rfl
  | @inside start content a b hline hcut hunits =>
    subst hcut
    have hend := hline.add_size_le
    obtain ⟨_, _, _, hcolumns, hrun⟩ := byteColumn_run (p := p) hstart a b
      (by rw [List.nil_append]; omega) (by rw [List.nil_append]; omega)
    have hcol := hrun.trans (byteColumn_inside hcolumns b (by rw [List.nil_append]; omega)
      (by rw [List.nil_append]; exact hunits.symm))
    rw [offsetUtf16_of_column hsize hline hcol, List.nil_append, size_append,
      Nat.min_eq_left (Nat.le_add_right _ _)]
    rfl
  | @split start content a b c hline hcut hfour hunits =>
    subst hcut
    have hend := hline.add_size_le
    obtain ⟨_, _, _, hcolumns, hrun⟩ := byteColumn_run (p := p) hstart a (c :: b)
      (by rw [List.nil_append]; omega) (by rw [List.nil_append]; omega)
    have hcol := hrun.trans (byteColumn_split hcolumns b (by rw [List.nil_append]; omega) hfour
      (by rw [List.nil_append]; exact hunits))
    exact offsetUtf16_of_refused hline hcol
  | @past start content hline hunits =>
    have hend := hline.add_size_le
    obtain ⟨_, _, _, hcolumns, hrun⟩ := byteColumn_run (p := p) hstart content []
      (by rw [List.nil_append, List.append_nil]; omega) (by rw [List.nil_append]; omega)
    obtain ⟨col, hcol, hle⟩ := byteColumn_past (p := p) hcolumns (by rw [List.nil_append]; omega)
      (by rw [List.nil_append]; omega)
    rw [List.append_nil] at hrun
    rw [List.nil_append] at hle
    rw [offsetUtf16_of_column hsize hline (hrun.trans hcol), Nat.min_eq_right hle]
    rfl

theorem ofRefusal_inj {r r' : Except Error Nat}
    (h : Failure.ofRefusal r = Failure.ofRefusal r') : r = r' := by
  cases r <;> cases r' <;> simp_all

theorem resolves_of_offsetUtf16 (hsize : t.size ≤ Offset.greatest) {r : Except Error Nat}
    (h : (ofText t).offsetUtf16 p = Failure.ofRefusal r) : t.Resolves p r := by
  obtain ⟨r', hr'⟩ := exists_resolves t p
  rw [offsetUtf16_of_resolves hsize hr'] at h
  rwa [ofRefusal_inj h] at hr'

/-- The index of a text gives every position the place that the characters of its line give it, and
refuses exactly those that have none; every position has one of both. A place is between two
characters of the text or at one of its ends, and later positions do not stand before earlier
ones. -/
theorem offsetUtf16_resolves (t : Text) (hsize : t.size ≤ Offset.greatest) :
    (∀ p r, (ofText t).offsetUtf16 p = Failure.ofRefusal r ↔ t.Resolves p r) ∧
      (∀ p, ∃ r, t.Resolves p r) ∧
      (∀ p n, (ofText t).offsetUtf16 p = .ok n → t.isBoundary n = true) ∧
      ∀ p q m n, (p.line < q.line ∨ p.line = q.line ∧ p.character ≤ q.character) →
        (ofText t).offsetUtf16 p = .ok m → (ofText t).offsetUtf16 q = .ok n → m ≤ n := by
  refine ⟨fun p r => ⟨resolves_of_offsetUtf16 hsize, offsetUtf16_of_resolves hsize⟩,
    exists_resolves t, ?_, ?_⟩
  · intro p n hn
    exact (resolves_of_offsetUtf16 (r := .ok n) hsize hn).isBoundary
  · intro p q m n hle hm hn
    have hp := resolves_of_offsetUtf16 (r := .ok m) hsize hm
    have hq := resolves_of_offsetUtf16 (r := .ok n) hsize hn
    exact hp.mono hq hle

/-- A column past a carriage return and a newline, and one inside a character of two units. -/
theorem offsetUtf16_resolves_mixed :
    let t : Text := "aé\r\n😀\r".toList
    t.size ≤ Offset.greatest ∧ t.Resolves ⟨0, 7⟩ (.ok 3) ∧
      t.Resolves ⟨1, 1⟩ (.error (.splitSurrogatePair 1 1)) ∧ t.Resolves ⟨1, 3⟩ (.ok 10) := by
  intro t
  have hsize : t.size ≤ Offset.greatest := by decide
  obtain ⟨hiff, -⟩ := offsetUtf16_resolves t hsize
  exact ⟨hsize, (hiff _ _).mp rfl, (hiff _ _).mp rfl, (hiff _ _).mp rfl⟩

end LineIndex

end IncrementalSyntax
