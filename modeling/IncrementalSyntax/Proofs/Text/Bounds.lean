import IncrementalSyntax.Proofs.Text.Bytes
import IncrementalSyntax.Proofs.Text.Positions
import Mathlib.Data.List.TakeWhile
import Mathlib.Logic.Function.Basic

/-!
The arithmetic of the line index stays within offsets. The index of a text is given line by line in
`LineIndex.ofText`; here a scan makes it in one pass over the characters, with every sum, difference
and access to the text checked. While the scan stands behind the part `x` of a line it knows where
that line starts and which characters of `x` are wide (`Scan.Noted`), and each character keeps that
so (`Scan.run_eq_ok`). The queries check their arithmetic themselves; none of them meets a fault,
whatever position or offset they are given.
-/
namespace IncrementalSyntax

/-- The index of a text as a scan keeps it: where the lines start and where their content ends, each
in a table of its own, and the wide characters of each line by its number. -/
structure LineTables where
  starts : List Nat
  ends : List Nat
  wide : Nat → List WideChar
  size : Nat

def LineIndex.tables (index : LineIndex) : LineTables where
  starts := index.lines.map Line.start
  ends := index.lines.map Line.stop
  wide n := (index.lines[n]?.map Line.wide).getD []
  size := index.size

/-- A scan of a text: its tables so far, the number of the line that it is in, and where that line
starts. -/
structure Scan where
  starts : List Nat
  ends : List Nat
  wide : Nat → List WideChar
  line : Nat
  lineStart : Nat

namespace Scan

def begin : Scan := ⟨[0], [], fun _ => [], 0, 0⟩

def followsReturn (t : Text) (offset : Nat) : Except Fault Bool :=
  if 0 < offset then do
    let before ← Offset.sub offset 1
    match t.bytes[before]? with
    | some byte => return byte = 13
    | none => .error .missing
  else return false

def step (t : Text) (offset : Nat) (c : Char) (s : Scan) : Except Fault Scan :=
  if c = '\n' then do
    let crlf ← followsReturn t offset
    let stop ← Offset.sub offset (if crlf then 1 else 0)
    let line ← Offset.add s.line 1
    let lineStart ← Offset.add offset 1
    return ⟨s.starts ++ [lineStart], s.ends ++ [stop], s.wide, line, lineStart⟩
  else if 1 < c.utf8Size then do
    let start ← Offset.sub offset s.lineStart
    let stop ← Offset.add start c.utf8Size
    return { s with wide := Function.update s.wide s.line (s.wide s.line ++ [⟨start, stop⟩]) }
  else return s

def run (t : Text) (offset : Nat) (s : Scan) : Text → Except Fault Scan
  | [] => .ok s
  | c :: rest => do run t (offset + c.utf8Size) (← s.step t offset c) rest

end Scan

def LineTables.ofText (t : Text) : Except Fault LineTables := do
  let s ← Scan.run t 0 .begin t
  let size ← Offset.add 0 t.size
  return ⟨s.starts, s.ends ++ [size], s.wide, size⟩

theorem WideChar.ofLine_concat (col : Nat) (l : Text) (c : Char) :
    ofLine col (l ++ [c]) = ofLine col l ++
      if 1 < c.utf8Size then [⟨col + l.size, col + l.size + c.utf8Size⟩] else [] := by
  induction l generalizing col with
  | nil => by_cases hc : 1 < c.utf8Size <;> simp [ofLine, hc]
  | cons d l ih => by_cases hd : 1 < d.utf8Size <;> simp [ofLine, hd, ih, Nat.add_assoc]

namespace Scan

open Text

/-- The byte in front of a line's newline is a carriage return exactly if the line ends with one. -/
theorem followsReturn_eq {before x : Text} (rest : Text)
    (h : before = [] ∨ before.getLast? = some '\n') :
    followsReturn (before ++ x ++ rest) (before ++ x).size =
      .ok (x.getLast? = some '\r') := by
  have hlast : (before ++ x).getLast? = some '\r' ↔ x.getLast? = some '\r' := by
    rcases List.eq_nil_or_concat x with rfl | ⟨init, last, rfl⟩
    · rcases h with rfl | h <;> simp [*]
    · simp
  by_cases hpos : 0 < (before ++ x).size
  · have hat : (before ++ x).size - 1 < (before ++ x).bytes.length := by
      rw [length_bytes]
      omega
    have hbyte : (before ++ x ++ rest).bytes[(before ++ x).size - 1]? =
        (before ++ x).bytes.getLast? := by
      rw [bytes_append _ rest, List.getElem?_append_left hat, List.getLast?_eq_getElem?,
        length_bytes]
    rw [followsReturn, if_pos hpos, Offset.sub_eq_ok hpos, ok_bind, hbyte]
    split
    next byte hbyte =>
      have hiff := (getLast?_bytes_eq_iff (before ++ x)).trans hlast
      rw [hbyte, Option.some.injEq] at hiff
      simp [hiff]
    next hnone =>
      rw [List.getLast?_eq_none_iff, ← List.length_eq_zero_iff, length_bytes] at hnone
      omega
  · obtain ⟨-, rfl⟩ := List.append_eq_nil_iff.mp (size_eq_zero_iff.mp (Nat.eq_zero_of_not_pos hpos))
    rw [followsReturn, if_neg hpos]
    rfl

/-- What the scan has noted when it stands behind the part `x` of the line that follows `before`. -/
structure Noted (s : Scan) (before x : Text) : Prop where
  begins : before = [] ∨ before.getLast? = some '\n'
  not_mem : '\n' ∉ x
  lineStart : s.lineStart = before.size
  line_le : s.line ≤ before.size
  wide_line : s.wide s.line = WideChar.ofLine 0 x
  wide_later : ∀ n, s.line < n → s.wide n = []

variable {t before x : Text} {s : Scan}

/-- A newline ends the line, whose end and the start of the next one are noted. -/
theorem step_newline (h : s.Noted before x) {rest : Text} (ht : t = before ++ x ++ '\n' :: rest)
    (hsize : t.size ≤ Offset.greatest) :
    ∃ s', s.step t (before ++ x).size '\n' = .ok s' ∧ s'.Noted (before ++ x ++ ['\n']) [] ∧
      s'.starts = s.starts ++ [(before ++ x ++ ['\n']).size] ∧
      s'.ends = s.ends ++ [before.size + x.size - if x.getLast? = some '\r' then 1 else 0] ∧
      s'.line = s.line + 1 ∧ s'.wide = s.wide := by
  have hnewline : Char.utf8Size '\n' = 1 := rfl
  have hnext : (before ++ x ++ ['\n']).size = before.size + x.size + 1 := by
    simp only [size_append, size_cons, size_nil, hnewline]
  have hle : before.size + x.size + 1 ≤ Offset.greatest := by
    simp only [ht, size_append, size_cons, hnewline] at hsize
    omega
  have hline : s.line + 1 ≤ before.size + x.size + 1 := by
    have := h.line_le
    omega
  have hline' : s.line + 1 ≤ Offset.greatest := by omega
  have hcr : (if x.getLast? = some '\r' then 1 else 0) ≤ before.size + x.size := by
    split
    next hlast =>
      obtain ⟨init, rfl⟩ := List.getLast?_eq_some_iff.mp hlast
      have := Char.utf8Size_pos '\r'
      simp only [size_append, size_cons]
      omega
    next => exact Nat.zero_le _
  have hreturn := followsReturn_eq (x := x) ('\n' :: rest) h.begins
  rw [← ht] at hreturn
  refine ⟨⟨_, _, s.wide, s.line + 1, before.size + x.size + 1⟩, ?_, ⟨.inr (by simp), by simp,
    hnext.symm, hnext ▸ hline, h.wide_later _ (Nat.lt_succ_self _),
    fun n hn => h.wide_later n (Nat.lt_of_succ_lt hn)⟩, rfl, rfl, rfl, rfl⟩
  rw [step, if_pos rfl, hreturn, ok_bind, size_append before x, hnext]
  simp only [decide_eq_true_eq, Offset.sub_eq_ok hcr, Offset.add_eq_ok hline',
    Offset.add_eq_ok hle, ok_bind, pure_eq_ok]

/-- Any other character is noted if it is wide. -/
theorem step_character (h : s.Noted before x) {c : Char} (hc : c ≠ '\n') {rest : Text}
    (ht : t = before ++ x ++ c :: rest) (hsize : t.size ≤ Offset.greatest) :
    ∃ wide, s.step t (before ++ x).size c = .ok { s with wide } ∧
      Noted { s with wide } before (x ++ [c]) ∧ ∀ n, n < s.line → wide n = s.wide n := by
  have hle : x.size + c.utf8Size ≤ Offset.greatest := by
    rw [ht, size_append, size_append, size_cons] at hsize
    omega
  have hstart : Offset.sub (before ++ x).size s.lineStart = .ok x.size := by
    rw [h.lineStart]
    exact Offset.sub_eq_of_add (by rw [size_append, Nat.add_comm])
  have hline := WideChar.ofLine_concat 0 x c
  rw [Nat.zero_add] at hline
  have hnot : '\n' ∉ x ++ [c] := by simp [h.not_mem, hc.symm]
  rw [step, if_neg hc]
  by_cases hwide : 1 < c.utf8Size
  · rw [if_pos hwide] at hline ⊢
    refine ⟨Function.update s.wide s.line (s.wide s.line ++ [⟨x.size, x.size + c.utf8Size⟩]), ?_,
      ⟨h.begins, hnot, h.lineStart, h.line_le, ?_, ?_⟩, ?_⟩
    · simp only [hstart, Offset.add_eq_ok hle, ok_bind, pure_eq_ok]
    · rw [hline, ← h.wide_line]
      exact Function.update_self _ _ _
    · intro n hn
      rw [← h.wide_later n hn]
      exact Function.update_of_ne (Nat.ne_of_gt hn) _ _
    · intro n hn
      exact Function.update_of_ne (Nat.ne_of_lt hn) _ _
  · rw [if_neg hwide, List.append_nil] at hline
    rw [if_neg hwide]
    exact ⟨s.wide, rfl, ⟨h.begins, hnot, h.lineStart, h.line_le, h.wide_line.trans hline.symm,
      h.wide_later⟩, fun _ _ => rfl⟩

/-- The run lemma: no check fails on the way to the end of the text, and the lines that the scan
passes are noted as `LineIndex.entries` lists them. -/
theorem run_eq_ok (hsize : t.size ≤ Offset.greatest) {rest : Text} (h : s.Noted before x)
    (ht : t = before ++ x ++ rest) {starts : List Nat}
    (hstarts : s.starts = starts ++ [before.size]) :
    ∃ s', run t (before ++ x).size s rest = .ok s' ∧
      s'.starts = starts ++ (LineIndex.entries before.size (lines (x ++ rest))).map Line.start ∧
      s'.ends ++ [t.size] =
        s.ends ++ (LineIndex.entries before.size (lines (x ++ rest))).map Line.stop ∧
      ∀ n, s'.wide n = if n < s.line then s.wide n else
        ((LineIndex.entries before.size (lines (x ++ rest)))[n - s.line]?.map Line.wide).getD
          [] := by
  induction rest generalizing before x s starts with
  | nil =>
    refine ⟨s, rfl, ?_⟩
    rw [List.append_nil, lines_of_not_mem h.not_mem]
    refine ⟨hstarts, by simp [ht, LineIndex.entries], fun n => ?_⟩
    split
    next => rfl
    next hn =>
      rcases Nat.lt_or_eq_of_le (Nat.not_lt.mp hn) with hlt | rfl
      · have hout : ¬ n - s.line < 1 := by omega
        simp [h.wide_later n hlt, LineIndex.entries, hout]
      · simp [h.wide_line, LineIndex.entries]
  | cons c rest ih =>
    rw [run]
    by_cases hc : c = '\n'
    · subst hc
      have hnext : (before ++ x ++ ['\n']).size = before.size + x.size + 1 := by
        simp only [size_append, size_cons, size_nil]
        rfl
      obtain ⟨s₁, hstep, hnoted, hstarts₁, hends₁, hline₁, hwide₁⟩ := step_newline h ht hsize
      obtain ⟨s', hrun, hstarts', hends', hwide'⟩ := ih hnoted (by simp [ht]) hstarts₁
      rw [List.append_nil, size_append _ ['\n']] at hrun
      rw [List.nil_append, hnext] at hstarts' hends' hwide'
      rw [lines_append h.not_mem, LineIndex.entries_cons _ _ (lines_ne_nil rest)]
      refine ⟨s', by rw [hstep]; exact hrun, ?_, ?_, fun n => ?_⟩
      · simp [hstarts', hstarts]
      · simp [hends', hends₁]
      · rw [hwide', hline₁, hwide₁]
        rcases Nat.lt_trichotomy n s.line with hlt | rfl | hgt
        · simp [hlt, Nat.lt_succ_of_lt hlt]
        · simp [h.wide_line]
        · have hpred : n - s.line = n - (s.line + 1) + 1 := by omega
          rw [if_neg (by omega), if_neg (by omega), hpred, List.getElem?_cons_succ]
    · obtain ⟨wide, hstep, hnoted, hbefore⟩ := step_character h hc ht hsize
      obtain ⟨s', hrun, hstarts', hends', hwide'⟩ := ih hnoted (by simp [ht]) hstarts
      rw [← List.append_assoc, size_append _ [c]] at hrun
      rw [List.append_assoc, List.singleton_append] at hstarts' hends' hwide'
      refine ⟨s', by rw [hstep]; exact hrun, hstarts', hends', fun n => ?_⟩
      rw [hwide']
      split
      next hn => exact hbefore n hn
      next => rfl

end Scan

namespace LineTables

theorem ofText_eq_ok {t : Text} (hsize : t.size ≤ Offset.greatest) :
    ofText t = .ok (LineIndex.ofText t).tables := by
  have hbegin : Scan.begin.Noted [] [] :=
    ⟨.inl rfl, by simp, rfl, Nat.le_refl _, rfl, fun _ _ => rfl⟩
  have hstart : Scan.begin.starts = [] ++ [0] := rfl
  obtain ⟨s, hrun, hstarts, hends, hwide⟩ := Scan.run_eq_ok hsize hbegin rfl hstart
  have hzero : 0 + t.size ≤ Offset.greatest := by omega
  have hwide' : s.wide = (LineIndex.ofText t).tables.wide := by
    funext n
    simpa [Scan.begin, LineIndex.tables, LineIndex.ofText] using hwide n
  rw [List.append_nil, Text.size_nil] at hrun
  rw [ofText, hrun, ok_bind, Offset.add_eq_ok hzero, ok_bind, Nat.zero_add, hstarts, hends, hwide']
  rfl

end LineTables

namespace LineIndex

open Text

/-- Every offset is on a line that starts there or before, also if it is behind the text. -/
theorem exists_line_lineAt (t : Text) (o : Nat) :
    ∃ n start content, (ofText t).lineAt o = n ∧ t.LineAt n start content ∧ start ≤ o := by
  obtain ⟨start, content, hfirst⟩ := exists_lineAt (Nat.zero_le (t.count '\n'))
  have hzero : start ≤ 0 := (hfirst.start_le_iff (a := [])).mpr (Nat.zero_le _)
  have hhead := lines_getElem? hfirst
  let leading := (ofText t).lines.takeWhile fun l => l.start ≤ o
  have hpos : 0 < leading.length := by
    cases hlines : (ofText t).lines with
    | nil => simp [hlines] at hhead
    | cons l ls =>
      obtain rfl : l = _ := by simpa [hlines] using hhead
      have hle : start ≤ o := by omega
      simp [leading, hlines, hle]
  -- the line is the last of those that start at the offset or before
  obtain ⟨rest, hrest⟩ : leading <+: (ofText t).lines := List.takeWhile_prefix _
  have hbound : leading.length - 1 < leading.length := by omega
  have hmem : leading[leading.length - 1] ∈ leading := List.getElem_mem hbound
  have hle := List.mem_takeWhile_imp hmem
  have hcount := lineCount_ofText t
  rw [lineCount, ← hrest, List.length_append] at hcount
  obtain ⟨start', content', hline⟩ := exists_lineAt (t := t) (n := leading.length - 1) (by omega)
  have hentry := lines_getElem? hline
  rw [← hrest, List.getElem?_append_left hbound, List.getElem?_eq_getElem hbound,
    Option.some.injEq] at hentry
  rw [hentry] at hle
  exact ⟨_, start', content', rfl, hline, by simpa using hle⟩

/-- The column in units is found whatever the column in bytes: the wide characters taken off end
before it, one behind the other. -/
theorem exists_unitColumn (l : Text) {k col character : Nat} (h : col ≤ character + k) :
    ∃ n, unitColumn col character (WideChar.ofLine k l) = .ok n ∧ n ≤ character := by
  induction l generalizing k character with
  | nil => exact ⟨character, rfl, Nat.le_refl _⟩
  | cons c l ih =>
    by_cases hc : 1 < c.utf8Size
    · rw [WideChar.ofLine_cons_wide hc, unitColumn]
      split
      next hbefore =>
        have hbefore : k + c.utf8Size ≤ col := hbefore
        have hextra := Offset.sub_eq_ok (unitsOf_le c)
        have hle : c.utf8Size - unitsOf c ≤ character := by omega
        have hcol : col ≤ character - (c.utf8Size - unitsOf c) + (k + c.utf8Size) := by omega
        obtain ⟨n, hn, hless⟩ := ih hcol
        refine ⟨n, ?_, by omega⟩
        simp only [WideChar.size_of_char, WideChar.units_of_char, ok_bind, hextra,
          Offset.sub_eq_ok hle, hn]
      next => exact ⟨character, rfl, Nat.le_refl _⟩
    · rw [WideChar.ofLine_cons_narrow hc]
      exact ih (by omega)

/-- Line and column of any offset are found, in bytes and in units. -/
theorem exists_lineCol_positionUtf16 (t : Text) (o : Nat) :
    ∃ n col character, (ofText t).lineCol o = .ok ⟨n, col⟩ ∧
      (ofText t).positionUtf16 o = .ok ⟨n, character⟩ ∧ n ≤ t.count '\n' ∧ col ≤ o ∧
      character ≤ col := by
  obtain ⟨n, start, content, hn, hline, hle⟩ := exists_line_lineAt t o
  have hentry : (ofText t).line n =
      .ok ⟨start, start + content.size, WideChar.ofLine 0 content⟩ := by
    rw [line, lines_getElem? hline]
  have hcol : (ofText t).lineCol o = .ok ⟨n, o - start⟩ := by
    rw [lineCol, hn, hentry, ok_bind]
    simp only [Offset.sub_eq_ok hle, ok_bind, pure_eq_ok]
  have hbehind : o - start ≤ o - start + 0 := Nat.le_refl _
  obtain ⟨character, hunits, hless⟩ := exists_unitColumn content hbehind
  refine ⟨n, o - start, character, hcol, ?_, hline.le_count, Nat.sub_le _ _, hless⟩
  rw [positionUtf16, hcol, ok_bind, hentry, ok_bind, hunits]
  rfl

/-- Nothing that the index of a text computes leaves the range of offsets or reaches outside its
tables: not the scan that makes it, which has one start and one end for each line, not a query for
a position, which finds a place in the text or refuses, and not a query for an offset, which may lie
behind the text or inside a character. -/
theorem arithmetic_never_faults (t : Text) (hsize : t.size ≤ Offset.greatest) :
    LineTables.ofText t = .ok (ofText t).tables ∧
      (∀ p : Position, ∃ r, (ofText t).offsetUtf16 p = Failure.ofRefusal r ∧
        ∀ o, r = .ok o → o ≤ t.size) ∧
      ∀ o, ∃ n col character, (ofText t).lineCol o = .ok ⟨n, col⟩ ∧
        (ofText t).positionUtf16 o = .ok ⟨n, character⟩ ∧ n ≤ t.count '\n' ∧ col ≤ o ∧
        character ≤ col := by
  refine ⟨LineTables.ofText_eq_ok hsize, ?_, exists_lineCol_positionUtf16 t⟩
  intro p
  obtain ⟨r, hr⟩ := exists_resolves t p
  refine ⟨r, offsetUtf16_of_resolves hsize hr, ?_⟩
  rintro o rfl
  obtain ⟨a, b, rfl, rfl⟩ := isBoundary_iff.mp hr.isBoundary
  rw [size_append]
  exact Nat.le_add_right _ _

/-- The greatest column there is, an offset inside a character and one behind the text. -/
theorem arithmetic_never_faults_far :
    let t : Text := "aé\r\n😀é".toList
    t.size ≤ Offset.greatest ∧
      (∃ tables, LineTables.ofText t = .ok tables ∧ tables.starts = [0, 5] ∧
        tables.ends = [3, 11] ∧ tables.wide 1 = [⟨0, 4⟩, ⟨4, 6⟩]) ∧
      (∃ r, (ofText t).offsetUtf16 ⟨1, 4294967295⟩ = Failure.ofRefusal r) ∧
      (∃ p, (ofText t).positionUtf16 7 = .ok p) ∧
      ∃ p, (ofText t).positionUtf16 4294967295 = .ok p := by
  intro t
  have hsize : t.size ≤ Offset.greatest := by decide
  obtain ⟨htables, hposition, hoffset⟩ := arithmetic_never_faults t hsize
  obtain ⟨r, hr, -⟩ := hposition ⟨1, 4294967295⟩
  obtain ⟨n, -, character, -, hinside, -⟩ := hoffset 7
  obtain ⟨n', -, character', -, hbehind, -⟩ := hoffset 4294967295
  exact ⟨hsize, ⟨_, htables, by decide, by decide, by decide⟩, ⟨r, hr⟩, ⟨_, hinside⟩, ⟨_, hbehind⟩⟩

end LineIndex

end IncrementalSyntax
