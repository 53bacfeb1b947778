import IncrementalSyntax.Proofs.Syntax.Lossless
import IncrementalSyntax.Proofs.Text.Quotes
import Mathlib.Data.List.Nodup

/-!
Trees read back from what is written out. A line of a dump gives the depth, the kind and, for a
token, the text of an element, and says where it ends (`Row.render_append_inj`); the range between
them need not be read. A walk in which every element comes with its depth determines the elements:
the children of a node are those deeper than it, up to the first element that is not
(`eq_of_outlines`). So trees that are written out alike are alike, and have the same text
(`dump_determines_tree`).
-/
namespace IncrementalSyntax

namespace SyntaxKind

theorem nodup_names : (all.map fun k => k.name.toList).Nodup := by decide +kernel

theorem name_inj {k l : SyntaxKind} (h : k.name.toList = l.name.toList) : k = l :=
  List.inj_on_of_nodup_map nodup_names (mem_all k) (mem_all l) h

theorem name_letters (k : SyntaxKind) :
    k.name.toList ≠ [] ∧ ∀ c ∈ k.name.toList, c.isAlpha = true := by
  have hall : ∀ k ∈ all, k.name.toList ≠ [] ∧ k.name.toList.all Char.isAlpha = true := by
    decide +kernel
  exact ⟨(hall k (mem_all k)).1, List.all_eq_true.mp (hall k (mem_all k)).2⟩

/-- A name begins with a character that is no blank. -/
theorem exists_name_eq_cons (k : SyntaxKind) :
    ∃ c cs, k.name.toList = c :: cs ∧ decide (c = ' ') = false := by
  obtain ⟨hne, hletters⟩ := k.name_letters
  obtain ⟨c, cs, hname⟩ := List.exists_cons_of_ne_nil hne
  refine ⟨c, cs, hname, decide_eq_false ?_⟩
  rintro rfl
  simpa using hletters ' ' (by simp [hname])

end SyntaxKind

namespace TextRange

def isWriting (c : Char) : Bool := c.isDigit || c = '.'

theorem isWriting_of_mem_render {r : TextRange} : ∀ c ∈ r.render.toList, isWriting c = true := by
  have hdigit {n : Nat} {c : Char} (h : c ∈ Nat.toDigits 10 n) : isWriting c = true := by
    rw [isWriting, Nat.isDigit_of_mem_toDigits (by decide) (by decide) h, Bool.true_or]
  have hpoints : (toString "..").toList.all isWriting = true := by decide
  intro c hc
  have hparts : c ∈ Nat.toDigits 10 r.start ++
      ((toString "..").toList ++ Nat.toDigits 10 r.stop) := by
    simpa [render] using hc
  rcases List.mem_append.mp hparts with hc | hc
  · exact hdigit hc
  · rcases List.mem_append.mp hc with hc | hc
    · exact List.all_eq_true.mp hpoints c hc
    · exact hdigit hc

end TextRange

namespace Element

/-- What a row says about an element, without its place in the text. -/
structure Outline where
  depth : Nat
  kind : SyntaxKind
  text : Option Text

def Row.outline (r : Row) : Outline := ⟨r.depth, r.kind, r.text⟩

def Row.ending (r : Row) : Text :=
  (match r.text with
    | some t => ' ' :: Quoted.encode t
    | none => []) ++ ['\n']

theorem Row.render_eq (r : Row) :
    r.render = List.replicate (2 * r.depth) ' ' ++
      (r.kind.name.toList ++ '@' :: (r.range.render.toList ++ r.ending)) := by
  cases h : r.text <;> simp [render, ending, h]

/-- A line ends behind the text of a token in quotes, or right behind the range. -/
theorem Row.ending_append_inj {r r' : Row} {x x' : Text} (h : r.ending ++ x = r'.ending ++ x') :
    r.text = r'.text ∧ x = x' := by
  rw [ending, ending] at h
  cases ht : r.text with
  | none =>
    cases ht' : r'.text with
    | none => simpa [ht, ht'] using h
    | some t' => simp [ht, ht'] at h
  | some t =>
    cases ht' : r'.text with
    | none => simp [ht, ht'] at h
    | some t' =>
      simp only [ht, ht', List.cons_append, List.append_assoc] at h
      obtain ⟨rfl, hline⟩ := Quoted.encode_append_inj (List.cons.inj h).2
      exact ⟨rfl, (List.cons.inj hline).2⟩

/-- The end of a range is told by the blank or the newline behind it. -/
theorem Row.exists_ending_eq_cons (r : Row) (x : Text) :
    ∃ c y, r.ending ++ x = c :: y ∧ TextRange.isWriting c = false := by
  cases ht : r.text with
  | none => exact ⟨'\n', x, by simp [ending, ht], by decide⟩
  | some t => exact ⟨' ', Quoted.encode t ++ '\n' :: x, by simp [ending, ht], by decide⟩

/-- A line says what its row is, apart from the range, and where it ends. -/
theorem Row.render_append_inj {r r' : Row} {x x' : Text} (h : r.render ++ x = r'.render ++ x') :
    r.outline = r'.outline ∧ x = x' := by
  simp only [render_eq, List.append_assoc, List.cons_append] at h
  obtain ⟨c, cs, hname, hc⟩ := r.kind.exists_name_eq_cons
  obtain ⟨c', cs', hname', hc'⟩ := r'.kind.exists_name_eq_cons
  have hblank (n : Nat) : ∀ e ∈ List.replicate n ' ', decide (e = ' ') = true := by simp
  -- the blanks are counted up to the name
  have hfront := h
  rw [hname, hname', List.cons_append, List.cons_append] at hfront
  obtain ⟨hindent, -, -⟩ := Text.append_inj_of_stop (hblank _) (hblank _) hc hc' hfront
  have hdepth : r.depth = r'.depth := by
    have hlength := congrArg List.length hindent
    simp only [List.length_replicate] at hlength
    omega
  rw [hindent] at h
  -- the name ends at its sign
  obtain ⟨hkind, -, h⟩ := Text.append_inj_of_stop r.kind.name_letters.2 r'.kind.name_letters.2
    (by decide) (by decide) (List.append_cancel_left h)
  -- the range is passed over
  obtain ⟨d, y, hending, hd⟩ := r.exists_ending_eq_cons x
  obtain ⟨d', y', hending', hd'⟩ := r'.exists_ending_eq_cons x'
  rw [hending, hending'] at h
  obtain ⟨-, rfl, rfl⟩ := Text.append_inj_of_stop TextRange.isWriting_of_mem_render
    TextRange.isWriting_of_mem_render hd hd' h
  obtain ⟨htext, hrest⟩ := ending_append_inj (hending.trans hending'.symm)
  exact ⟨by simp only [outline, hdepth, SyntaxKind.name_inj hkind, htext], hrest⟩

theorem Row.render_ne_nil (r : Row) : r.render ≠ [] := by simp [render]

/-- Rows that are written out alike are the same, apart from their ranges. -/
theorem outlines_of_render {rs rs' : List Row}
    (h : rs.flatMap Row.render = rs'.flatMap Row.render) :
    rs.map Row.outline = rs'.map Row.outline := by
  induction rs generalizing rs' with
  | nil =>
    cases rs' with
    | nil => rfl
    | cons r' rs' => simp [Row.render_ne_nil] at h
  | cons r rs ih =>
    cases rs' with
    | nil => simp [Row.render_ne_nil] at h
    | cons r' rs' =>
      rw [List.flatMap_cons, List.flatMap_cons] at h
      obtain ⟨hrow, hrest⟩ := Row.render_append_inj h
      rw [List.map_cons, List.map_cons, hrow, ih hrest]

theorem exists_rows_eq_cons (e : Element) (depth start : Nat) :
    ∃ r rs, e.rows depth start = r :: rs ∧ r.depth = depth := by
  cases e with
  | token t => exact ⟨_, [], by rw [rows], rfl⟩
  | node k children => exact ⟨_, _, by rw [rows], rfl⟩

/-- The next element is no deeper than `depth`. -/
def Ends (depth : Nat) (os : List Outline) : Prop := ∀ o ∈ os.head?, o.depth ≤ depth

theorem Ends.mono {m n : Nat} {os : List Outline} (h : Ends m os) (hle : m ≤ n) : Ends n os :=
  fun o ho => Nat.le_trans (h o ho) hle

/-- What follows elements is at their depth, or ends them. -/
theorem ends_rowsOf {depth start : Nat} {es : List Element} {os : List Outline}
    (h : Ends depth os) : Ends depth ((rowsOf depth start es).map Row.outline ++ os) := by
  cases es with
  | nil => simpa [rowsOf] using h
  | cons e es =>
    obtain ⟨r, rs, hrows, hdepth⟩ := e.exists_rows_eq_cons depth start
    intro o ho
    simp only [rowsOf, hrows, List.cons_append, List.map_cons, List.head?_cons,
      Option.mem_some_iff] at ho
    rw [← ho]
    exact Nat.le_of_eq hdepth

/-- Elements do not begin where those of one level less end. -/
theorem not_ends_rowsOf {depth start : Nat} {e : Element} {es : List Element} {os : List Outline} :
    ¬ Ends depth ((rowsOf (depth + 1) start (e :: es)).map Row.outline ++ os) := by
  obtain ⟨r, rs, hrows, hdepth⟩ := e.exists_rows_eq_cons (depth + 1) start
  intro h
  have hle := h r.outline (by simp [rowsOf, hrows])
  simp only [Row.outline, hdepth] at hle
  omega

mutual

/-- The outlines of an element, followed by one that is no deeper, say what it is. -/
theorem eq_of_outlines (e e' : Element) {depth start start' : Nat} {os os' : List Outline}
    (hos : Ends depth os) (hos' : Ends depth os')
    (h : (e.rows depth start).map Row.outline ++ os =
      (e'.rows depth start').map Row.outline ++ os') : e = e' ∧ os = os' := by
  cases e with
  | token t =>
    cases e' with
    | token t' =>
      obtain ⟨kind, text⟩ := t
      obtain ⟨kind', text'⟩ := t'
      simpa [rows, Row.outline, and_assoc] using h
    | node k' children' => simp [rows, Row.outline] at h
  | node k children =>
    cases e' with
    | token t' => simp [rows, Row.outline] at h
    | node k' children' =>
      simp only [rows, List.map_cons, List.cons_append, List.cons.injEq] at h
      obtain ⟨hhead, hrest⟩ := h
      obtain ⟨rfl, hos⟩ := eq_of_outlinesOf children children' hos hos' hrest
      simp only [Row.outline, Outline.mk.injEq, SyntaxKind.node.injEq] at hhead
      exact ⟨by rw [hhead.2.1], hos⟩

/-- The outlines of consecutive elements, followed by one of a lower level, say what they are. -/
theorem eq_of_outlinesOf (es es' : List Element) {depth start start' : Nat} {os os' : List Outline}
    (hos : Ends depth os) (hos' : Ends depth os')
    (h : (rowsOf (depth + 1) start es).map Row.outline ++ os =
      (rowsOf (depth + 1) start' es').map Row.outline ++ os') : es = es' ∧ os = os' := by
  cases es with
  | nil =>
    cases es' with
    | nil => exact ⟨rfl, by simpa [rowsOf] using h⟩
    | cons e' es' =>
      rw [rowsOf, List.map_nil, List.nil_append] at h
      exact absurd (h ▸ hos) not_ends_rowsOf
  | cons e es =>
    cases es' with
    | nil =>
      rw [rowsOf.eq_1 _ start', List.map_nil, List.nil_append] at h
      exact absurd (h ▸ hos') not_ends_rowsOf
    | cons e' es' =>
      simp only [rowsOf, List.map_append, List.append_assoc] at h
      obtain ⟨rfl, hrest⟩ := eq_of_outlines e e' (ends_rowsOf (hos.mono (Nat.le_succ _)))
        (ends_rowsOf (hos'.mono (Nat.le_succ _))) h
      obtain ⟨rfl, hos⟩ := eq_of_outlinesOf es es' hos hos' hrest
      exact ⟨rfl, hos⟩

end

theorem dump_inj {e e' : Element} (h : e.dump = e'.dump) : e = e' := by
  have houtlines := outlines_of_render h
  have hends : Ends 0 [] := fun o ho => by simp at ho
  exact (eq_of_outlines e e' hends hends (by rw [houtlines])).1

end Element

/-- The leaves of a whole tree hold its text. -/
theorem SyntaxTree.Whole.text_eq {tree : SyntaxTree} (h : tree.Whole) :
    tree.text = Token.textOfAll tree.root.tokens := by
  rw [tokens_root, h.tokens, textOfAll_tokenize]

/-- Trees of full parses and of any chains of reparses, with any texts and any edits, that are
written out alike have the same nodes, with the same tokens in them, and the same text. -/
theorem dump_determines_tree {text text' : Text} {steps steps' : List (Text × EditSet)}
    {tree tree' : SyntaxTree} (hmem : tree ∈ reparseAll (parse text) steps)
    (hmem' : tree' ∈ reparseAll (parse text') steps') (h : tree.dump = tree'.dump) :
    tree.root = tree'.root ∧ tree.text = tree'.text := by
  have hroot : tree.root = tree'.root := Element.dump_inj h
  have hwhole := (SyntaxTree.whole_parse text).of_mem_reparseAll hmem
  have hwhole' := (SyntaxTree.whole_parse text').of_mem_reparseAll hmem'
  exact ⟨hroot, by rw [hwhole.text_eq, hwhole'.text_eq, hroot]⟩

/-- A reparse with edits that say nothing has changed, of a string with a quote, a backslash, a
newline behind it and a control character, in an item with an error. -/
theorem dump_determines_tree_untruthful :
    let text : Text := "let a = 1".toList
    let new : Text := "f(\"\\\"é\x01\"\n) )".toList
    let steps : List (Text × EditSet) := [(new, .empty)]
    let tree := (reparse new (parse text) .empty).1
    (tree ∈ reparseAll (parse text) steps ∧ parse new ∈ reparseAll (parse new) [] ∧
        tree.dump = (parse new).dump) ∧
      tree.root = (parse new).root ∧ tree.text = (parse new).text := by
  intro text new steps tree
  have hmem : tree ∈ reparseAll (parse text) steps := by simp [reparseAll, steps, tree]
  have hmem' : parse new ∈ reparseAll (parse new) [] := by simp [reparseAll]
  have hdump : tree.dump = (parse new).dump := by decide +kernel
  exact ⟨⟨hmem, hmem', hdump⟩, dump_determines_tree hmem hmem' hdump⟩

end IncrementalSyntax
