import IncrementalSyntax.Proofs.Syntax.Checked
import IncrementalSyntax.Proofs.Syntax.Resynchronisation

/-!
Where the elements of a tree stand. A walk through the tree meets its leaves in the places that
consecutive tokens have (`leaves_rows`), so every token has its row (`row_of_token`). It meets each
item as a child of the root (`row_of_item`), and the tree lists the item with the bytes that it
depends on (`lookahead_of_item`). What stands at a place is the text of its tokens
(`Whole.slice_tokens`).
-/
namespace IncrementalSyntax

theorem Token.textOfAll_cons (t : Token) (ts : List Token) :
    textOfAll (t :: ts) = t.text ++ textOfAll ts := rfl

namespace Placed

def moved (n : Nat) (p : Placed) : Placed := ⟨p.token, .sized (n + p.range.start) p.range.size⟩

theorem map_moved_all (n start : Nat) (ts : List Token) :
    (all start ts).map (moved n) = all (n + start) ts := by
  induction ts generalizing start with
  | nil => rfl
  | cons t ts ih =>
    rw [all, List.map_cons, ih, all]
    simp [moved, TextRange.size, Nat.add_assoc]

/-- The tokens in front of a placed token say where it stands. -/
theorem of_all_eq_append {start : Nat} {ts : List Token} {front back : List Placed} {p : Placed}
    (h : all start ts = front ++ p :: back) :
    ∃ us vs, ts = us ++ p.token :: vs ∧ front = all start us ∧
      p.range = .sized (start + Token.sizeOfAll us) p.token.size ∧
      back = all (start + Token.sizeOfAll us + p.token.size) vs := by
  induction front generalizing start ts with
  | nil =>
    cases ts with
    | nil => simp [all] at h
    | cons t ts =>
      obtain ⟨rfl, rfl⟩ := List.cons.inj h
      exact ⟨[], ts, rfl, rfl, rfl, rfl⟩
  | cons q front ih =>
    cases ts with
    | nil => simp [all] at h
    | cons t ts =>
      obtain ⟨rfl, hrest⟩ := List.cons.inj h
      obtain ⟨us, vs, rfl, rfl, hrange, rfl⟩ := ih hrest
      rw [Nat.add_assoc start] at hrange
      exact ⟨t :: us, vs, rfl, rfl, hrange, by rw [Nat.add_assoc start]; rfl⟩

end Placed

namespace Element

def Row.leaf? (r : Row) : Option Placed :=
  match r.kind, r.text with
  | .token k, some text => some ⟨⟨k, text⟩, r.range⟩
  | _, _ => none

theorem Row.eq_of_leaf? {r : Row} {t : Token} {range : TextRange} (h : r.leaf? = some ⟨t, range⟩) :
    r = ⟨r.depth, .token t.kind, range, some t.text⟩ := by
  obtain ⟨depth, kind, range', text⟩ := r
  rw [leaf?] at h
  split at h
  next k text hkind htext =>
    cases h
    cases hkind
    cases htext
    rfl
  next => simp at h

mutual

/-- The leaves that a walk meets are the tokens of the element, in their places. -/
theorem leaves_rows (depth start : Nat) (e : Element) :
    (e.rows depth start).filterMap Row.leaf? = Placed.all start e.tokens := by
  cases e with
  | token t => simp [rows, Row.leaf?, Placed.all]
  | node k children =>
    rw [rows, List.filterMap_cons_none rfl, leaves_rowsOf (depth + 1) start children, tokens_node]

theorem leaves_rowsOf (depth start : Nat) (es : List Element) :
    (rowsOf depth start es).filterMap Row.leaf? = Placed.all start (tokensOf es) := by
  cases es with
  | nil => simp [rowsOf, Placed.all]
  | cons e es =>
    rw [rowsOf, List.filterMap_append, leaves_rows depth start e, leaves_rowsOf depth _ es,
      tokensOf_cons, Placed.all_append, size_eq]

end

theorem rowsOf_append (depth start : Nat) (es fs : List Element) :
    rowsOf depth start (es ++ fs) =
      rowsOf depth start es ++ rowsOf depth (start + sizeOfAll es) fs := by
  induction es generalizing start with
  | nil => simp [rowsOf, sizeOfAll]
  | cons e es ih => simp [rowsOf, sizeOfAll, ih, Nat.add_assoc]

end Element

namespace SyntaxTree

variable {tree : SyntaxTree}

/-- The text of consecutive tokens is found by the sizes of those before them and their own. -/
theorem Whole.slice_tokens (hwhole : tree.Whole) {us ts vs : List Token}
    (h : tree.tokens = us ++ ts ++ vs) :
    tree.text.slice (Token.sizeOfAll us) (Token.sizeOfAll us + Token.sizeOfAll ts) =
      .ok (Token.textOfAll ts) := by
  have htext : tree.text = Token.textOfAll us ++ Token.textOfAll ts ++ Token.textOfAll vs := by
    rw [← Token.textOfAll_append, ← Token.textOfAll_append, ← h, hwhole.tokens, textOfAll_tokenize]
  refine Text.slice_eq_ok_iff.mpr ⟨_, _, htext, Token.size_textOfAll us, ?_⟩
  rw [Token.size_textOfAll]

theorem row_of_token {us vs : List Token} {t : Token} (h : tree.tokens = us ++ t :: vs) :
    ∃ depth, ⟨depth, .token t.kind, .sized (Token.sizeOfAll us) t.size, some t.text⟩ ∈
      tree.rows := by
  have hmem : ⟨t, .sized (0 + Token.sizeOfAll us) t.size⟩ ∈ Placed.all 0 tree.root.tokens := by
    rw [tokens_root, h, Placed.all_append, Placed.all]
    exact List.mem_append_right _ List.mem_cons_self
  rw [← Element.leaves_rows 0 0 tree.root, Nat.zero_add] at hmem
  obtain ⟨row, hrow, hleaf⟩ := List.mem_filterMap.mp hmem
  exact ⟨row.depth, Element.Row.eq_of_leaf? hleaf ▸ hrow⟩

theorem tokens_of_item {before after : List Part} {i : Item}
    (h : tree.parts = before ++ .item i :: after) :
    tree.tokens = Part.tokensOf before ++ i.tokens ++ Part.tokensOf after := by
  simp [tokens, h]

theorem row_of_item {before after : List Part} {i : Item}
    (h : tree.parts = before ++ .item i :: after) :
    ⟨1, .node i.kind, .sized (Token.sizeOfAll (Part.tokensOf before)) i.size, none⟩ ∈
      tree.rows := by
  have hsize : Element.sizeOfAll (before.map Part.element) =
      Token.sizeOfAll (Part.tokensOf before) := by
    have htokens : Element.tokensOf (before.map Part.element) = Part.tokensOf before := by
      simpa [root, tokens] using tokens_root ⟨tree.text, before⟩
    rw [Element.sizeOfAll_eq, htokens]
  rw [rows, root, h, List.map_append, List.map_cons, Element.rows, Element.rowsOf_append, hsize,
    Element.rowsOf]
  refine List.mem_cons_of_mem _ (List.mem_append_right _ (List.mem_append_left _ ?_))
  simp [Part.element, Item.element, Element.rows, Item.size, Element.size]

theorem lookaheadFrom_append (start : Nat) (ps qs : List Part) :
    lookaheadFrom start (ps ++ qs) = lookaheadFrom start ps ++
      lookaheadFrom (start + Token.sizeOfAll (Part.tokensOf ps)) qs := by
  induction ps generalizing start with
  | nil => rfl
  | cons p ps ih =>
    cases p with
    | trivia t => simp [lookaheadFrom, ih, Nat.add_assoc]
    | item i => simp [lookaheadFrom, ih, Nat.add_assoc, Item.size_eq]

theorem lookahead_of_item {before after : List Part} {i : Item}
    (h : tree.parts = before ++ .item i :: after) :
    ⟨.sized (Token.sizeOfAll (Part.tokensOf before)) i.size,
      Token.sizeOfAll (Part.tokensOf before) + i.reach⟩ ∈ tree.lookahead := by
  rw [lookahead, h, lookaheadFrom_append, Nat.zero_add, lookaheadFrom]
  exact List.mem_append_right _ List.mem_cons_self

end SyntaxTree

end IncrementalSyntax
