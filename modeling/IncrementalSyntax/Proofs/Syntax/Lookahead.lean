import IncrementalSyntax.Proofs.Syntax.Places

/-!
What a tree lists of its items. The list has one entry for each node right below the root, in the
order of a walk and with the range that the walk gives it (`ranges_lookaheadFrom`). What an item
depends on ends with the item, or with the next token that is not trivia, which is as far as a
reader looks (`stop_of_mem_lookaheadFrom`); `Text.lookFrom` finds that token by its place. A checked
parse makes the same list from the furthest end of a token that it has looked at.
-/
namespace IncrementalSyntax

/-- Where a look from a place on ends: behind the first token that begins there or later and is not
trivia, or at the end of the text if there is none. -/
def Text.lookFrom (text : Text) (place : Nat) : Nat :=
  let next := (Placed.all 0 (tokenize text)).find? fun p =>
    place ≤ p.range.start && !p.token.kind.isTrivia
  match next with
  | some p => p.range.stop
  | none => text.size

namespace Element

def Row.isNodeAt (depth : Nat) (r : Row) : Bool := r.depth = depth && !r.kind.isToken

mutual

/-- A walk meets nothing above the depth that it starts from. -/
theorem depth_le_of_mem_rows {depth start : Nat} (e : Element) {r : Row}
    (h : r ∈ e.rows depth start) : depth ≤ r.depth := by
  cases e with
  | token t =>
    rw [rows, List.mem_singleton] at h
    exact Nat.le_of_eq (congrArg Row.depth h).symm
  | node k es =>
    rw [rows, List.mem_cons] at h
    rcases h with rfl | h
    · exact Nat.le_refl _
    · exact Nat.le_of_succ_le (depth_le_of_mem_rowsOf es h)

theorem depth_le_of_mem_rowsOf {depth start : Nat} (es : List Element) {r : Row}
    (h : r ∈ rowsOf depth start es) : depth ≤ r.depth := by
  cases es with
  | nil => simp [rowsOf] at h
  | cons e es =>
    rw [rowsOf, List.mem_append] at h
    rcases h with h | h
    · exact depth_le_of_mem_rows e h
    · exact depth_le_of_mem_rowsOf es h

end

theorem filter_isNodeAt_token (depth start : Nat) (t : Token) :
    ((token t).rows depth start).filter (Row.isNodeAt depth) = [] := by
  simp [rows, Row.isNodeAt, SyntaxKind.isToken]

/-- Of the rows of a node only its own is at its depth. -/
theorem filter_isNodeAt_node (depth start : Nat) (k : NodeKind) (es : List Element) :
    ((node k es).rows depth start).filter (Row.isNodeAt depth) =
      [⟨depth, .node k, .sized start (sizeOfAll es), none⟩] := by
  have hinside : (rowsOf (depth + 1) start es).filter (Row.isNodeAt depth) = [] := by
    rw [List.filter_eq_nil_iff]
    intro r hr
    have := depth_le_of_mem_rowsOf es hr
    have hne : r.depth ≠ depth := by omega
    simp [Row.isNodeAt, hne]
  rw [rows, List.filter_cons_of_pos (by simp [Row.isNodeAt, SyntaxKind.isToken]), hinside]

end Element

/-- A reader looks at the next token or at nothing. -/
theorem Reading.peek_item (r : Reading) : r.item.peek = 0 ∨ r.item.peek = peekSize r.rest := by
  rw [item]
  split
  next => exact .inr rfl
  next => exact .inl rfl

namespace SyntaxTree

open Element (Row rowsOf)

/-- The items of consecutive parts are listed as a walk meets them. -/
theorem ranges_lookaheadFrom (start : Nat) (ps : List Part) :
    (lookaheadFrom start ps).map Lookahead.range =
      ((rowsOf 1 start (ps.map Part.element)).filter (Row.isNodeAt 1)).map Row.range := by
  induction ps generalizing start with
  | nil => simp [lookaheadFrom, rowsOf]
  | cons p ps ih =>
    rw [List.map_cons, rowsOf, List.filter_append, List.map_append, ← ih]
    cases p with
    | trivia t =>
      rw [Part.element, Element.filter_isNodeAt_token, lookaheadFrom, Element.size]
      rfl
    | item i =>
      rw [Part.element, Item.element, Element.filter_isNodeAt_node, lookaheadFrom]
      simp [Item.size, Item.element, Element.size]

/-- The list of a tree has one entry for each node right below the root. -/
theorem ranges_lookahead (tree : SyntaxTree) :
    tree.lookahead.map Lookahead.range = (tree.rows.filter (Row.isNodeAt 1)).map Row.range := by
  rw [lookahead, ranges_lookaheadFrom, rows, root, Element.rows,
    List.filter_cons_of_neg (by simp [Row.isNodeAt])]

/-- What the reader lists of an item: it ends behind some of the tokens, and depends on nothing
behind them or on what a look at the next one covers. -/
theorem stop_of_mem_lookaheadFrom {start : Nat} {ts : List Token} {a : Lookahead}
    (h : a ∈ lookaheadFrom start ((readParts .none start ts).map Prod.fst)) :
    ∃ front rest, ts = front ++ rest ∧ a.range.stop = start + Token.sizeOfAll front ∧
      (a.stop = a.range.stop ∨ a.stop = a.range.stop + peekSize rest) := by
  induction start, ts using readParts.induct .none with
  | case1 start => simp [readParts, lookaheadFrom] at h
  | case2 start t ts htrivia ih =>
    rw [readParts, if_pos htrivia, List.map_cons, lookaheadFrom] at h
    obtain ⟨front, rest, rfl, hstop, hends⟩ := ih h
    exact ⟨t :: front, rest, rfl, by rw [hstop, Token.sizeOfAll_cons, Nat.add_assoc], hends⟩
  | case3 start t ts htrivia old hold ih => simp at hold
  | case4 start t ts htrivia hold reading ih =>
    have hsplit : reading.item.tokens ++ reading.rest = t :: ts := by
      rw [Reading.tokens_item]
      exact Reading.tokens_ofTokens t ts
    rw [readParts, if_neg htrivia, hold, List.map_cons, lookaheadFrom] at h
    rcases List.mem_cons.mp h with rfl | h
    · refine ⟨reading.item.tokens, reading.rest, hsplit.symm, by simp [Item.size_eq, reading], ?_⟩
      simp only [TextRange.sized_stop, Item.reach, ← Nat.add_assoc]
      rcases (Reading.ofTokens t ts).peek_item with hpeek | hpeek
      · exact .inl (by rw [hpeek, Nat.add_zero])
      · exact .inr (by rw [hpeek])
    · obtain ⟨front, rest, hrest, hstop, hends⟩ := ih h
      refine ⟨reading.item.tokens ++ front, rest, ?_, ?_, hends⟩
      · rw [List.append_assoc, ← hrest, hsplit]
      · rw [hstop, Token.sizeOfAll_append, ← Item.size_eq, Nat.add_assoc]

end SyntaxTree

theorem Placed.find?_all {place start : Nat} (hle : place ≤ start) (ts : List Token) :
    (match (all start ts).find? fun p => place ≤ p.range.start && !p.token.kind.isTrivia with
      | some p => p.range.stop
      | none => start + Token.sizeOfAll ts) = start + peekSize ts := by
  induction ts generalizing start with
  | nil => rfl
  | cons t ts ih =>
    have hlater := ih (show place ≤ start + t.size by omega)
    cases ht : t.kind.isTrivia with
    | true =>
      rw [all, List.find?_cons_of_neg (by simp [ht]), peekSize, if_pos ht, Token.sizeOfAll_cons,
        ← Nat.add_assoc, ← Nat.add_assoc, hlater]
    | false =>
      rw [all, List.find?_cons_of_pos (by simp [ht, hle]), peekSize, if_neg (by simp [ht])]
      rfl

/-- A look from a place between two tokens covers those up to the next one that is not trivia. -/
theorem Text.lookFrom_eq {text : Text} {front rest : List Token}
    (h : tokenize text = front ++ rest) :
    text.lookFrom (Token.sizeOfAll front) = Token.sizeOfAll front + peekSize rest := by
  have hpos : ∀ t ∈ front, 0 < t.size := by
    intro t ht
    exact Token.size_pos_of_mem_tokenize (h ▸ List.mem_append_left rest ht)
  have hfront : (Placed.all 0 front).find? (fun p =>
      Token.sizeOfAll front ≤ p.range.start && !p.token.kind.isTrivia) = none := by
    rw [List.find?_eq_none]
    intro p hp
    have hlt := (Placed.bounds_of_mem_all hpos hp).1
    have hnot : ¬ Token.sizeOfAll front ≤ p.range.start := by omega
    simp [hnot]
  have hsize : text.size = Token.sizeOfAll front + Token.sizeOfAll rest := by
    rw [← Token.sizeOfAll_tokenize, h, Token.sizeOfAll_append]
  rw [lookFrom, h, Placed.all_append, List.find?_append, hfront, Option.none_or, Nat.zero_add,
    hsize]
  exact Placed.find?_all (Nat.le_refl _) rest

/-- The list of items is exact and looks one token ahead. A parse that notes the furthest token it
has looked at meets no fault and makes this list; it has one entry for each node right below the
root, in order and with the same range; and what an entry says that the item depends on ends with
the item or behind the next token that is not trivia. -/
theorem parse_lookahead_exact (text : Text) (hsize : text.size ≤ Offset.greatest) :
    (∃ result, Checked.parse text = .ok result ∧ result.root = (parse text).root ∧
      result.lookahead = (parse text).lookahead) ∧
    (parse text).lookahead.map Lookahead.range =
      ((parse text).rows.filter fun r => r.depth = 1 && !r.kind.isToken).map Element.Row.range ∧
    ∀ a ∈ (parse text).lookahead, a.stop = a.range.stop ∨ a.stop = text.lookFrom a.range.stop := by
  refine ⟨⟨_, Checked.parse_eq_ok hsize, rfl, rfl⟩, SyntaxTree.ranges_lookahead (parse text), ?_⟩
  intro a ha
  obtain ⟨front, rest, htokens, hstop, hends⟩ := SyntaxTree.stop_of_mem_lookaheadFrom ha
  rw [Nat.zero_add] at hstop
  rw [hstop, Text.lookFrom_eq htokens, ← hstop]
  exact hends

/-- Two declarations, of which the first is followed by a token that could have gone on with it and
the second by the end of the text. -/
theorem parse_lookahead_exact_pair :
    let text : Text := "let a = 1\nlet b = 2 // é".toList
    text.size ≤ Offset.greatest ∧
      (parse text).lookahead = [⟨.sized 0 9, 13⟩, ⟨.sized 10 9, 25⟩] ∧
      (∃ result, Checked.parse text = .ok result ∧ result.root = (parse text).root ∧
        result.lookahead = (parse text).lookahead) ∧
      ∀ a ∈ (parse text).lookahead,
        a.stop = a.range.stop ∨ a.stop = text.lookFrom a.range.stop := by
  intro text
  have hsize : text.size ≤ Offset.greatest := by decide
  obtain ⟨hchecked, -, hends⟩ := parse_lookahead_exact text hsize
  exact ⟨hsize, by decide +kernel, hchecked, hends⟩

end IncrementalSyntax
