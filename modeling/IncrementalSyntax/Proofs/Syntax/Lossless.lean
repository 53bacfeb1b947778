import IncrementalSyntax.Proofs.Syntax.Reparse

/-!
Trees keep their text, whatever the edits say. What is taken over from an older tree is taken over
only where its tokens stand in the new text, so the leaves of a tree are the tokens of its text
even if the edits are not those that led to it. That needs a little of the older tree: every item
has tokens, and none depends on bytes behind the end of its text (`Part.Sound`). A tree that is
made in this way is of this kind again.
-/
namespace IncrementalSyntax

theorem Token.sizeOfAll_le_of_isPrefix {ts us : List Token} (h : ts <+: us) :
    sizeOfAll ts ≤ sizeOfAll us := by
  obtain ⟨vs, rfl⟩ := h
  simp

namespace Reuse

/-- The tokens that begin within `n` bytes cover these bytes, if there are as many. -/
theorem le_sizeOfAll_within {n : Nat} {ts : List Token} (h : n ≤ Token.sizeOfAll ts) :
    n ≤ Token.sizeOfAll (within n ts) := by
  induction ts generalizing n with
  | nil => exact h
  | cons t ts ih =>
    rw [Token.sizeOfAll_cons] at h
    rw [within]
    split
    · omega
    · have := ih (n := n - t.size) (by omega)
      simp only [Token.sizeOfAll_cons]
      omega

/-- Tokens that have no more than `n` bytes begin within `n` bytes. -/
theorem isPrefix_within {n : Nat} {ts : List Token} (hpos : ∀ t ∈ ts, 0 < t.size)
    (h : Token.sizeOfAll ts ≤ n) (us : List Token) : ts <+: within n (ts ++ us) := by
  induction ts generalizing n with
  | nil => exact List.nil_prefix
  | cons t ts ih =>
    have ht := hpos t (by simp)
    rw [Token.sizeOfAll_cons] at h
    rw [List.cons_append, within, if_neg (by omega)]
    have hrest := ih (fun u hu => hpos u (by simp [hu])) (n := n - t.size) (by omega)
    exact List.cons_prefix_cons.mpr ⟨rfl, hrest⟩

end Reuse

namespace Part

/-- Every item has tokens, and the bytes that it depends on are in the text. -/
def Sound : List Part → Prop :=
  Each fun i tokens => i.tokens ≠ [] ∧ i.reach ≤ Token.sizeOfAll tokens

/-- The loop over the tokens of a text makes sound parts of what is sound to take over. -/
theorem sound_readParts {reuse : Reuse} (hcovers : reuse.Covers) (start : Nat) (ts : List Token) :
    Sound ((readParts reuse start ts).map Prod.fst) := by
  induction start, ts using readParts.induct reuse with
  | case1 start => simp [readParts, Sound, Each]
  | case2 start t ts htrivia ih => simpa [readParts, htrivia, Sound, Each] using ih
  | case3 start t ts htrivia old hold ih =>
    obtain ⟨hmem, -, hexamined⟩ := Reuse.mem_of_itemAt? hold
    obtain ⟨hne, -, hreach⟩ := hcovers old hmem
    have hall := Reuse.tokensOf_readParts hcovers start (t :: ts)
    rw [readParts, if_neg htrivia, hold] at hall ⊢
    refine ⟨⟨hne, ?_⟩, ih⟩
    have hle := Token.sizeOfAll_le_of_isPrefix hexamined
    rw [← hall] at hle
    exact Nat.le_trans hreach hle
  | case4 start t ts htrivia hold reading ih =>
    have hall := Reuse.tokensOf_readParts hcovers start (t :: ts)
    rw [readParts, if_neg htrivia, hold] at hall ⊢
    refine ⟨⟨?_, ?_⟩, ih⟩
    · rw [Reading.tokens_item]
      exact Reading.tokens_ofTokens_ne_nil t ts
    · have hle := Token.sizeOfAll_le_of_isPrefix (Reading.ofTokens t ts).seen_isPrefix
      have hread := congrArg Token.sizeOfAll (Reading.tokens_ofTokens t ts)
      simp only [List.map_cons] at hall
      rw [hall, Reading.reach_item, ← hread]
      simpa using hle

end Part

namespace SyntaxTree

/-- The leaves are the tokens of the text, and the parts are sound. -/
structure Whole (tree : SyntaxTree) : Prop where
  tokens : tree.tokens = tokenize tree.text
  sound : Part.Sound tree.parts

theorem tokens_root (tree : SyntaxTree) : tree.root.tokens = tree.tokens := by
  have hparts (ps : List Part) : Element.tokensOf (ps.map Part.element) = Part.tokensOf ps := by
    induction ps with
    | nil => simp
    | cons p ps ih => simp [ih, Part.tokens]
  rw [root, Element.tokens_node, hparts]
  rfl

variable {tree : SyntaxTree}

theorem Whole.size_pos (h : tree.Whole) : ∀ t ∈ tree.tokens, 0 < t.size := by
  rw [h.tokens]
  intro t ht
  exact Token.size_pos_of_mem_tokenize ht

theorem Whole.sizeOfAll_tokens (h : tree.Whole) :
    Token.sizeOfAll tree.tokens = tree.text.size := by
  rw [h.tokens, Token.sizeOfAll_tokenize]

theorem Whole.size_root (h : tree.Whole) : tree.root.size = tree.text.size := by
  rw [Element.size_eq, tokens_root, h.sizeOfAll_tokens]

/-- What any edits leave of a whole tree covers what it depends on. -/
theorem Whole.covers_ofEdits (h : tree.Whole) (edits : EditSet) :
    (Reuse.ofEdits tree edits).Covers := by
  intro old hmem
  obtain ⟨before, after, hparts, -, -, -, hexamined⟩ := Reuse.untouchedIn_of_mem hmem
  have hsound : Part.Sound (before ++ .item old.item :: after) := hparts ▸ h.sound
  obtain ⟨⟨hne, hreach⟩, -⟩ := hsound.of_append
  have hpos : ∀ t ∈ old.item.tokens, 0 < t.size := by
    intro t ht
    apply h.size_pos
    rw [SyntaxTree.tokens, hparts]
    simp [ht]
  have hsize : Token.sizeOfAll old.item.tokens ≤ old.item.reach := by
    rw [Item.reach, Item.size_eq]
    omega
  rw [hexamined]
  exact ⟨hne, Reuse.isPrefix_within hpos hsize _, Reuse.le_sizeOfAll_within hreach⟩

theorem whole_of_covers {reuse : Reuse} (hcovers : reuse.Covers) (text : Text) :
    Whole ⟨text, (readParts reuse 0 (tokenize text)).map Prod.fst⟩ :=
  ⟨Reuse.tokensOf_readParts hcovers 0 _, Part.sound_readParts hcovers 0 _⟩

theorem whole_parse (text : Text) : (parse text).Whole := whole_of_covers Reuse.covers_none text

/-- The step lemma: a reparse makes a whole tree of a whole tree, with any text and edits. -/
theorem Whole.reparse (h : tree.Whole) (text : Text) (edits : EditSet) :
    (reparse text tree edits).1.Whole := whole_of_covers (h.covers_ofEdits edits) text

theorem Whole.of_mem_reparseAll (h : tree.Whole) {steps : List (Text × EditSet)}
    {later : SyntaxTree} (hmem : later ∈ reparseAll tree steps) : later.Whole := by
  induction steps generalizing tree with
  | nil =>
    obtain rfl := List.mem_singleton.mp hmem
    exact h
  | cons step steps ih =>
    rcases List.mem_cons.mp hmem with rfl | hmem
    · exact h
    · exact ih (h.reparse step.1 step.2) hmem

/-- Items listed from `start` on stand at `start` or behind it. -/
theorem start_le_of_mem_lookaheadFrom {start : Nat} {ps : List Part} {entry : Lookahead}
    (h : entry ∈ lookaheadFrom start ps) : start ≤ entry.range.start := by
  induction ps generalizing start with
  | nil => simp [lookaheadFrom] at h
  | cons p ps ih =>
    cases p with
    | trivia t =>
      have := ih h
      omega
    | item i =>
      rcases List.mem_cons.mp h with rfl | h
      · exact Nat.le_refl _
      · have := ih h
        omega

theorem lookaheadFrom_inOrder (start : Nat) (ps : List Part) :
    (lookaheadFrom start ps).Pairwise fun a b => a.range.stop ≤ b.range.start := by
  induction ps generalizing start with
  | nil => exact List.Pairwise.nil
  | cons p ps ih =>
    cases p with
    | trivia t => exact ih _
    | item i => exact List.Pairwise.cons (fun _ h => start_le_of_mem_lookaheadFrom h) (ih _)

/-- What a listed item depends on goes at least to its end and at most to the end of the text. -/
theorem stop_le_of_mem_lookaheadFrom {start : Nat} {ps : List Part} {entry : Lookahead}
    (hsound : Part.Sound ps) (h : entry ∈ lookaheadFrom start ps) :
    entry.range.stop ≤ entry.stop ∧ entry.stop ≤ start + Token.sizeOfAll (Part.tokensOf ps) := by
  induction ps generalizing start with
  | nil => simp [lookaheadFrom] at h
  | cons p ps ih =>
    rw [Part.tokensOf_cons, Token.sizeOfAll_append]
    cases p with
    | trivia t =>
      have := ih hsound h
      simp only [Part.tokens_trivia, Token.sizeOfAll_cons, Token.sizeOfAll_nil, Nat.add_zero]
      omega
    | item i =>
      obtain ⟨⟨-, hreach⟩, hsound⟩ := hsound
      rcases List.mem_cons.mp h with rfl | h
      · rw [Part.tokensOf_cons, Token.sizeOfAll_append] at hreach
        simp only [TextRange.sized_stop, Item.reach] at hreach ⊢
        omega
      · have := ih hsound h
        rw [Part.tokens_item, ← Item.size_eq]
        omega

end SyntaxTree

end IncrementalSyntax
