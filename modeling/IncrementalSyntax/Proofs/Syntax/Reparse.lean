import IncrementalSyntax.Proofs.Edit.Rewriting
import IncrementalSyntax.Proofs.Syntax.Reading

/-!
Reparse against full parse. Both are one loop over the tokens of the text, and the loop with
something to take over makes the same parts as the loop with nothing to take over if every item
that may be taken over is the one that would be read there (`Reuse.Agrees`). That holds for what
edits leave of the tree of the text before them: the tokens that the item was read from stand there
again, and if its reading saw the end of the text then no edit reaches that far, so the new text
ends there as well (`Reuse.agrees_ofEdits`).
-/
namespace IncrementalSyntax

namespace Part

@[simp] theorem tokensOf_nil : tokensOf [] = [] := rfl

@[simp] theorem tokensOf_cons (p : Part) (ps : List Part) :
    tokensOf (p :: ps) = p.tokens ++ tokensOf ps := rfl

@[simp] theorem tokensOf_append (ps qs : List Part) :
    tokensOf (ps ++ qs) = tokensOf ps ++ tokensOf qs := by simp [tokensOf]

@[simp] theorem tokens_trivia (t : Token) : (trivia t).tokens = [t] := by simp [tokens, element]

@[simp] theorem tokens_item (i : Item) : (item i).tokens = i.tokens := rfl

end Part

theorem Item.size_eq (i : Item) : i.size = Token.sizeOfAll i.tokens := Element.size_eq i.element

theorem Reading.tokens_item (r : Reading) : r.item.tokens = r.tokens := by
  simp [Item.tokens, Item.element, Reading.item, Reading.tokens]

namespace Reuse

/-- A whole number of tokens begins within exactly their bytes. -/
theorem within_sizeOfAll {ts : List Token} (hpos : ∀ t ∈ ts, 0 < t.size) (us : List Token) :
    within (Token.sizeOfAll ts) (ts ++ us) = ts := by
  induction ts with
  | nil => cases us <;> simp [within]
  | cons t ts ih =>
    have ht := hpos t (by simp)
    have hne : Token.sizeOfAll (t :: ts) ≠ 0 := by
      rw [Token.sizeOfAll_cons]
      omega
    rw [List.cons_append, within, if_neg hne]
    simp [ih fun u hu => hpos u (by simp [hu])]

@[simp] theorem itemAt?_none (start : Nat) (ts : List Token) :
    Reuse.none.itemAt? start ts = Option.none := rfl

/-- An item may be taken over at a place only if it is listed for the place and the tokens that
its reading looked at stand there. -/
theorem mem_of_itemAt? {reuse : Reuse} {start : Nat} {ts : List Token} {old : OldItem}
    (h : reuse.itemAt? start ts = some old) :
    old ∈ reuse.items ∧ old.newStart = start ∧ old.examined <+: ts := by
  rw [itemAt?] at h
  split at h
  next found hfind =>
    split at h
    next hbegins =>
      obtain rfl := Option.some.inj h
      have hplace := List.find?_some hfind
      exact ⟨List.mem_of_find?_eq_some hfind, by simpa using hplace,
        List.isPrefixOf_iff_prefix.mp hbegins⟩
    next => simp at h
  next => simp at h

/-- The old item is one of the parts `ps`, which begin at `start`; no edit touches the bytes that
it depends on, and it is listed where the edits have moved it, with the tokens in these bytes. -/
def UntouchedIn (edits : EditSet) (start : Nat) (ps : List Part) (old : OldItem) : Prop :=
  ∃ before after, ps = before ++ .item old.item :: after ∧
    old.oldStart = start + Token.sizeOfAll (Part.tokensOf before) ∧
    edits.touches (.sized old.oldStart old.item.reach) = false ∧
    edits.mapOffset old.oldStart = some old.newStart ∧
    old.examined = within old.item.reach (Part.tokensOf (.item old.item :: after))

theorem UntouchedIn.cons {edits : EditSet} {start n : Nat} {p : Part} {ps : List Part}
    {old : OldItem} (hn : n = Token.sizeOfAll p.tokens)
    (h : UntouchedIn edits (start + n) ps old) : UntouchedIn edits start (p :: ps) old := by
  obtain ⟨before, after, rfl, hold, hrest⟩ := h
  refine ⟨p :: before, after, rfl, ?_, hrest⟩
  rw [hold, Part.tokensOf_cons, Token.sizeOfAll_append]
  omega

theorem untouchedIn_of_mem {edits : EditSet} {start : Nat} {ps : List Part} {old : OldItem}
    (h : old ∈ untouchedItems edits start ps) : UntouchedIn edits start ps old := by
  induction ps generalizing start with
  | nil => simp [untouchedItems] at h
  | cons p ps ih =>
    cases p with
    | trivia t => exact (ih h).cons (by simp)
    | item i =>
      rw [untouchedItems] at h
      split at h
      next => exact (ih h).cons i.size_eq
      next htouch =>
        split at h
        next moved hmoved =>
          rcases List.mem_cons.mp h with rfl | h
          · exact ⟨[], ps, rfl, rfl, by simpa using htouch, hmoved, rfl⟩
          · exact (ih h).cons i.size_eq
        next => exact (ih h).cons i.size_eq

/-- Every item that may be taken over has tokens, and those that must stand again where it is taken
over begin with them and cover all bytes that it depends on. -/
def Covers (reuse : Reuse) : Prop :=
  ∀ old ∈ reuse.items, old.item.tokens ≠ [] ∧ old.item.tokens <+: old.examined ∧
    old.item.reach ≤ Token.sizeOfAll old.examined

theorem covers_none : Covers .none := by simp [Covers, Reuse.none]

/-- The tokens skipped for an item that is taken over are those of the item. -/
theorem tokens_append_drop {reuse : Reuse} (hcovers : reuse.Covers) {start : Nat} {t : Token}
    {ts : List Token} {old : OldItem} (h : reuse.itemAt? start (t :: ts) = some old) :
    old.item.tokens ++ ts.drop (old.item.tokens.length - 1) = t :: ts := by
  obtain ⟨hmem, -, hexamined⟩ := mem_of_itemAt? h
  obtain ⟨hne, hbegins, -⟩ := hcovers old hmem
  obtain ⟨us, hus⟩ := hbegins.trans hexamined
  obtain ⟨u, tokens, htokens⟩ := List.exists_cons_of_ne_nil hne
  rw [htokens, List.cons_append] at hus
  obtain ⟨rfl, rfl⟩ := List.cons.inj hus
  simp [htokens]

/-- The loop over the tokens of a text puts each of them into the tree, in order. -/
theorem tokensOf_readParts {reuse : Reuse} (hcovers : reuse.Covers) (start : Nat)
    (ts : List Token) : Part.tokensOf ((readParts reuse start ts).map Prod.fst) = ts := by
  induction start, ts using readParts.induct reuse with
  | case1 start => simp [readParts]
  | case2 start t ts htrivia ih => simp [readParts, htrivia, ih]
  | case3 start t ts htrivia old hold ih =>
    rw [readParts, if_neg htrivia, hold]
    simp [ih, tokens_append_drop hcovers hold]
  | case4 start t ts htrivia hold reading ih =>
    rw [readParts, if_neg htrivia, hold]
    simp only [List.map_cons, Part.tokensOf_cons, Part.tokens_item, Reading.tokens_item]
    rw [ih, Reading.tokens_ofTokens]

/-- An item is taken over, among tokens that reach up to `stop`, only where reading it gives the
same item and leaves the same tokens. -/
def Agrees (reuse : Reuse) (stop : Nat) : Prop :=
  ∀ start t ts old, start + Token.sizeOfAll (t :: ts) = stop → (∀ u ∈ t :: ts, 0 < u.size) →
    reuse.itemAt? start (t :: ts) = some old →
      (Reading.ofTokens t ts).item = old.item ∧
        (Reading.ofTokens t ts).rest = ts.drop (old.item.tokens.length - 1)

/-- Taking over items that agree with their reading makes the parts of a full parse. -/
theorem map_fst_readParts {reuse : Reuse} {stop : Nat} (hagrees : reuse.Agrees stop) (start : Nat)
    (ts : List Token) (hstop : start + Token.sizeOfAll ts = stop) (hpos : ∀ t ∈ ts, 0 < t.size) :
    (readParts reuse start ts).map Prod.fst = (readParts .none start ts).map Prod.fst := by
  induction start, ts using readParts.induct reuse with
  | case1 start => simp [readParts]
  | case2 start t ts htrivia ih =>
    rw [Token.sizeOfAll_cons, ← Nat.add_assoc] at hstop
    have hrest := ih hstop fun u hu => hpos u (by simp [hu])
    simp [readParts, htrivia, hrest]
  | case3 start t ts htrivia old hold ih =>
    obtain ⟨hitem, hleft⟩ := hagrees start t ts old hstop hpos hold
    have hafter := Reading.add_size_rest hstop
    have hpos' := Reading.size_pos_rest hpos
    rw [hitem, hleft] at hafter
    rw [hleft] at hpos'
    rw [readParts, if_neg htrivia, hold, readParts, if_neg htrivia, itemAt?_none]
    simp [ih hafter hpos', hitem, hleft]
  | case4 start t ts htrivia hold reading ih =>
    have hrest := ih (Reading.add_size_rest hstop) (Reading.size_pos_rest hpos)
    rw [readParts, if_neg htrivia, hold, readParts, if_neg htrivia, itemAt?_none]
    simpa [reading] using hrest

end Reuse

namespace Part

def Each (P : Item → List Token → Prop) : List Part → Prop
  | [] => True
  | .trivia _ :: ps => Each P ps
  | .item i :: ps => P i (tokensOf (.item i :: ps)) ∧ Each P ps

theorem Each.of_append {P : Item → List Token → Prop} {ps qs : List Part}
    (h : Each P (ps ++ qs)) : Each P qs := by
  induction ps with
  | nil => exact h
  | cons p ps ih =>
    cases p with
    | trivia t => exact ih h
    | item i => exact ih h.2

/-- Every item is what reading the tokens from it on gives. -/
def Exact : List Part → Prop :=
  Each fun i tokens => ∃ t ts, tokens = t :: ts ∧ (Reading.ofTokens t ts).item = i

theorem exact_readParts_none (start : Nat) (ts : List Token) :
    Exact ((readParts .none start ts).map Prod.fst) := by
  induction start, ts using readParts.induct .none with
  | case1 start => simp [readParts, Exact, Each]
  | case2 start t ts htrivia ih => simpa [readParts, htrivia, Exact, Each] using ih
  | case3 start t ts htrivia old hold ih => simp at hold
  | case4 start t ts htrivia hold reading ih =>
    rw [readParts, if_neg htrivia, hold]
    refine ⟨⟨t, ts, ?_, rfl⟩, ih⟩
    rw [tokensOf_cons, tokens_item, Reading.tokens_item, Reuse.tokensOf_readParts Reuse.covers_none]
    exact Reading.tokens_ofTokens t ts

end Part

theorem SyntaxTree.tokens_parse (text : Text) : (parse text).tokens = tokenize text :=
  Reuse.tokensOf_readParts Reuse.covers_none 0 (tokenize text)

/-- Every item of the tree of a text is what reading the tokens from it on gives. -/
theorem SyntaxTree.reading_of_item {text : Text} {before after : List Part} {i : Item}
    (h : (parse text).parts = before ++ .item i :: after) :
    ∃ t ts, Part.tokensOf (.item i :: after) = t :: ts ∧
      tokenize text = Part.tokensOf before ++ t :: ts ∧ (Reading.ofTokens t ts).item = i := by
  have hexact : Part.Exact (before ++ .item i :: after) :=
    h ▸ Part.exact_readParts_none 0 (tokenize text)
  obtain ⟨⟨t, ts, htokens, hread⟩, -⟩ := hexact.of_append
  refine ⟨t, ts, htokens, ?_, hread⟩
  rw [← htokens, ← Part.tokensOf_append, ← h]
  exact (tokens_parse text).symm

namespace EditSet

/-- Edits that do not reach a range up to the end of the text all end before the range. -/
theorem stop_lt_of_not_touches {s : EditSet} {t u : Text} {range : TextRange}
    (h : Rewrites 0 s.edits t u) (hstop : range.stop = t.size) (htouch : s.touches range = false) :
    ∀ e ∈ s.edits, e.stop < range.start := by
  rw [touches] at htouch
  split at htouch
  next e es hdrop =>
    have hmem : e ∈ s.edits := (List.dropWhile_sublist _).subset (hdrop ▸ List.mem_cons_self)
    have hle := h.stop_le e hmem
    have := e.start_le_stop
    simp only [decide_eq_false_iff_not, Nat.not_le] at htouch
    omega
  next hdrop =>
    intro e he
    have hall : s.edits.takeWhile (fun e => e.stop < range.start) = s.edits := by
      simpa [hdrop] using List.takeWhile_append_dropWhile (p := fun e => e.stop < range.start)
        (l := s.edits)
    have hends := List.all_eq_true.mp List.all_takeWhile e (hall ▸ he)
    simpa using hends

/-- An offset behind all edits is moved by what they add together. -/
theorem shiftAt_eq_totalDelta {es : List TextEdit} {offset : Nat}
    (h : ∀ e ∈ es, e.stop < offset) : shiftAt offset es = some (totalDelta es) := by
  induction es with
  | nil => rfl
  | cons e es ih =>
    have he := h e (by simp)
    have hle := e.start_le_stop
    rw [shiftAt, if_neg (by omega), if_pos (by omega), ih fun f hf => h f (by simp [hf])]
    rfl

/-- What is left of a text from a place on that no edit reaches is as long as before. -/
theorem size_sub_mapOffset {s : EditSet} {t u : Text} {start size moved : Nat}
    (h : Rewrites 0 s.edits t u) (hstop : start + size = t.size)
    (htouch : s.touches (.sized start size) = false) (hmoved : s.mapOffset start = some moved) :
    moved + size = u.size := by
  have hshift := shiftAt_eq_totalDelta (stop_lt_of_not_touches h hstop htouch)
  simp only [TextRange.sized_start] at hshift
  rw [mapOffset, hshift] at hmoved
  have hsize := h.size_eq
  simp only [Option.ite_none_right_eq_some, Option.some.injEq] at hmoved
  omega

end EditSet

namespace Reuse

/-- The tokens within reach of an item are its own and those that its reading has seen. -/
theorem within_reach {t : Token} {ts : List Token} (hpos : ∀ u ∈ t :: ts, 0 < u.size) :
    within (Reading.ofTokens t ts).item.reach (t :: ts) =
      (Reading.ofTokens t ts).tokens ++ (Reading.ofTokens t ts).seen := by
  obtain ⟨us, hus⟩ := Reading.seen_isPrefix (Reading.ofTokens t ts)
  have hall := Reading.tokens_ofTokens t ts
  rw [← hus, ← List.append_assoc] at hall
  rw [Reading.reach_item, ← hall]
  apply within_sizeOfAll
  intro u hu
  apply hpos
  rw [← hall]
  exact List.mem_append_left _ hu

/-- What edits leave of the tree of a text agrees with reading the text that they make of it. -/
theorem agrees_ofEdits {edits : EditSet} {text new : Text} (happly : edits.apply text = .ok new) :
    (ofEdits (parse text) edits).Agrees new.size := by
  intro start t ts old hstop hpos hitem
  have hedits := EditSet.apply_eq_ok_iff.mp happly
  obtain ⟨hmem, rfl, us, hus⟩ := mem_of_itemAt? hitem
  obtain ⟨before, after, hparts, hold, htouch, hmoved, hexamined⟩ := untouchedIn_of_mem hmem
  obtain ⟨t₀, ts₀, htokens, hall, hread⟩ := SyntaxTree.reading_of_item hparts
  have hpos₀ : ∀ u ∈ t₀ :: ts₀, 0 < u.size := fun u hu =>
    Token.size_pos_of_mem_tokenize (hall ▸ List.mem_append_right _ hu)
  rw [htokens, ← hread, within_reach hpos₀] at hexamined
  rw [hexamined] at hus
  have hend : (Reading.ofTokens t₀ ts₀).sawEnd = true → us = [] := by
    intro hsaw
    -- the bytes that the item depends on go up to the end of the old text
    have hreach : old.oldStart + old.item.reach = text.size := by
      rw [← Token.sizeOfAll_tokenize text, hall, Token.sizeOfAll_append, ← hread,
        Reading.reach_of_sawEnd hsaw, hold]
      omega
    have hsame := EditSet.size_sub_mapOffset hedits hreach htouch hmoved
    apply Token.eq_nil_of_sizeOfAll
    · intro u hu
      exact hpos u (hus ▸ List.mem_append_right _ hu)
    · rw [← hread, Reading.reach_item] at hsame
      rw [← hus, Token.sizeOfAll_append] at hstop
      omega
  have hsame : (Reading.ofTokens t ts).item = old.item :=
    (Reading.item_eq_of_examined hus.symm hend).trans hread
  refine ⟨hsame, ?_⟩
  rw [← hsame, Reading.tokens_item]
  exact Reading.rest_ofTokens t ts

end Reuse

/-- A reparse with the edits that made the new text gives the tree of a full parse. -/
theorem reparse_parse {edits : EditSet} {text new : Text} (happly : edits.apply text = .ok new) :
    (reparse new (parse text) edits).1 = parse new := by
  have hparts := Reuse.map_fst_readParts (Reuse.agrees_ofEdits happly) 0 (tokenize new)
    (by rw [Token.sizeOfAll_tokenize, Nat.zero_add])
    (fun t ht => Token.size_pos_of_mem_tokenize ht)
  simp only [reparse, hparts]
  rfl

/-- The trees of a text and, from each to the next, of texts that come with edits. -/
def reparseAll (tree : SyntaxTree) : List (Text × EditSet) → List SyntaxTree
  | [] => [tree]
  | (text, edits) :: steps => tree :: reparseAll (reparse text tree edits).1 steps

/-- Each text of the steps is what its edits make of the text before it. -/
def Truthful (text : Text) : List (Text × EditSet) → Prop
  | [] => True
  | (new, edits) :: steps => edits.apply text = .ok new ∧ Truthful new steps

instance Truthful.decide :
    (text : Text) → (steps : List (Text × EditSet)) → Decidable (Truthful text steps)
  | _, [] => isTrue trivial
  | text, (new, edits) :: steps =>
    have := Truthful.decide new steps
    inferInstanceAs (Decidable (edits.apply text = .ok new ∧ Truthful new steps))

theorem reparseAll_eq_map_parse {text : Text} {steps : List (Text × EditSet)}
    (h : Truthful text steps) :
    reparseAll (parse text) steps = (text :: steps.map Prod.fst).map parse := by
  induction steps generalizing text with
  | nil => rfl
  | cons step steps ih =>
    obtain ⟨new, edits⟩ := step
    rw [reparseAll, reparse_parse h.1, ih h.2]
    rfl

/-- Along any chain of reparses, each with edits that lead to its text, every tree and all its
lookahead are those of a full parse of that text. -/
theorem reparseAll_matches_parse (text : Text) (steps : List (Text × EditSet))
    (h : Truthful text steps) :
    (reparseAll (parse text) steps).map (fun tree => (tree.root, tree.lookahead)) =
      (text :: steps.map Prod.fst).map fun t => ((parse t).root, (parse t).lookahead) := by
  rw [reparseAll_eq_map_parse h, List.map_map]
  rfl

/-- An insertion in front of an item, which is taken over, and a deletion inside it. -/
theorem reparseAll_matches_parse_twice :
    let text : Text := "f(1)\nlet b = 2 // é".toList
    let steps : List (Text × EditSet) :=
      [("f(1, \"ü\")\nlet b = 2 // é".toList, ⟨[.insert 3 ", \"ü\"".toList]⟩),
        ("f(1, \"ü\")\nlet b = // é".toList, ⟨[.delete (.sized 19 2)]⟩)]
    Truthful text steps ∧
      (reparseAll (parse text) steps).map (fun tree => (tree.root, tree.lookahead)) =
        (text :: steps.map Prod.fst).map fun t => ((parse t).root, (parse t).lookahead) :=
  ⟨by decide, reparseAll_matches_parse _ _ (by decide)⟩

end IncrementalSyntax
