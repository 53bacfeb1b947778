import IncrementalSyntax.Proofs.Syntax.Places

/-!
What an item depends on. A tree lists its items with the places where the bytes that they depend on
end. The tokens in these bytes are all that the reading of the item has looked at
(`Text.tokensIn_reach`), so an item of another text that begins with them is the same item and
depends on as many bytes. The end of a text is not a token: an item that depends on the bytes up to
it may have been ended by it, so in that case the other text must end behind these tokens as well.
-/
namespace IncrementalSyntax

namespace Placed

@[simp] theorem map_token_all (start : Nat) (ts : List Token) :
    (all start ts).map (·.token) = ts := by
  induction ts generalizing start with
  | nil => rfl
  | cons t ts ih => rw [all, List.map_cons, ih]

/-- Tokens with characters begin at the place of the first one or behind it, and end behind it. -/
theorem le_of_mem_all {start : Nat} {ts : List Token} (hpos : ∀ t ∈ ts, 0 < t.size)
    {p : Placed} (h : p ∈ all start ts) : start ≤ p.range.start ∧ start < p.range.stop := by
  induction ts generalizing start with
  | nil => simp [all] at h
  | cons t ts ih =>
    have ht := hpos t (by simp)
    rcases List.mem_cons.mp h with rfl | h
    · simp only [TextRange.sized_start, TextRange.sized_stop]
      omega
    · have := ih (fun u hu => hpos u (by simp [hu])) h
      omega

def liesIn (start stop : Nat) (p : Placed) : Bool := start ≤ p.range.start && p.range.stop ≤ stop

theorem liesIn_iff {start stop : Nat} {p : Placed} :
    p.liesIn start stop = true ↔ start ≤ p.range.start ∧ p.range.stop ≤ stop := by simp [liesIn]

end Placed

namespace Text

/-- The tokens of a text that lie between two places. -/
def tokensIn (text : Text) (start stop : Nat) : List Token :=
  ((Placed.all 0 (tokenize text)).filter (Placed.liesIn start stop)).map (·.token)

/-- Between the places where consecutive tokens begin and end lie just these. -/
theorem tokensIn_of_cut {text : Text} {us ts vs : List Token}
    (h : tokenize text = us ++ ts ++ vs) :
    text.tokensIn (Token.sizeOfAll us) (Token.sizeOfAll us + Token.sizeOfAll ts) = ts := by
  have hpos : ∀ t ∈ us ++ ts ++ vs, 0 < t.size := fun t ht =>
    Token.size_pos_of_mem_tokenize (h ▸ ht)
  obtain ⟨hpos, hvs⟩ := List.forall_mem_append.mp hpos
  obtain ⟨hus, hts⟩ := List.forall_mem_append.mp hpos
  rw [tokensIn, h, Placed.all_append, Placed.all_append, List.filter_append, List.filter_append]
  have hfront : (Placed.all 0 us).filter (Placed.liesIn (Token.sizeOfAll us)
      (Token.sizeOfAll us + Token.sizeOfAll ts)) = [] := by
    refine List.filter_eq_nil_iff.mpr fun p hp hlies => ?_
    have hlt := (Placed.bounds_of_mem_all hus hp).1
    have hle := (Placed.liesIn_iff.mp hlies).1
    omega
  have hown : (Placed.all (0 + Token.sizeOfAll us) ts).filter (Placed.liesIn (Token.sizeOfAll us)
      (Token.sizeOfAll us + Token.sizeOfAll ts)) = Placed.all (0 + Token.sizeOfAll us) ts := by
    refine List.filter_eq_self.mpr fun p hp => Placed.liesIn_iff.mpr ?_
    have hstart := (Placed.le_of_mem_all hts hp).1
    have hstop := (Placed.bounds_of_mem_all hts hp).2
    omega
  have hback : (Placed.all (0 + Token.sizeOfAll (us ++ ts)) vs).filter
      (Placed.liesIn (Token.sizeOfAll us) (Token.sizeOfAll us + Token.sizeOfAll ts)) = [] := by
    refine List.filter_eq_nil_iff.mpr fun p hp hlies => ?_
    have hlt := (Placed.le_of_mem_all hvs hp).2
    have hle := (Placed.liesIn_iff.mp hlies).2
    rw [Token.sizeOfAll_append] at hlt
    omega
  rw [hfront, hown, hback, List.nil_append, List.append_nil, Placed.map_token_all]

/-- The tokens in the bytes that an item depends on are its own and those that its reading has
seen. -/
theorem tokensIn_reach {text : Text} {us ts : List Token} {t : Token}
    (h : tokenize text = us ++ t :: ts) :
    text.tokensIn (Token.sizeOfAll us)
        (Token.sizeOfAll us + (Reading.ofTokens t ts).item.reach) =
      (Reading.ofTokens t ts).tokens ++ (Reading.ofTokens t ts).seen := by
  obtain ⟨vs, hvs⟩ := (Reading.ofTokens t ts).seen_isPrefix
  have hcut : tokenize text =
      us ++ ((Reading.ofTokens t ts).tokens ++ (Reading.ofTokens t ts).seen) ++ vs := by
    rw [h, List.append_assoc, List.append_assoc, hvs, Reading.tokens_ofTokens]
  rw [Reading.reach_item]
  exact tokensIn_of_cut hcut

theorem tokensIn_size {text : Text} {us ts : List Token} (h : tokenize text = us ++ ts) :
    text.tokensIn (Token.sizeOfAll us) text.size = ts := by
  have hsize : text.size = Token.sizeOfAll us + Token.sizeOfAll ts := by
    rw [← Token.sizeOfAll_tokenize, h, Token.sizeOfAll_append]
  rw [hsize]
  exact tokensIn_of_cut (h.trans (List.append_nil _).symm)

end Text

/-- What an item of `text` depends on stands again in `new` from `start` on: the tokens in the bytes
that its entry gives and, if these go up to the end of the text, the end of the text behind them. -/
structure Lookahead.StandsAgain (entry : Lookahead) (text new : Text) (start : Nat) : Prop where
  tokens : text.tokensIn entry.range.start entry.stop <+: new.tokensIn start new.size
  ends : entry.stop = text.size → new.size = start + (entry.stop - entry.range.start)

/-- A placed item is one of the parts, and stands behind the tokens of those in front of it. -/
theorem Part.exists_cut_of_mem_placed {start : Nat} {ps : List Part} {x : Item × TextRange}
    (h : x ∈ placed start ps) :
    ∃ before after, ps = before ++ .item x.1 :: after ∧
      x.2 = .sized (start + Token.sizeOfAll (tokensOf before)) x.1.size := by
  induction ps generalizing start with
  | nil => simp [placed] at h
  | cons p ps ih =>
    cases p with
    | trivia t =>
      obtain ⟨before, after, rfl, hrange⟩ := ih h
      refine ⟨.trivia t :: before, after, rfl, ?_⟩
      simpa [Nat.add_assoc] using hrange
    | item i =>
      rcases List.mem_cons.mp h with rfl | h
      · exact ⟨[], ps, rfl, rfl⟩
      · obtain ⟨before, after, rfl, hrange⟩ := ih h
        refine ⟨.item i :: before, after, rfl, ?_⟩
        simpa [Nat.add_assoc, Item.size_eq] using hrange

namespace SyntaxTree

def items (tree : SyntaxTree) : List (Element × Lookahead) :=
  (tree.root.children.filter fun e => !e.kind.isToken).zip tree.lookahead

/-- There are as many entries as nodes, and each goes with its node. -/
theorem zip_lookaheadFrom (start : Nat) (ps : List Part) :
    ((ps.map Part.element).filter fun e => !e.kind.isToken).zip (lookaheadFrom start ps) =
      (Part.placed start ps).map fun x => (x.1.element, ⟨x.2, x.2.start + x.1.reach⟩) := by
  induction ps generalizing start with
  | nil => rfl
  | cons p ps ih =>
    cases p with
    | trivia t => exact ih _
    | item i => exact congrArg (_ :: ·) (ih _)

/-- Every item of the tree of a text is read from the tokens behind some of them. -/
theorem exists_reading_of_mem_items {text : Text} {e : Element} {a : Lookahead}
    (h : (e, a) ∈ (parse text).items) :
    ∃ us t ts, tokenize text = us ++ t :: ts ∧ e = (Reading.ofTokens t ts).item.element ∧
      a = ⟨.sized (Token.sizeOfAll us) (Reading.ofTokens t ts).item.size,
        Token.sizeOfAll us + (Reading.ofTokens t ts).item.reach⟩ := by
  rw [items, root, Element.children, lookahead, zip_lookaheadFrom] at h
  obtain ⟨⟨i, range⟩, hplaced, heq⟩ := List.mem_map.mp h
  obtain ⟨rfl, rfl⟩ := Prod.mk.inj heq
  obtain ⟨before, after, hparts, hrange⟩ := Part.exists_cut_of_mem_placed hplaced
  obtain ⟨t, ts, -, hcut, rfl⟩ := reading_of_item hparts
  rw [Nat.zero_add] at hrange
  exact ⟨Part.tokensOf before, t, ts, hcut, rfl, by rw [hrange]; rfl⟩

end SyntaxTree

/-- An item depends on nothing but the bytes that the tree lists for it. If what an item of one text
depends on stands again in another text where an item begins, then that is the same item; it is as
long, and it depends on as many bytes. -/
theorem dependence_determines_item {text new : Text} {e f : Element} {a b : Lookahead}
    (he : (e, a) ∈ (parse text).items) (hf : (f, b) ∈ (parse new).items)
    (h : a.StandsAgain text new b.range.start) :
    f = e ∧ b.range = .sized b.range.start a.range.size ∧
      b.stop = b.range.start + (a.stop - a.range.start) := by
  obtain ⟨us, t, ts, hold, rfl, rfl⟩ := SyntaxTree.exists_reading_of_mem_items he
  obtain ⟨vs, t', ts', hnew, rfl, rfl⟩ := SyntaxTree.exists_reading_of_mem_items hf
  obtain ⟨⟨rest, hrest⟩, hends⟩ := h
  simp only [TextRange.sized_start, Nat.add_sub_cancel_left] at hrest hends ⊢
  rw [Text.tokensIn_reach hold, Text.tokensIn_size hnew] at hrest
  have hend : (Reading.ofTokens t ts).sawEnd = true → rest = [] := by
    intro hsaw
    -- the item depends on all bytes up to the end of its text, so the other one ends there as well
    have hlast : Token.sizeOfAll us + (Reading.ofTokens t ts).item.reach = text.size := by
      rw [Reading.reach_of_sawEnd hsaw, ← Token.sizeOfAll_append, ← hold, Token.sizeOfAll_tokenize]
    have hsize := hends hlast
    rw [← Token.sizeOfAll_tokenize new, hnew, Token.sizeOfAll_append, ← hrest,
      Token.sizeOfAll_append, ← Reading.reach_item] at hsize
    apply Token.eq_nil_of_sizeOfAll
    · intro u hu
      have hmem : u ∈ tokenize new := by
        rw [hnew, ← hrest]
        exact List.mem_append_right _ (List.mem_append_right _ hu)
      exact Token.size_pos_of_mem_tokenize hmem
    · omega
  have hsame := Reading.item_eq_of_examined hrest.symm hend
  rw [hsame]
  exact ⟨rfl, by simp [TextRange.size], rfl⟩

/-- A call that is not closed and ends at the next declaration, and a declaration that ends with the
text: each is read again among other tokens. -/
theorem dependence_determines_item_unclosed :
    let text : Text := "let a = f(é\nlet b".toList
    let among : Text := ") let a = f(é\nlet = 2;".toList
    let last : Text := "g()\nlet b".toList
    let call : Lookahead := ⟨.sized 0 12, 16⟩
    let name : Lookahead := ⟨.sized 13 5, 18⟩
    (call.StandsAgain text among 2 ∧ ∃ e, (e, call) ∈ (parse text).items ∧
      (e, ⟨.sized 2 12, 18⟩) ∈ (parse among).items) ∧
    name.StandsAgain text last 4 ∧ ∃ e, (e, name) ∈ (parse text).items ∧
      (e, ⟨.sized 4 5, 9⟩) ∈ (parse last).items := by
  intro text among last call name
  have hcall : call.StandsAgain text among 2 := ⟨by decide +kernel, by decide +kernel⟩
  have hname : name.StandsAgain text last 4 := ⟨by decide +kernel, by decide +kernel⟩
  have hsame {new : Text} {a b : Lookahead} (ha : a ∈ (parse text).items.map Prod.snd)
      (hb : b ∈ (parse new).items.map Prod.snd) (h : a.StandsAgain text new b.range.start) :
      ∃ e, (e, a) ∈ (parse text).items ∧ (e, b) ∈ (parse new).items := by
    obtain ⟨⟨e, _⟩, he, rfl⟩ := List.mem_map.mp ha
    obtain ⟨⟨f, _⟩, hf, rfl⟩ := List.mem_map.mp hb
    obtain ⟨rfl, -⟩ := dependence_determines_item he hf h
    exact ⟨f, he, hf⟩
  exact ⟨⟨hcall, hsame (by decide +kernel) (by decide +kernel) hcall⟩,
    hname, hsame (by decide +kernel) (by decide +kernel) hname⟩

/-- Without the end of the text behind it a name goes on as a call. -/
example :
    let text : Text := "f".toList
    let new : Text := "f(".toList
    text.tokensIn 0 1 <+: new.tokensIn 0 2 ∧ (parse text).lookahead = [⟨.sized 0 1, 1⟩] ∧
      (parse new).lookahead = [⟨.sized 0 2, 2⟩] := by
  decide +kernel

end IncrementalSyntax
