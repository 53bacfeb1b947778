import IncrementalSyntax.Proofs.Syntax.Lossless
import IncrementalSyntax.Proofs.Syntax.Reports

/-!
How a reparse finds back to the old tree. Behind the last edit the new text is the old one, so from
a place on where a token begins in both the tokens are the same (`tokenize_of_cut`). If an item
begins there, all that its reading looked at stands there again, and so on for every later item up
to the end of the text: the old tree offers each of them where the loop comes to it
(`Reuse.offers_ofEdits`). The loop then takes them over one after the other, and reports each as one
(`Reuse.reports_of_offers`).
-/
namespace IncrementalSyntax

/-- Whether neither range has ended where the other one starts. -/
def TextRange.overlaps (a b : TextRange) : Bool := a.start < b.stop && b.start < a.stop

theorem TextRange.overlaps_iff {a b : TextRange} :
    a.overlaps b = true ↔ a.start < b.stop ∧ b.start < a.stop := by simp [overlaps]

theorem Token.textOfAll_append (ts us : List Token) :
    textOfAll (ts ++ us) = textOfAll ts ++ textOfAll us := by simp [textOfAll]

/-- From the start of any token on, a text has the tokens that it has there as a part of a longer
one. -/
theorem tokenize_textOfAll {text : Text} {us vs : List Token} (h : tokenize text = us ++ vs) :
    tokenize (Token.textOfAll vs) = vs := by
  induction us generalizing text with
  | nil =>
    rw [List.nil_append] at h
    rw [← h, textOfAll_tokenize]
  | cons u us ih =>
    cases text with
    | nil => simp at h
    | cons c rest =>
      rw [tokenize_cons, List.cons_append] at h
      exact ih (List.cons.inj h).2

/-- A cut of a text where a token starts. -/
theorem tokenize_of_cut {a b : Text} {us vs : List Token} (h : tokenize (a ++ b) = us ++ vs)
    (hsize : a.size = Token.sizeOfAll us) : tokenize b = vs := by
  have htext : Token.textOfAll us ++ Token.textOfAll vs = a ++ b := by
    rw [← Token.textOfAll_append, ← h, textOfAll_tokenize]
  have hle : (Token.textOfAll us).size ≤ a.size := by
    rw [Token.size_textOfAll]
    omega
  obtain ⟨x, rfl, hb⟩ := Text.append_eq_append_of_size_le htext hle
  have hx : x = [] := by
    rw [Text.size_append, Token.size_textOfAll] at hsize
    exact Text.size_eq_zero_iff.mp (by omega)
  rw [hx, List.nil_append] at hb
  rw [← hb]
  exact tokenize_textOfAll h

/-- A cut of a tree between two parts is a cut of its text. -/
theorem text_eq_of_parts {text : Text} {ps qs : List Part} (h : (parse text).parts = ps ++ qs) :
    text = Token.textOfAll (Part.tokensOf ps) ++ Token.textOfAll (Part.tokensOf qs) := by
  rw [← Token.textOfAll_append, ← Part.tokensOf_append, ← h]
  exact (SyntaxTree.tokens_parse text ▸ textOfAll_tokenize text).symm

namespace Part

/-- Trivia is trivia; an item begins with a token that is not, and has bytes. -/
def Regular : Part → Prop
  | trivia t => t.kind.isTrivia = true
  | item i => (∃ t ts, i.tokens = t :: ts ∧ t.kind.isTrivia = false) ∧ 0 < i.size

theorem regular_readParts_none (start : Nat) (ts : List Token) (hpos : ∀ t ∈ ts, 0 < t.size) :
    ∀ p ∈ (readParts .none start ts).map Prod.fst, p.Regular := by
  induction start, ts using readParts.induct .none with
  | case1 start => simp [readParts]
  | case2 start t ts htrivia ih =>
    rw [readParts, if_pos htrivia]
    refine List.forall_mem_cons.mpr ⟨htrivia, ih fun u hu => hpos u (by simp [hu])⟩
  | case3 start t ts htrivia old hold ih => simp at hold
  | case4 start t ts htrivia hold reading ih =>
    rw [readParts, if_neg htrivia, hold]
    refine List.forall_mem_cons.mpr ⟨?_, ih (Reading.size_pos_rest hpos)⟩
    have hall := Reading.tokens_ofTokens t ts
    obtain ⟨u, us, hcons⟩ := List.exists_cons_of_ne_nil (Reading.tokens_ofTokens_ne_nil t ts)
    rw [hcons, List.cons_append] at hall
    obtain ⟨rfl, -⟩ := List.cons.inj hall
    have htokens : (Reading.ofTokens u ts).item.tokens = u :: us := by
      rw [Reading.tokens_item, hcons]
    refine ⟨⟨u, us, htokens, by simpa using htrivia⟩, ?_⟩
    have := hpos u (by simp)
    rw [Item.size_eq, htokens, Token.sizeOfAll_cons]
    omega

def placed (start : Nat) : List Part → List (Item × TextRange)
  | [] => []
  | .trivia t :: ps => placed (start + t.size) ps
  | .item i :: ps => (i, .sized start i.size) :: placed (start + i.size) ps

/-- The ranges are those that the tree gives for its items. -/
theorem lookaheadFrom_eq_map_placed (start : Nat) (ps : List Part) :
    SyntaxTree.lookaheadFrom start ps =
      (placed start ps).map fun x => ⟨x.2, x.2.start + x.1.reach⟩ := by
  induction ps generalizing start with
  | nil => rfl
  | cons p ps ih =>
    cases p with
    | trivia t => exact ih _
    | item i => exact congrArg (_ :: ·) (ih _)

theorem start_le_of_mem_placed {start : Nat} {ps : List Part} {x : Item × TextRange}
    (h : x ∈ placed start ps) : start ≤ x.2.start := by
  have hmem : ⟨x.2, x.2.start + x.1.reach⟩ ∈ SyntaxTree.lookaheadFrom start ps := by
    rw [lookaheadFrom_eq_map_placed]
    exact List.mem_map.mpr ⟨x, h, rfl⟩
  exact SyntaxTree.start_le_of_mem_lookaheadFrom hmem

end Part

theorem regular_parse (text : Text) : ∀ p ∈ (parse text).parts, p.Regular :=
  Part.regular_readParts_none 0 (tokenize text) fun _ ht => Token.size_pos_of_mem_tokenize ht

namespace Reuse

variable {reuse : Reuse}

/-- Where the loop comes to an item of the parts, which stood at `old` and stand at `start`, it may
take that item over. -/
def Offers (reuse : Reuse) (old start : Nat) : List Part → Prop
  | [] => True
  | .trivia t :: ps => Offers reuse (old + t.size) (start + t.size) ps
  | .item i :: ps =>
    (∃ examined, reuse.itemAt? start (Part.tokensOf (.item i :: ps)) =
      some ⟨i, old, start, examined⟩) ∧ Offers reuse (old + i.size) (start + i.size) ps

/-- The loop takes over an item that is offered to it, and goes on behind it. -/
theorem readParts_of_itemAt? {i : Item} (hi : (Part.item i).Regular) {start old : Nat}
    {examined ts : List Token}
    (hitem : reuse.itemAt? start (i.tokens ++ ts) = some ⟨i, old, start, examined⟩) :
    readParts reuse start (i.tokens ++ ts) =
      (.item i, [⟨.node i.kind, .sized old i.size, .sized start i.size⟩]) ::
        readParts reuse (start + i.size) ts := by
  obtain ⟨⟨t, us, htokens, htrivia⟩, -⟩ := hi
  rw [htokens, List.cons_append] at hitem ⊢
  rw [readParts, if_neg (by simp [htrivia]), hitem]
  simp [OldItem.report, htokens]

/-- Parts that are offered are made again. -/
theorem map_fst_of_offers {ps : List Part} (hps : ∀ p ∈ ps, p.Regular) {old start : Nat}
    (h : reuse.Offers old start ps) :
    (readParts reuse start (Part.tokensOf ps)).map Prod.fst = ps := by
  induction ps generalizing old start with
  | nil => simp [readParts]
  | cons p ps ih =>
    obtain ⟨hp, hrest⟩ := List.forall_mem_cons.mp hps
    cases p with
    | trivia t =>
      have htrivia : t.kind.isTrivia = true := hp
      simpa [readParts, htrivia] using ih hrest h
    | item i =>
      obtain ⟨⟨examined, hitem⟩, h⟩ := h
      rw [Part.tokensOf_cons, Part.tokens_item] at hitem ⊢
      rw [readParts_of_itemAt? hp hitem, List.map_cons, ih hrest h]

theorem filter_overlaps_eq_nil {rs : List Reused} {range : TextRange}
    (h : ∀ r ∈ rs, r.new.stop ≤ range.start ∨ range.stop ≤ r.new.start) :
    rs.filter (fun r => r.new.overlaps range) = [] := by
  refine List.filter_eq_nil_iff.mpr ?_
  intro r hr hoverlaps
  obtain ⟨hstart, hstop⟩ := TextRange.overlaps_iff.mp hoverlaps
  rcases h r hr with hle | hle <;> omega

/-- The run lemma: where an item that is offered has moved to, there is one report, on the item. -/
theorem reports_of_offers {ps : List Part} (hps : ∀ p ∈ ps, p.Regular) {old start : Nat}
    (h : reuse.Offers old start ps) {shift : Int} (hshift : (start : Int) = old + shift)
    {x : Item × TextRange} (hx : x ∈ Part.placed old ps) :
    ∃ moved : TextRange, (moved.start : Int) = x.2.start + shift ∧
      (moved.stop : Int) = x.2.stop + shift ∧
      ((readParts reuse start (Part.tokensOf ps)).flatMap Prod.snd).filter
        (fun r => r.new.overlaps moved) = [⟨.node x.1.kind, x.2, moved⟩] := by
  induction ps generalizing old start with
  | nil => simp [Part.placed] at hx
  | cons p ps ih =>
    obtain ⟨hp, hrest⟩ := List.forall_mem_cons.mp hps
    cases p with
    | trivia t =>
      have htrivia : t.kind.isTrivia = true := hp
      have hle : old + t.size ≤ x.2.start := Part.start_le_of_mem_placed hx
      obtain ⟨moved, hstart, hstop, hfilter⟩ := ih hrest h (by omega) hx
      refine ⟨moved, hstart, hstop, ?_⟩
      rw [Part.tokensOf_cons, Part.tokens_trivia, List.singleton_append, readParts, if_pos htrivia,
        List.flatMap_cons, List.filter_append, hfilter, filter_overlaps_eq_nil, List.nil_append]
      intro r hr
      have hends := (of_mem_tokensAt hr).2.2
      simp only [Token.sizeOfAll_cons, Token.sizeOfAll_nil] at hends
      omega
    | item i =>
      obtain ⟨⟨examined, hitem⟩, h⟩ := h
      rw [Part.tokensOf_cons, Part.tokens_item] at hitem ⊢
      rw [readParts_of_itemAt? hp hitem, List.flatMap_cons]
      simp only [List.filter_append]
      rcases List.mem_cons.mp hx with rfl | hx
      · -- all reports behind the item start where it has ended
        refine ⟨.sized start i.size, hshift, ?_, ?_⟩
        · simp only [TextRange.sized_stop]
          omega
        · have hself : (TextRange.sized start i.size).overlaps (.sized start i.size) = true := by
            have hpos := hp.2
            rw [TextRange.overlaps_iff, TextRange.sized_start, TextRange.sized_stop]
            omega
          have hlater : ((readParts reuse (start + i.size) (Part.tokensOf ps)).flatMap
              Prod.snd).filter (fun r => r.new.overlaps (.sized start i.size)) = [] :=
            filter_overlaps_eq_nil fun r hr => .inr (of_mem_readParts hr).2
          rw [hlater, List.append_nil]
          simp [hself]
      · -- a later item starts where this one has ended
        have hle := Part.start_le_of_mem_placed hx
        obtain ⟨moved, hstart, hstop, hfilter⟩ := ih hrest h (by omega) hx
        refine ⟨moved, hstart, hstop, ?_⟩
        rw [hfilter, filter_overlaps_eq_nil, List.nil_append]
        intro r hr
        obtain rfl := List.mem_singleton.mp hr
        simp only [TextRange.sized_stop]
        omega

end Reuse

namespace EditSet

variable {s : EditSet} {a b u : Text}

theorem stop_lt_of_getLast? {es : List TextEdit} (h : InOrder es) {n : Nat}
    (hlast : ∀ e ∈ es.getLast?, e.stop < n) : ∀ e ∈ es, e.stop < n := by
  rcases List.eq_nil_or_concat es with rfl | ⟨init, last, rfl⟩
  · simp
  · rw [List.concat_eq_append] at *
    intro e he
    have hend : last.stop < n := hlast last (by simp)
    rcases List.mem_append.mp he with he | he
    · have hle := (List.pairwise_append.mp h).2.2 e he last (by simp)
      have := last.start_le_stop
      omega
    · rw [List.mem_singleton.mp he]
      exact hend

theorem touches_of_stop_lt (h : InOrder s.edits) {range : TextRange}
    (hbehind : ∀ e ∈ s.edits, e.stop < range.start) : s.touches range = false := by
  rw [← Bool.not_eq_true, touches_iff h]
  rintro ⟨e, he, -, hle⟩
  have := hbehind e he
  omega

/-- Behind all edits a text stays as it is, and is moved by what they add together. -/
theorem mapOffset_behind (h : Rewrites 0 s.edits (a ++ b) u) (hu : u.size ≤ Offset.greatest)
    (hbehind : ∀ e ∈ s.edits, e.stop < a.size) :
    ∃ v, u = v ++ b ∧ s.mapOffset a.size = some v.size ∧
      (v.size : Int) = a.size + totalDelta s.edits := by
  have hclear : ∀ e ∈ s.edits, ¬ e.Encloses a.size := by
    rintro e he ⟨-, hstop⟩
    have := hbehind e he
    omega
  obtain ⟨v, w, rfl, -, hw, hmap⟩ := mapOffset_of_cut h hu hclear
  have hnone : s.edits.filter (fun e => a.size ≤ e.start) = [] := by
    refine List.filter_eq_nil_iff.mpr fun e he hle => ?_
    have hends := hbehind e he
    have hstart := e.start_le_stop
    simp only [decide_eq_true_eq] at hle
    omega
  rw [hnone] at hw
  obtain rfl := hw.nil_inv
  have hsize := h.size_eq
  rw [Text.size_append, Text.size_append] at hsize
  exact ⟨v, rfl, hmap, by omega⟩

/-- Text that no edit touches stays between the places in front of it and behind it. -/
theorem mapOffset_lt {x m y z : Text} (h : Rewrites 0 s.edits (x ++ m ++ y ++ z) u)
    (hu : u.size ≤ Offset.greatest) (hm : 0 < m.size)
    (htouch : s.touches (.sized x.size m.size) = false) {n₁ n₂ : Nat}
    (h₁ : s.mapOffset x.size = some n₁) (h₂ : s.mapOffset (x ++ m ++ y).size = some n₂) :
    n₁ < n₂ := by
  have hfree : ∀ e ∈ s.edits, e.stop < x.size ∨ x.size + m.size < e.start := by
    intro e he
    by_cases hmeets : e.Meets (.sized x.size m.size)
    · rw [(touches_iff h.inOrder.1).mpr ⟨e, he, hmeets⟩] at htouch
      simp at htouch
    · simp only [TextEdit.Meets, TextRange.sized_start, TextRange.sized_stop] at hmeets
      omega
  have hsplit := h
  rw [List.append_assoc (x ++ m)] at hsplit
  obtain ⟨v, w, -, hstart, hstop⟩ := moved_of_not_touches hsplit hu hfree
  rw [← Text.size_append] at hstop
  have hle := mapOffset_mono h hu hstop h₂
  obtain rfl : v.size = n₁ := Option.some.inj (hstart.symm.trans h₁)
  omega

end EditSet

namespace Reuse

theorem within_isPrefix (n : Nat) (ts : List Token) : within n ts <+: ts := by
  induction ts generalizing n with
  | nil => exact List.prefix_rfl
  | cons t ts ih =>
    rw [within]
    split
    · exact List.nil_prefix
    · exact List.cons_prefix_cons.mpr ⟨rfl, ih _⟩

/-- A search among the listed items passes over beginning parts whose items do not satisfy it. -/
theorem find?_untouchedItems {edits : EditSet} {p : OldItem → Bool} {start : Nat}
    {ps qs : List Part} (hps : ∀ p ∈ ps, p.Regular)
    (hskip : ∀ old, UntouchedIn edits start (ps ++ qs) old →
      old.oldStart < start + Token.sizeOfAll (Part.tokensOf ps) → p old = false) :
    (untouchedItems edits start (ps ++ qs)).find? p =
      (untouchedItems edits (start + Token.sizeOfAll (Part.tokensOf ps)) qs).find? p := by
  induction ps generalizing start with
  | nil => rfl
  | cons q ps ih =>
    obtain ⟨hq, hrest⟩ := List.forall_mem_cons.mp hps
    have hsize : start + Token.sizeOfAll (Part.tokensOf (q :: ps)) =
        start + Token.sizeOfAll q.tokens + Token.sizeOfAll (Part.tokensOf ps) := by
      rw [Part.tokensOf_cons, Token.sizeOfAll_append, Nat.add_assoc]
    rw [hsize] at hskip ⊢
    rw [← ih hrest fun old hold hlt => hskip old (hold.cons rfl) hlt]
    cases q with
    | trivia t => simp [untouchedItems]
    | item i =>
      rw [List.cons_append, untouchedItems, Part.tokens_item, ← Item.size_eq]
      split
      next => rfl
      next htouch =>
        split
        next moved hmoved =>
          refine List.find?_cons_of_neg (Bool.not_eq_true _ ▸ hskip _ ?_ ?_)
          · exact ⟨[], ps ++ qs, rfl, rfl, by simpa using htouch, hmoved, rfl⟩
          · have hpos := hq.2
            rw [Part.tokens_item, ← Item.size_eq]
            exact Nat.lt_of_lt_of_le (Nat.lt_add_of_pos_right hpos) (Nat.le_add_right _ _)
        next => rfl

/-- An old item that no edit touches moves to a place before that of everything behind it. -/
theorem newStart_lt {edits : EditSet} {text new : Text} (hedits : Rewrites 0 edits.edits text new)
    (hnew : new.size ≤ Offset.greatest) {before ps : List Part}
    (hparts : (parse text).parts = before ++ ps) {old : OldItem}
    (hold : UntouchedIn edits 0 (before ++ ps) old)
    (hlt : old.oldStart < Token.sizeOfAll (Part.tokensOf before)) {moved : Nat}
    (hmoved : edits.mapOffset (Token.sizeOfAll (Part.tokensOf before)) = some moved) :
    old.newStart < moved := by
  obtain ⟨front, back, hcut, hstart, htouch, hat, -⟩ := hold
  rw [Nat.zero_add] at hstart
  have hpos : 0 < old.item.size :=
    (regular_parse text (.item old.item) (by rw [hparts, hcut]; simp)).2
  -- the item is one of the parts before the place
  obtain ⟨rest, rfl⟩ : ∃ rest, before = front ++ .item old.item :: rest := by
    rcases List.append_eq_append_iff.mp hcut with ⟨c, rfl, -⟩ | ⟨c, rfl, hitem⟩
    · rw [Part.tokensOf_append, Token.sizeOfAll_append] at hstart
      omega
    · cases c with
      | nil =>
        rw [List.append_nil] at hlt
        omega
      | cons p rest =>
        obtain ⟨rfl, -⟩ := List.cons.inj hitem
        exact ⟨rest, rfl⟩
  have htext := text_eq_of_parts hparts
  rw [Part.tokensOf_append, Part.tokensOf_cons, Part.tokens_item, ← List.append_assoc] at htext hmoved
  rw [Token.textOfAll_append, Token.textOfAll_append] at htext
  rw [← Token.size_textOfAll, Token.textOfAll_append, Token.textOfAll_append] at hmoved
  rw [hstart, ← Token.size_textOfAll] at htouch hat
  have hsize : (Token.textOfAll old.item.tokens).size = old.item.size := by
    rw [Token.size_textOfAll, Item.size_eq]
  have hreach : (Token.textOfAll old.item.tokens).size ≤ old.item.reach := by
    rw [hsize]
    exact Nat.le_add_right _ _
  exact EditSet.mapOffset_lt (htext ▸ hedits) hnew (by omega)
    (EditSet.touches_of_le hedits.inOrder.1 hreach htouch) hat hmoved

/-- Behind all edits, the item that the old tree offers for a place is the one that has moved
there. -/
theorem itemAt?_behind {edits : EditSet} {text new : Text}
    (hedits : Rewrites 0 edits.edits text new) (hnew : new.size ≤ Offset.greatest)
    {before after : List Part} {i : Item} (hparts : (parse text).parts = before ++ .item i :: after)
    (hbehind : ∀ e ∈ edits.edits, e.stop < Token.sizeOfAll (Part.tokensOf before)) {start : Nat}
    (hstart : (start : Int) =
      Token.sizeOfAll (Part.tokensOf before) + EditSet.totalDelta edits.edits) :
    (ofEdits (parse text) edits).itemAt? start (Part.tokensOf (.item i :: after)) =
      some ⟨i, Token.sizeOfAll (Part.tokensOf before), start,
        within i.reach (Part.tokensOf (.item i :: after))⟩ := by
  have hcut := hedits
  rw [text_eq_of_parts hparts] at hcut
  rw [← Token.size_textOfAll] at hbehind
  obtain ⟨v, -, hmap, hv⟩ := EditSet.mapOffset_behind hcut hnew hbehind
  rw [Token.size_textOfAll] at hbehind hmap hv
  obtain rfl : v.size = start := by omega
  have hregular : ∀ p ∈ before, p.Regular := fun p hp =>
    regular_parse text p (hparts ▸ List.mem_append_left _ hp)
  have hfind := find?_untouchedItems (p := fun old => decide (old.newStart = v.size)) hregular
    fun old hold hlt => decide_eq_false
      (Nat.ne_of_lt (newStart_lt hedits hnew hparts hold (by rwa [Nat.zero_add] at hlt) hmap))
  have htouch : edits.touches (.sized (Token.sizeOfAll (Part.tokensOf before)) i.reach) = false :=
    EditSet.touches_of_stop_lt hedits.inOrder.1 hbehind
  rw [Nat.zero_add, untouchedItems, htouch, hmap] at hfind
  simp only [itemAt?, ofEdits, hparts, hfind]
  simp [List.isPrefixOf_iff_prefix.mpr (within_isPrefix _ _)]

/-- What edits leave of the tree of a text offers every item behind them where they have moved
it. -/
theorem offers_ofEdits {edits : EditSet} {text new : Text}
    (hedits : Rewrites 0 edits.edits text new) (hnew : new.size ≤ Offset.greatest)
    {before ps : List Part} (hparts : (parse text).parts = before ++ ps)
    (hbehind : ∀ e ∈ edits.edits, e.stop < Token.sizeOfAll (Part.tokensOf before)) {start : Nat}
    (hstart : (start : Int) =
      Token.sizeOfAll (Part.tokensOf before) + EditSet.totalDelta edits.edits) :
    (ofEdits (parse text) edits).Offers (Token.sizeOfAll (Part.tokensOf before)) start ps := by
  induction ps generalizing before start with
  | nil => trivial
  | cons p ps ih =>
    have hsize : Token.sizeOfAll (Part.tokensOf (before ++ [p])) =
        Token.sizeOfAll (Part.tokensOf before) + Token.sizeOfAll p.tokens := by simp
    have hnext : (ofEdits (parse text) edits).Offers
        (Token.sizeOfAll (Part.tokensOf before) + Token.sizeOfAll p.tokens)
        (start + Token.sizeOfAll p.tokens) ps := by
      rw [← hsize]
      refine ih (by simpa using hparts) ?_ (by omega)
      intro e he
      have := hbehind e he
      omega
    cases p with
    | trivia t => simpa [Offers] using hnext
    | item i =>
      rw [Part.tokens_item, ← Item.size_eq] at hnext
      exact ⟨⟨_, itemAt?_behind hedits hnew hparts hbehind hstart⟩, hnext⟩

end Reuse

/-- Where an item begins behind all edits in the old text and in the new one, the two have the same
tokens. -/
theorem tokens_behind {edits : EditSet} {text new : Text}
    (hedits : Rewrites 0 edits.edits text new) (hnew : new.size ≤ Offset.greatest)
    {before ps front qs : List Part} (hold : (parse text).parts = before ++ ps)
    (hbehind : ∀ e ∈ edits.edits, e.stop < Token.sizeOfAll (Part.tokensOf before))
    (hat : (parse new).parts = front ++ qs)
    (hmap : edits.mapOffset (Token.sizeOfAll (Part.tokensOf before)) =
      some (Token.sizeOfAll (Part.tokensOf front))) :
    Part.tokensOf qs = Part.tokensOf ps ∧
      (Token.sizeOfAll (Part.tokensOf front) : Int) =
        Token.sizeOfAll (Part.tokensOf before) + EditSet.totalDelta edits.edits := by
  rw [text_eq_of_parts hold] at hedits
  rw [← Token.size_textOfAll (Part.tokensOf before)] at hbehind hmap
  obtain ⟨v, rfl, hmoved, hsize⟩ := EditSet.mapOffset_behind hedits hnew hbehind
  have hv : v.size = Token.sizeOfAll (Part.tokensOf front) := Option.some.inj (hmoved.symm.trans hmap)
  have hnewTokens := SyntaxTree.tokens_parse (v ++ Token.textOfAll (Part.tokensOf ps))
  have holdTokens := SyntaxTree.tokens_parse text
  rw [SyntaxTree.tokens, hat, Part.tokensOf_append] at hnewTokens
  rw [SyntaxTree.tokens, hold, Part.tokensOf_append] at holdTokens
  refine ⟨?_, by rw [← hv, hsize, Token.size_textOfAll]⟩
  rw [← tokenize_of_cut hnewTokens.symm hv, tokenize_textOfAll holdTokens.symm]

/-- A report on something that stood, even in part, in a range behind all edits stands in the range
that they have moved that to. -/
theorem Reused.Follows.overlaps {edits : EditSet} (horder : EditSet.InOrder edits.edits)
    {r : Reused} (h : r.Follows edits) {range moved : TextRange}
    (hbehind : ∀ e ∈ edits.edits, e.stop < range.start)
    (hstart : (moved.start : Int) = range.start + EditSet.totalDelta edits.edits)
    (hstop : (moved.stop : Int) = range.stop + EditSet.totalDelta edits.edits)
    (hoverlaps : r.old.overlaps range = true) : r.new.overlaps moved = true := by
  obtain ⟨hlow, hhigh⟩ := TextRange.overlaps_iff.mp hoverlaps
  -- no edit reaches into the old range, so all of them end before it
  have hends : ∀ e ∈ edits.edits, e.stop < r.old.start := by
    intro e he
    have hclear : ¬ e.Meets r.old := fun hmeets => by
      have htouch := (EditSet.touches_iff horder).mpr ⟨e, he, hmeets⟩
      rw [h.untouched] at htouch
      simp at htouch
    have hend := hbehind e he
    have hle := e.start_le_stop
    simp only [TextEdit.Meets] at hclear
    omega
  have hmoved := h.moved
  rw [EditSet.mapOffset, EditSet.shiftAt_eq_totalDelta hends] at hmoved
  simp only [Option.ite_none_right_eq_some, Option.some.injEq] at hmoved
  have hsize := h.size_eq
  have hold := r.old.start_le_stop
  have hnew := r.new.start_le_stop
  rw [TextRange.size, TextRange.size] at hsize
  rw [TextRange.overlaps_iff]
  omega

/-- From a place behind the last edit on where an item begins in the old text and one in the new,
a reparse takes over all items. The new tree goes on with the parts of the old one. For each item
among them, of all reports on something that stood in it or that stands where it has moved to there
is only one, on the item as a whole. -/
theorem reparse_resynchronises {edits : EditSet} {text new : Text}
    (happly : edits.apply text = .ok new) (hnew : new.size ≤ Offset.greatest)
    {before after front back : List Part} {i j : Item}
    (hold : (parse text).parts = before ++ .item i :: after)
    (hbehind : ∀ e ∈ edits.edits.getLast?, e.stop < Token.sizeOfAll (Part.tokensOf before))
    (hat : (parse new).parts = front ++ .item j :: back)
    (hmap : edits.mapOffset (Token.sizeOfAll (Part.tokensOf before)) =
      some (Token.sizeOfAll (Part.tokensOf front))) :
    let result := reparse new (parse text) edits
    result.1.parts = front ++ .item i :: after ∧
      ∀ x ∈ Part.placed (Token.sizeOfAll (Part.tokensOf before)) (.item i :: after),
        ∃ moved : TextRange,
          (moved.start : Int) = x.2.start + EditSet.totalDelta edits.edits ∧
          (moved.stop : Int) = x.2.stop + EditSet.totalDelta edits.edits ∧
          (result.2.filter fun r => r.old.overlaps x.2 || r.new.overlaps moved) =
            [⟨.node x.1.kind, x.2, moved⟩] := by
  intro result
  have hedits := EditSet.apply_eq_ok_iff.mp happly
  have horder := hedits.inOrder.1
  have hends := EditSet.stop_lt_of_getLast? horder hbehind
  obtain ⟨htokens, hshift⟩ := tokens_behind hedits hnew hold hends hat hmap
  have hoffers := Reuse.offers_ofEdits hedits hnew hold hends hshift
  have hregular : ∀ p ∈ Part.item i :: after, p.Regular := fun p hp =>
    regular_parse text p (hold ▸ List.mem_append_right _ hp)
  -- the loop comes to the place, and goes on from there with the tokens of the old parts
  have hparts : (readParts (.ofEdits (parse text) edits) 0 (tokenize new)).map Prod.fst =
      front ++ .item j :: back := by
    rw [← hat, ← reparse_parse happly]
    rfl
  obtain ⟨earlier, hsplit, hfront, hearlier⟩ := Reuse.readParts_split
    ((SyntaxTree.whole_parse text).covers_ofEdits edits) hparts
  rw [Nat.zero_add, htokens] at hsplit
  rw [Nat.zero_add] at hearlier
  refine ⟨?_, ?_⟩
  · have hall : result.1.parts =
        (readParts (.ofEdits (parse text) edits) 0 (tokenize new)).map Prod.fst := rfl
    rw [hall, hsplit, List.map_append, hfront, Reuse.map_fst_of_offers hregular hoffers]
  · intro x hx
    obtain ⟨moved, hstart, hstop, hfilter⟩ := Reuse.reports_of_offers hregular hoffers hshift hx
    refine ⟨moved, hstart, hstop, ?_⟩
    have hle := Part.start_le_of_mem_placed hx
    have hsame : ∀ r ∈ result.2,
        (r.old.overlaps x.2 || r.new.overlaps moved) = r.new.overlaps moved := by
      intro r hr
      have hfollows : r.Follows edits := (Reuse.of_mem_readParts hr).1.follows horder
      cases hoverlaps : r.old.overlaps x.2 with
      | false => rfl
      | true =>
        have hbefore : ∀ e ∈ edits.edits, e.stop < x.2.start := fun e he =>
          Nat.lt_of_lt_of_le (hends e he) hle
        rw [hfollows.overlaps horder hbefore hstart hstop hoverlaps, Bool.true_or]
    have hresult : result.2 =
        (readParts (.ofEdits (parse text) edits) 0 (tokenize new)).flatMap Prod.snd := rfl
    rw [List.filter_congr hsame, hresult, hsplit, List.flatMap_append, List.filter_append, hfilter,
      Reuse.filter_overlaps_eq_nil, List.nil_append]
    intro r hr
    have := hearlier r hr
    omega

/-- Two edits in the first of three items. The last item was read up to the end of the text. -/
theorem reparse_resynchronises_last :
    let text : Text := "let a = 1\nlet b = 2\nf(3)".toList
    let new : Text := "let ba = \"é\"\nlet b = 2\nf(3)".toList
    let edits : EditSet := ⟨[.insert 4 "b".toList, ⟨.sized 8 1, "\"é\"".toList⟩]⟩
    let last : TextRange := .sized 20 4
    let moved : TextRange := .sized 24 4
    edits.apply text = .ok new ∧
      ((reparse new (parse text) edits).2.filter fun r =>
        r.old.overlaps last || r.new.overlaps moved) = [⟨.node .exprStmt, last, moved⟩] := by
  intro text new edits last moved
  have happly : edits.apply text = .ok new := by decide
  have hcut (ps : List Part) (n : Nat) (h : (Part.placed 0 ((ps.drop n).take 1)).length = 1) :
      ∃ i after, ps.drop n = .item i :: after ∧ ps = ps.take n ++ .item i :: after := by
    cases hdrop : ps.drop n with
    | nil => simp [hdrop, Part.placed] at h
    | cons p rest =>
      cases p with
      | trivia t => simp [hdrop, Part.placed] at h
      | item i => exact ⟨i, rest, rfl, by rw [← hdrop, List.take_append_drop]⟩
  obtain ⟨i, after, hdrop, hold⟩ := hcut (parse text).parts 2 (by decide +kernel)
  obtain ⟨j, back, -, hat⟩ := hcut (parse new).parts 2 (by decide +kernel)
  have hbefore : Token.sizeOfAll (Part.tokensOf ((parse text).parts.take 2)) = 10 := by
    decide +kernel
  have hfront : Token.sizeOfAll (Part.tokensOf ((parse new).parts.take 2)) = 14 := by
    decide +kernel
  obtain ⟨-, hreports⟩ := reparse_resynchronises happly (by decide) hold
    (by rw [hbefore]; decide) hat (by rw [hbefore, hfront]; decide)
  rw [hbefore, ← hdrop] at hreports
  have hmem : (.exprStmt, last) ∈ (Part.placed 10 ((parse text).parts.drop 2)).map
      fun x => (x.1.kind, x.2) := by decide +kernel
  obtain ⟨x, hx, heq⟩ := List.mem_map.mp hmem
  obtain ⟨hkind, hlast⟩ := Prod.mk.inj heq
  obtain ⟨range, hstart, hstop, hfilter⟩ := hreports x hx
  rw [hkind, hlast] at hfilter
  obtain rfl : range = moved := by
    rw [hlast] at hstart hstop
    have hdelta : EditSet.totalDelta edits.edits = 4 := by decide
    rw [hdelta] at hstart hstop
    exact TextRange.ext_iff.mpr ⟨Int.ofNat.inj hstart, Int.ofNat.inj hstop⟩
  exact ⟨happly, hfilter⟩

end IncrementalSyntax
