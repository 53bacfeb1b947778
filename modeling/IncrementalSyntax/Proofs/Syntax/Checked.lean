import IncrementalSyntax.Proofs.Syntax.Builder
import IncrementalSyntax.Proofs.Syntax.Lossless

/-!
Parse and reparse with everything checked that they take for granted: that sums and differences of
offsets are offsets, that ranges do not end before they start, that no more tokens are skipped than
there are and at least one, that the items are noted in order, that all nodes have ended when the
root is taken from the builder, and that the root is as long as the text. A checked reparse works
on what is kept of the older tree: its root and the list of its items. It meets no fault and makes
the same tree (`Checked.reparse_eq_ok`), with any text and edits; the main theorem puts this
together with what such trees are.
-/
namespace IncrementalSyntax

structure ParseResult where
  text : Text
  root : Element
  lookahead : List Lookahead

def SyntaxTree.result (tree : SyntaxTree) : ParseResult := ⟨tree.text, tree.root, tree.lookahead⟩

def Element.children : Element → List Element
  | .token _ => []
  | .node _ children => children

structure Placed where
  token : Token
  range : TextRange

/-- An old item that may be taken over, as it is listed: the node and where it stood, where the
bytes that it depends on ended, how many tokens it has, where the edits have moved it, and the old
tokens that its reading looked at. -/
structure Listed where
  kind : NodeKind
  children : List Element
  range : TextRange
  lookaheadEnd : Nat
  tokenCount : Nat
  newStart : Nat
  examined : List Token

namespace Placed

def place (start : Nat) : List Token → Except Fault (List Placed)
  | [] => .ok []
  | t :: ts => do
    let stop ← Offset.add start t.size
    let range ← TextRange.between start stop
    return ⟨t, range⟩ :: (← place stop ts)

end Placed

namespace Listed

/-- Lists a node that stands at `range` and depends on the bytes up to `lookaheadEnd`; its tokens
are found by their places. -/
def make (placed : List Placed) (kind : NodeKind) (children : List Element) (range : TextRange)
    (lookaheadEnd moved : Nat) : Listed :=
  let fromItem := placed.dropWhile fun p => p.range.start < range.start
  let own := fromItem.takeWhile fun p => p.range.stop ≤ range.stop
  let examined := fromItem.takeWhile fun p => p.range.start < lookaheadEnd
  ⟨kind, children, range, lookaheadEnd, own.length, moved, examined.map (·.token)⟩

/-- Lists the items among the children of an old root, from the child at `offset` on. The noted
items are passed along with the children: a node is an item if it stands where the next one does. -/
def list (edits : EditSet) (placed : List Placed) (offset : Nat) :
    List Lookahead → List Element → Except Fault (List Listed)
  | _, [] => .ok []
  | noted, e :: es => do
    let stop ← Offset.add offset e.size
    let range ← TextRange.between offset stop
    match e, noted with
    | .node kind children, entry :: later =>
      if entry.range = range then
        let depends ← TextRange.between entry.range.start entry.stop
        let listed ← list edits placed stop later es
        if edits.touches depends then return listed
        else
          match edits.mapOffset range.start with
          | some moved => return make placed kind children range entry.stop moved :: listed
          | none => return listed
      else list edits placed stop (entry :: later) es
    | _, _ => list edits placed stop noted es

def itemAt? (listed : List Listed) (start : Nat) (ts : List Token) : Option Listed :=
  match listed.find? fun old => old.newStart = start with
  | some old => if old.examined.isPrefixOf ts then some old else none
  | none => none

/-- Where a listed item stands and what it depends on, once it is taken over at `start`. -/
def moveTo (old : Listed) (start : Nat) : Except Fault Lookahead := do
  let range ← TextRange.between start (← Offset.add start old.range.size)
  let reach ← Offset.sub old.lookaheadEnd old.range.start
  return ⟨range, ← Offset.add start reach⟩

end Listed

/-- Notes an item, which must not begin before the end of the one noted last. -/
def Lookahead.note (noted : List Lookahead) (entry : Lookahead) : Except Fault (List Lookahead) :=
  match noted.getLast? with
  | some last =>
    if last.range.stop ≤ entry.range.start then .ok (noted ++ [entry]) else .error .broken
  | none => .ok [entry]

namespace Checked

/-- Reads the tokens of a text of `total` bytes into a builder, and notes the items. The tokens are
the last ones of the text, so what is left of it says where they begin. -/
def readAll (listed : List Listed) (total : Nat) (b : Builder) (noted : List Lookahead) :
    List Token → Except Fault (Builder × List Lookahead)
  | [] => .ok (b, noted)
  | t :: ts => do
    let start ← Offset.sub total (Token.sizeOfAll (t :: ts))
    if t.kind.isTrivia then readAll listed total (b.push (.token t)) noted ts
    else
      match Listed.itemAt? listed start (t :: ts) with
      | some old =>
        let noted ← Lookahead.note noted (← old.moveTo start)
        if 0 < old.tokenCount ∧ old.tokenCount ≤ (t :: ts).length then
          readAll listed total (b.push (.node old.kind old.children)) noted
            (ts.drop (old.tokenCount - 1))
        else .error .missing
      | none =>
        let (b, entry, rest) ← Cursor.item total start t ts b
        let noted ← Lookahead.note noted entry
        if rest.length ≤ ts.length then readAll listed total b noted rest
        else .error .broken
termination_by ts => ts.length

def read (listed : List Listed) (text : Text) : Except Fault ParseResult := do
  let (b, lookahead) ← readAll listed text.size (Builder.empty.startNode .sourceFile) []
    (tokenize text)
  let root ← (← b.finishNode).finish
  if root.size = text.size then return ⟨text, root, lookahead⟩ else .error .broken

def parse (text : Text) : Except Fault ParseResult := read [] text

def reparse (text : Text) (prior : ParseResult) (edits : EditSet) : Except Fault ParseResult := do
  let placed ← Placed.place 0 prior.root.tokens
  read (← Listed.list edits placed 0 prior.lookahead prior.root.children) text

def reparseAll (result : ParseResult) : List (Text × EditSet) → Except Fault (List ParseResult)
  | [] => .ok [result]
  | (text, edits) :: steps => do
    let next ← reparse text result edits
    return result :: (← reparseAll next steps)

end Checked

namespace Placed

def all (start : Nat) : List Token → List Placed
  | [] => []
  | t :: ts => ⟨t, .sized start t.size⟩ :: all (start + t.size) ts

theorem place_eq_ok {start : Nat} {ts : List Token}
    (h : start + Token.sizeOfAll ts ≤ Offset.greatest) : place start ts = .ok (all start ts) := by
  induction ts generalizing start with
  | nil => rfl
  | cons t ts ih =>
    rw [Token.sizeOfAll_cons, ← Nat.add_assoc] at h
    have hle : start + t.size ≤ Offset.greatest := by omega
    rw [place, Offset.add_eq_ok hle, ok_bind, TextRange.between_add_size, ok_bind, ih h]
    rfl

theorem all_append (start : Nat) (ts us : List Token) :
    all start (ts ++ us) = all start ts ++ all (start + Token.sizeOfAll ts) us := by
  induction ts generalizing start with
  | nil => rfl
  | cons t ts ih => simp [all, ih, Nat.add_assoc]

@[simp] theorem length_all (start : Nat) (ts : List Token) : (all start ts).length = ts.length := by
  induction ts generalizing start with
  | nil => rfl
  | cons t ts ih => simp [all, ih]

/-- Tokens with characters begin before the place behind all of them, and end there or before. -/
theorem bounds_of_mem_all {start : Nat} {ts : List Token} (hpos : ∀ t ∈ ts, 0 < t.size)
    {p : Placed} (h : p ∈ all start ts) :
    p.range.start < start + Token.sizeOfAll ts ∧ p.range.stop ≤ start + Token.sizeOfAll ts := by
  induction ts generalizing start with
  | nil => simp [all] at h
  | cons t ts ih =>
    have ht := hpos t (by simp)
    rw [Token.sizeOfAll_cons]
    rcases List.mem_cons.mp h with rfl | h
    · simp only [TextRange.sized_start, TextRange.sized_stop]
      omega
    · have := ih (fun u hu => hpos u (by simp [hu])) h
      omega

/-- The tokens from a place on, found by looking for the first that does not begin before it. -/
theorem dropWhile_append_all {before : List Placed} {start : Nat}
    (hbefore : ∀ p ∈ before, p.range.start < start) (ts : List Token) :
    (before ++ all start ts).dropWhile (fun p => p.range.start < start) = all start ts := by
  rw [List.dropWhile_append_of_pos (by simpa using hbefore)]
  cases ts with
  | nil => rfl
  | cons t ts => simp [all]

/-- The tokens of an item, found by looking for the first that does not end within it. -/
theorem takeWhile_stop_le {start : Nat} {ts us : List Token} (hpos : ∀ t ∈ ts ++ us, 0 < t.size) :
    (all start (ts ++ us)).takeWhile (fun p => p.range.stop ≤ start + Token.sizeOfAll ts) =
      all start ts := by
  have hts : ∀ t ∈ ts, 0 < t.size := fun t ht => hpos t (List.mem_append_left _ ht)
  rw [all_append, List.takeWhile_append_of_pos fun p hp => by
    simpa using (bounds_of_mem_all hts hp).2]
  cases us with
  | nil => simp [all]
  | cons u us =>
    have hu := hpos u (by simp)
    have hstop : ¬ start + Token.sizeOfAll ts + u.size ≤ start + Token.sizeOfAll ts := by omega
    simp [all, hstop]

/-- The tokens that begin before a place are those within the bytes up to it. -/
theorem map_token_takeWhile (start stop : Nat) (ts : List Token) :
    ((all start ts).takeWhile fun p => p.range.start < stop).map (·.token) =
      Reuse.within (stop - start) ts := by
  induction ts generalizing start with
  | nil => rfl
  | cons t ts ih =>
    rw [all, Reuse.within]
    by_cases h : start < stop
    · rw [if_neg (by omega), Nat.sub_sub, ← ih]
      simp [h]
    · rw [if_pos (by omega)]
      simp [h]

end Placed

namespace Listed

def ofOld (old : OldItem) : Listed :=
  ⟨old.item.kind, old.item.children, .sized old.oldStart old.item.size,
    old.oldStart + old.item.reach, old.item.tokens.length, old.newStart, old.examined⟩

/-- The tokens in front of an item, and those of the parts behind it, do not matter. -/
theorem make_eq_ofOld {before : List Placed} {start : Nat} {i : Item} {ps : List Part}
    (hbefore : ∀ p ∈ before, p.range.start < start)
    (hpos : ∀ t ∈ Part.tokensOf (.item i :: ps), 0 < t.size) (moved : Nat) :
    make (before ++ Placed.all start (Part.tokensOf (.item i :: ps))) i.kind i.children
        (.sized start i.size) (start + i.reach) moved =
      ofOld ⟨i, start, moved, Reuse.within i.reach (Part.tokensOf (.item i :: ps))⟩ := by
  let range : TextRange := .sized start i.size
  have hdrop : (before ++ Placed.all start (Part.tokensOf (.item i :: ps))).dropWhile
      (fun p => p.range.start < range.start) = Placed.all start (Part.tokensOf (.item i :: ps)) :=
    Placed.dropWhile_append_all hbefore _
  have hown : (Placed.all start (Part.tokensOf (.item i :: ps))).takeWhile
      (fun p => p.range.stop ≤ range.stop) = Placed.all start i.tokens := by
    simp only [range, TextRange.sized, Item.size_eq]
    exact Placed.takeWhile_stop_le hpos
  rw [make, hdrop, hown, Placed.length_all, Placed.map_token_takeWhile, Nat.add_sub_cancel_left]
  rfl

/-- The items of an old tree are listed without a fault. `before` are the tokens in front of the
parts that are still to be listed. -/
theorem list_eq_ok (edits : EditSet) {before : List Placed} {start : Nat} {ps : List Part}
    (hbefore : ∀ p ∈ before, p.range.start < start)
    (hpos : ∀ t ∈ Part.tokensOf ps, 0 < t.size)
    (hsize : start + Token.sizeOfAll (Part.tokensOf ps) ≤ Offset.greatest) :
    list edits (before ++ Placed.all start (Part.tokensOf ps)) start
        (SyntaxTree.lookaheadFrom start ps) (ps.map Part.element) =
      .ok ((Reuse.untouchedItems edits start ps).map ofOld) := by
  induction ps generalizing before start with
  | nil => rfl
  | cons p ps ih =>
    have hown : ∀ t ∈ p.tokens, 0 < t.size := fun t ht => hpos t (by simp [ht])
    rw [Part.tokensOf_cons, Token.sizeOfAll_append, ← Nat.add_assoc] at hsize
    have hbefore' : ∀ q ∈ before ++ Placed.all start p.tokens,
        q.range.start < start + Token.sizeOfAll p.tokens := by
      intro q hq
      rcases List.mem_append.mp hq with hq | hq
      · have := hbefore q hq
        omega
      · exact (Placed.bounds_of_mem_all hown hq).1
    have hlater := ih hbefore' (fun t ht => hpos t (by simp [ht])) hsize
    rw [List.append_assoc, ← Placed.all_append, ← Part.tokensOf_cons] at hlater
    have hle : start + Token.sizeOfAll p.tokens ≤ Offset.greatest := by omega
    have hstop : Offset.add start p.element.size = .ok (start + Token.sizeOfAll p.tokens) := by
      rw [Element.size_eq]
      exact Offset.add_eq_ok hle
    rw [List.map_cons, list, hstop, ok_bind, TextRange.between_add_size, ok_bind]
    cases p with
    | trivia t => simpa [Part.element, SyntaxTree.lookaheadFrom, Reuse.untouchedItems] using hlater
    | item i =>
      have hsame : Token.sizeOfAll (Part.item i).tokens = i.size := i.size_eq.symm
      rw [hsame] at hlater ⊢
      simp only [Part.element, Item.element, SyntaxTree.lookaheadFrom, Reuse.untouchedItems,
        if_true, TextRange.sized_start, TextRange.between_add_size, ok_bind, hlater]
      by_cases htouch : edits.touches (.sized start i.reach)
      · simp only [htouch]
        rfl
      · simp only [htouch]
        cases edits.mapOffset start with
        | none => rfl
        | some moved =>
          simp only [make_eq_ofOld hbefore hpos]
          rfl

theorem itemAt?_map_ofOld (reuse : Reuse) (start : Nat) (ts : List Token) :
    itemAt? (reuse.items.map ofOld) start ts = (reuse.itemAt? start ts).map ofOld := by
  rw [itemAt?, Reuse.itemAt?, List.find?_map]
  have hplace : ((fun l : Listed => decide (l.newStart = start)) ∘ ofOld) =
      fun old => decide (old.newStart = start) := rfl
  rw [hplace]
  cases reuse.items.find? fun old => old.newStart = start with
  | none => rfl
  | some old =>
    simp only [Option.map_some, ofOld]
    split <;> rfl

theorem moveTo_ofOld {old : OldItem} {start : Nat}
    (h : start + old.item.reach ≤ Offset.greatest) :
    (ofOld old).moveTo start =
      .ok ⟨.sized start old.item.size, start + old.item.reach⟩ := by
  have hsize : (ofOld old).range.size = old.item.size := Nat.add_sub_cancel_left _ _
  have hstop : start + old.item.size ≤ Offset.greatest := by
    rw [Item.reach] at h
    omega
  have hreach : Offset.sub (ofOld old).lookaheadEnd (ofOld old).range.start =
      .ok old.item.reach := Offset.sub_eq_of_add (Nat.add_comm _ _)
  rw [moveTo, hsize, Offset.add_eq_ok hstop, ok_bind, TextRange.between_add_size, ok_bind, hreach,
    ok_bind, Offset.add_eq_ok h]
  rfl

end Listed

theorem Lookahead.note_eq_ok {noted : List Lookahead} {entry : Lookahead}
    (h : ∀ last ∈ noted.getLast?, last.range.stop ≤ entry.range.start) :
    note noted entry = .ok (noted ++ [entry]) := by
  rw [note]
  split
  next last hlast => rw [if_pos (h last hlast)]
  next hnone => rw [List.getLast?_eq_none_iff.mp hnone]; rfl

namespace Builder

@[simp] theorem pushAll_nil (b : Builder) : b.pushAll [] = b := by simp [pushAll]

@[simp] theorem push_pushAll (b : Builder) (e : Element) (es : List Element) :
    (b.push e).pushAll es = b.pushAll (e :: es) := by simp [push, pushAll]

end Builder

namespace Checked

/-- The loop over the tokens of a text meets no fault and makes the parts that `readParts` makes.
The invariant is that the item noted last ends where the tokens begin or before. -/
theorem readAll_eq_ok {reuse : Reuse} (hcovers : reuse.Covers) {total : Nat}
    (htotal : total ≤ Offset.greatest) {start : Nat} {ts : List Token}
    (hleft : start + Token.sizeOfAll ts = total) (b : Builder) (noted : List Lookahead)
    (hnoted : ∀ last ∈ noted.getLast?, last.range.stop ≤ start) :
    readAll (reuse.items.map .ofOld) total b noted ts =
      .ok (b.pushAll (((readParts reuse start ts).map Prod.fst).map Part.element),
        noted ++ SyntaxTree.lookaheadFrom start ((readParts reuse start ts).map Prod.fst)) := by
  revert b noted
  induction start, ts using readParts.induct reuse with
  | case1 start => simp [readAll, readParts, SyntaxTree.lookaheadFrom]
  | case2 start t ts htrivia ih =>
    intro b noted hnoted
    have hrest := hleft
    rw [Token.sizeOfAll_cons, ← Nat.add_assoc] at hrest
    rw [readAll, Offset.sub_eq_of_add hleft, ok_bind, if_pos htrivia, readParts, if_pos htrivia,
      ih hrest _ noted
        (fun last hlast => Nat.le_trans (hnoted last hlast) (Nat.le_add_right _ _))]
    simp [Part.element, SyntaxTree.lookaheadFrom]
  | case3 start t ts htrivia old hold ih =>
    intro b noted hnoted
    obtain ⟨hmem, -, hexamined⟩ := Reuse.mem_of_itemAt? hold
    obtain ⟨hne, hbegins, hreach⟩ := hcovers old hmem
    have hcount : 0 < (Listed.ofOld old).tokenCount ∧
        (Listed.ofOld old).tokenCount ≤ (t :: ts).length :=
      ⟨List.length_pos_iff.mpr hne, (hbegins.trans hexamined).length_le⟩
    have hreach' := Nat.le_trans hreach (Token.sizeOfAll_le_of_isPrefix hexamined)
    have hskipped : start + old.item.size +
        Token.sizeOfAll (ts.drop (old.item.tokens.length - 1)) = total := by
      rw [← hleft, ← Reuse.tokens_append_drop hcovers hold, Token.sizeOfAll_append, Item.size_eq]
      omega
    have hahead : start + old.item.reach ≤ Offset.greatest := by omega
    rw [readAll, Offset.sub_eq_of_add hleft, ok_bind, if_neg htrivia, Listed.itemAt?_map_ofOld,
      hold, readParts, if_neg htrivia, hold]
    simp only [Option.map_some]
    rw [Listed.moveTo_ofOld hahead, ok_bind, Lookahead.note_eq_ok hnoted, ok_bind, if_pos hcount]
    rw [Listed.ofOld, ih hskipped _ _ (by simp)]
    simp [Part.element, Item.element, SyntaxTree.lookaheadFrom]
  | case4 start t ts htrivia hold reading ih =>
    intro b noted hnoted
    have hafter := Reading.add_size_rest hleft
    have hfewer := Reading.length_rest_ofTokens_le t ts
    rw [readAll, Offset.sub_eq_of_add hleft, ok_bind, if_neg htrivia, Listed.itemAt?_map_ofOld,
      hold, readParts, if_neg htrivia, hold]
    simp only [Option.map_none, Cursor.item_ofTokens htotal hleft, ok_bind]
    rw [Lookahead.note_eq_ok hnoted, ok_bind, if_pos hfewer, ih hafter _ _ (by simp [reading])]
    simp [Part.element, SyntaxTree.lookaheadFrom, reading]

/-- A text is read without a fault, and the result is kept of the tree that the loop makes. -/
theorem read_eq_ok {reuse : Reuse} (hcovers : reuse.Covers) {text : Text}
    (hsize : text.size ≤ Offset.greatest) :
    read (reuse.items.map .ofOld) text =
      .ok (SyntaxTree.result ⟨text, (readParts reuse 0 (tokenize text)).map Prod.fst⟩) := by
  have hleft : 0 + Token.sizeOfAll (tokenize text) = text.size := by
    rw [Nat.zero_add, Token.sizeOfAll_tokenize]
  let tree : SyntaxTree := ⟨text, (readParts reuse 0 (tokenize text)).map Prod.fst⟩
  have hwhole : tree.Whole := SyntaxTree.whole_of_covers hcovers text
  have hroot : tree.root.size = text.size := hwhole.size_root
  have hfinish (es : List Element) :
      ((Builder.empty.startNode .sourceFile).pushAll es).finishNode =
        .ok ⟨[], [.node .sourceFile es]⟩ := by
    simp [Builder.empty, Builder.startNode, Builder.pushAll, Builder.finishNode]
  rw [read, readAll_eq_ok hcovers hsize hleft _ _ (by simp), ok_bind]
  simp only [hfinish, ok_bind]
  exact if_pos hroot

theorem parse_eq_ok {text : Text} (hsize : text.size ≤ Offset.greatest) :
    parse text = .ok (IncrementalSyntax.parse text).result :=
  read_eq_ok Reuse.covers_none hsize

/-- The step lemma: a checked reparse of what is kept of a whole tree meets no fault. -/
theorem reparse_eq_ok {tree : SyntaxTree} (hwhole : tree.Whole)
    (hprior : tree.text.size ≤ Offset.greatest) {text : Text} (hsize : text.size ≤ Offset.greatest)
    (edits : EditSet) :
    reparse text tree.result edits = .ok (IncrementalSyntax.reparse text tree edits).1.result := by
  have hleft : 0 + Token.sizeOfAll tree.tokens ≤ Offset.greatest := by
    rwa [Nat.zero_add, hwhole.sizeOfAll_tokens]
  have hlist : Listed.list edits (Placed.all 0 tree.tokens) 0 tree.lookahead
      tree.root.children = .ok ((Reuse.ofEdits tree edits).items.map .ofOld) :=
    @Listed.list_eq_ok edits [] 0 tree.parts (by simp) hwhole.size_pos hleft
  rw [reparse, SyntaxTree.result, SyntaxTree.tokens_root, Placed.place_eq_ok hleft, ok_bind, hlist,
    ok_bind]
  exact read_eq_ok (hwhole.covers_ofEdits edits) hsize

/-- The run lemma: no checked reparse on a chain meets a fault. -/
theorem reparseAll_eq_ok {tree : SyntaxTree} (hwhole : tree.Whole)
    (hprior : tree.text.size ≤ Offset.greatest) {steps : List (Text × EditSet)}
    (hsizes : ∀ step ∈ steps, step.1.size ≤ Offset.greatest) :
    reparseAll tree.result steps =
      .ok ((IncrementalSyntax.reparseAll tree steps).map SyntaxTree.result) := by
  induction steps generalizing tree with
  | nil => rfl
  | cons step steps ih =>
    obtain ⟨text, edits⟩ := step
    have hsize := hsizes (text, edits) (by simp)
    have hlater := ih (hwhole.reparse text edits) hsize fun s hs => hsizes s (by simp [hs])
    rw [reparseAll, reparse_eq_ok hwhole hprior hsize, ok_bind, hlater]
    rfl

end Checked

/-- A tree that keeps its text: its leaves are the tokens of the text, in order, and its items are
listed in order, each with what it depends on inside the text. -/
structure SyntaxTree.Lossless (tree : SyntaxTree) : Prop where
  leaves : tree.root.tokens = tokenize tree.text
  text_leaves : Token.textOfAll tree.root.tokens = tree.text
  kind_root : tree.root.kind = .node .sourceFile
  size_root : tree.root.size = tree.text.size
  inOrder : tree.lookahead.Pairwise fun a b => a.range.stop ≤ b.range.start
  inside : ∀ a ∈ tree.lookahead, a.range.stop ≤ a.stop ∧ a.stop ≤ tree.text.size

theorem SyntaxTree.Whole.lossless {tree : SyntaxTree} (h : tree.Whole) : tree.Lossless where
  leaves := by rw [tokens_root, h.tokens]
  text_leaves := by rw [tokens_root, h.tokens, textOfAll_tokenize]
  kind_root := rfl
  size_root := h.size_root
  inOrder := lookaheadFrom_inOrder 0 tree.parts
  inside := by
    intro a ha
    have hstop : a.range.stop ≤ a.stop ∧ a.stop ≤ 0 + Token.sizeOfAll tree.tokens :=
      stop_le_of_mem_lookaheadFrom h.sound ha
    rwa [Nat.zero_add, h.sizeOfAll_tokens] at hstop

theorem map_text_reparseAll (tree : SyntaxTree) (steps : List (Text × EditSet)) :
    (reparseAll tree steps).map SyntaxTree.text = tree.text :: steps.map Prod.fst := by
  induction steps generalizing tree with
  | nil => rfl
  | cons step steps ih => exact congrArg (tree.text :: ·) (ih _)

/-- Along any chain of reparses, with any texts and any edits, nothing that is checked ever fails,
and every tree keeps its text. -/
theorem reparseAll_lossless (text : Text) (steps : List (Text × EditSet))
    (hsize : text.size ≤ Offset.greatest)
    (hsizes : ∀ step ∈ steps, step.1.size ≤ Offset.greatest) :
    (Checked.parse text >>= fun first => Checked.reparseAll first steps) =
        .ok ((reparseAll (parse text) steps).map SyntaxTree.result) ∧
      (reparseAll (parse text) steps).map SyntaxTree.text = text :: steps.map Prod.fst ∧
      ∀ tree ∈ reparseAll (parse text) steps, tree.Lossless := by
  refine ⟨?_, map_text_reparseAll _ steps, ?_⟩
  · rw [Checked.parse_eq_ok hsize, ok_bind]
    exact Checked.reparseAll_eq_ok (SyntaxTree.whole_parse text) hsize hsizes
  · intro tree hmem
    exact ((SyntaxTree.whole_parse text).of_mem_reparseAll hmem).lossless

/-- Edits that claim nothing has changed, and edits beyond the end of the text. -/
theorem reparseAll_lossless_untruthful :
    let text : Text := "f(1)\nlet b = 2 // é".toList
    let steps : List (Text × EditSet) :=
      [("let b = 2\n) f(".toList, .empty), ("f(1)".toList, ⟨[.delete (.sized 90 7)]⟩)]
    ¬ Truthful text steps ∧
      (Checked.parse text >>= fun first => Checked.reparseAll first steps) =
        .ok ((reparseAll (parse text) steps).map SyntaxTree.result) ∧
      ∀ tree ∈ reparseAll (parse text) steps, tree.Lossless := by
  intro text steps
  obtain ⟨hchecked, -, hlossless⟩ := reparseAll_lossless text steps (by decide) (by decide)
  exact ⟨by decide, hchecked, hlossless⟩

end IncrementalSyntax
