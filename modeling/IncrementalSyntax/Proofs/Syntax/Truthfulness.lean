import IncrementalSyntax.Proofs.Edit.Distance
import IncrementalSyntax.Proofs.Syntax.Places

/-!
The reports of a reparse are true and say nothing twice, whatever the new text is. The loop reports
on the tokens and the items of the new tree in their order (`Reuse.pairwise_readParts`), and on each
where it stands (`Reuse.reportsOn_readParts`). What two reports are on stood apart in the old text
as it does in the new one, since no edit touches it (`Reused.Follows.precedes`), so the reports go
through the old text in order as well.
-/
namespace IncrementalSyntax

/-- The ranges of the second report begin behind those of the first one. -/
structure Reused.Precedes (a b : Reused) : Prop where
  new_start_lt : a.new.start < b.new.start
  new_stop_le : a.new.stop ≤ b.new.start
  old_start_lt : a.old.start < b.old.start
  old_stop_le : a.old.stop ≤ b.old.start

/-- Two reports that follow the edits are in order in the old text if they are in the new one. -/
theorem Reused.Follows.precedes {edits : EditSet} (horder : EditSet.InOrder edits.edits)
    {a b : Reused} (ha : a.Follows edits) (hb : b.Follows edits) (hpos : 0 < a.new.size)
    (hnew : a.new.stop ≤ b.new.start) : a.Precedes b := by
  have hsize := ha.size_eq
  have hle := a.new.start_le_stop
  have hle' := a.old.start_le_stop
  simp only [TextRange.size] at hsize hpos
  have hold : a.old.stop ≤ b.old.start := by
    refine Nat.le_of_not_lt fun hlt => ?_
    by_cases hin : a.old.start ≤ b.old.start
    · -- the second one would have stood in the first one, and would stand there now
      have hplace := EditSet.mapOffset_within horder ha.untouched ha.moved hin (by omega) hb.moved
      omega
    · by_cases hbehind : b.old.stop ≤ a.old.start
      · have hplace :=
          EditSet.mapOffset_behind_untouched horder hb.untouched hb.moved hbehind ha.moved
        omega
      · have hin' : b.old.start ≤ a.old.start := by omega
        have hplace :=
          EditSet.mapOffset_within horder hb.untouched hb.moved hin' (by omega) ha.moved
        omega
  exact ⟨by omega, hnew, by omega, hold⟩

namespace Reuse

variable {reuse : Reuse} {r : Reused}

theorem pairwise_tokensAt (reuse : Reuse) (start : Nat) (ts : List Token) :
    (reuse.tokensAt start ts).Pairwise fun a b => a.new.stop ≤ b.new.start := by
  induction ts generalizing start with
  | nil => exact List.Pairwise.nil
  | cons t ts ih =>
    rw [tokensAt]
    cases hreport : reuse.tokenAt? start t with
    | none => exact ih _
    | some a =>
      obtain ⟨old, -, -, -, rfl⟩ := of_tokenAt? hreport
      exact List.pairwise_cons.mpr ⟨fun b hb => (of_mem_tokensAt hb).2.1, ih _⟩

/-- The loop reports on what it makes in order. -/
theorem pairwise_readParts (reuse : Reuse) (start : Nat) (ts : List Token) :
    ((readParts reuse start ts).flatMap Prod.snd).Pairwise fun a b => a.new.stop ≤ b.new.start := by
  induction start, ts using readParts.induct reuse with
  | case1 start => simp [readParts]
  | case2 start t ts htrivia ih =>
    rw [readParts, if_pos htrivia, List.flatMap_cons]
    refine List.pairwise_append.mpr ⟨pairwise_tokensAt _ _ _, ih, ?_⟩
    intro a ha b hb
    have hstop := (of_mem_tokensAt ha).2.2
    have hstart := (of_mem_readParts hb).2
    simp only [Token.sizeOfAll_cons, Token.sizeOfAll_nil] at hstop
    omega
  | case3 start t ts htrivia old hold ih =>
    rw [readParts, if_neg htrivia, hold, List.flatMap_cons]
    refine List.pairwise_append.mpr ⟨List.pairwise_singleton _ _, ih, ?_⟩
    intro a ha b hb
    obtain rfl := List.mem_singleton.mp ha
    exact (of_mem_readParts hb).2
  | case4 start t ts htrivia hold reading ih =>
    rw [readParts, if_neg htrivia, hold, List.flatMap_cons]
    refine List.pairwise_append.mpr ⟨pairwise_tokensAt _ _ _, ih, ?_⟩
    intro a ha b hb
    have hstop := (of_mem_tokensAt ha).2.2
    have hstart := (of_mem_readParts hb).2
    rw [← Item.size_eq] at hstop
    exact Nat.le_trans hstop hstart

/-- The report is on a token of `ts`, or on an item of `ps` that was taken over; both begin at
`start`, and the report says where its token or item stands among them. -/
inductive ReportsOn (reuse : Reuse) (start : Nat) (ts : List Token) (ps : List Part) (r : Reused) :
    Prop where
  | token {us vs : List Token} {t : Token} (cut : ts = us ++ t :: vs)
      (found : reuse.tokenAt? (start + Token.sizeOfAll us) t = some r)
  | item {front back : List Part} {old : OldItem} (cut : ps = front ++ .item old.item :: back)
      (listed : old ∈ reuse.items)
      (place : old.newStart = start + Token.sizeOfAll (Part.tokensOf front))
      (eq : r = old.report old.newStart)

theorem exists_of_mem_tokensAt {start : Nat} {ts : List Token} (h : r ∈ reuse.tokensAt start ts) :
    ∃ us t vs, ts = us ++ t :: vs ∧
      reuse.tokenAt? (start + Token.sizeOfAll us) t = some r := by
  induction ts generalizing start with
  | nil => simp [tokensAt] at h
  | cons t ts ih =>
    rw [tokensAt] at h
    rcases List.mem_append.mp h with h | h
    · exact ⟨[], t, ts, rfl, Option.mem_toList.mp h⟩
    · obtain ⟨us, u, vs, rfl, hfound⟩ := ih h
      rw [Nat.add_assoc] at hfound
      exact ⟨t :: us, u, vs, rfl, hfound⟩

/-- A report on the tokens of a first part. -/
theorem ReportsOn.of_mem_tokensAt {start : Nat} {p : Part} (h : r ∈ reuse.tokensAt start p.tokens)
    (ts : List Token) (ps : List Part) : reuse.ReportsOn start (p.tokens ++ ts) ps r := by
  obtain ⟨us, t, vs, hcut, hfound⟩ := exists_of_mem_tokensAt h
  have hall : p.tokens ++ ts = us ++ t :: (vs ++ ts) := by
    rw [hcut, List.append_assoc, List.cons_append]
  exact .token hall hfound

/-- A report on what stands behind a first part. -/
theorem ReportsOn.cons {start n : Nat} {p : Part} {ts : List Token} {ps : List Part}
    (hn : n = Token.sizeOfAll p.tokens) (h : reuse.ReportsOn (start + n) ts ps r) :
    reuse.ReportsOn start (p.tokens ++ ts) (p :: ps) r := by
  subst hn
  rcases h with ⟨rfl, found⟩ | ⟨rfl, listed, place, eq⟩
  · rw [Nat.add_assoc, ← Token.sizeOfAll_append] at found
    exact .token (List.append_assoc _ _ _).symm found
  · rw [Nat.add_assoc, ← Token.sizeOfAll_append, ← Part.tokensOf_cons] at place
    exact .item (List.cons_append).symm listed place eq

/-- The loop reports on nothing but the tokens that it reads and the items that it takes over. -/
theorem reportsOn_readParts (hcovers : reuse.Covers) {start : Nat} {ts : List Token}
    (h : r ∈ (readParts reuse start ts).flatMap Prod.snd) :
    reuse.ReportsOn start ts ((readParts reuse start ts).map Prod.fst) r := by
  induction start, ts using readParts.induct reuse with
  | case1 start => simp [readParts] at h
  | case2 start t ts htrivia ih =>
    rw [readParts, if_pos htrivia, List.flatMap_cons] at h
    rw [readParts, if_pos htrivia]
    have htokens : t :: ts = (Part.trivia t).tokens ++ ts := by simp
    rw [htokens]
    rcases List.mem_append.mp h with h | h
    · exact .of_mem_tokensAt (by simpa using h) _ _
    · exact (ih h).cons (by simp)
  | case3 start t ts htrivia old hold ih =>
    rw [readParts, if_neg htrivia, hold, List.flatMap_cons] at h
    rw [readParts, if_neg htrivia, hold]
    rcases List.mem_append.mp h with h | h
    · obtain ⟨hmem, hplace, -⟩ := mem_of_itemAt? hold
      subst hplace
      exact .item (List.nil_append _).symm hmem rfl (List.mem_singleton.mp h)
    · rw [← tokens_append_drop hcovers hold]
      exact (ih h).cons (p := .item old.item) old.item.size_eq
  | case4 start t ts htrivia hold reading ih =>
    rw [readParts, if_neg htrivia, hold, List.flatMap_cons] at h
    rw [readParts, if_neg htrivia, hold]
    have htokens : (Part.item reading.item).tokens ++ reading.rest = t :: ts := by
      rw [Part.tokens_item, Reading.tokens_item, Reading.tokens_ofTokens]
    rw [← htokens]
    rcases List.mem_append.mp h with h | h
    · exact .of_mem_tokensAt h _ _
    · exact (ih h).cons (p := .item reading.item) reading.item.size_eq

/-- Where a listed token stood. -/
theorem exists_of_mem_untouchedTokens {edits : EditSet} {start : Nat} {ts : List Token}
    {old : OldToken} (h : old ∈ untouchedTokens edits start ts) :
    ∃ us vs, ts = us ++ old.token :: vs ∧ old.oldStart = start + Token.sizeOfAll us := by
  induction ts generalizing start with
  | nil => simp [untouchedTokens] at h
  | cons t ts ih =>
    have hlater (h : old ∈ untouchedTokens edits (start + t.size) ts) :
        ∃ us vs, t :: ts = us ++ old.token :: vs ∧
          old.oldStart = start + Token.sizeOfAll us := by
      obtain ⟨us, vs, rfl, hstart⟩ := ih h
      exact ⟨t :: us, vs, rfl, by rw [hstart, Token.sizeOfAll_cons, Nat.add_assoc]⟩
    rw [untouchedTokens] at h
    split at h
    next => exact hlater h
    next =>
      split at h
      next =>
        rcases List.mem_cons.mp h with rfl | h
        · exact ⟨[], ts, rfl, rfl⟩
        · exact hlater h
      next => exact hlater h

end Reuse

namespace Reused

variable {prior : SyntaxTree} {edits : EditSet} {r : Reused}

/-- What a report says of the old tree: it had a token, or a child of its root, of the kind at the
old range, and no edit reaches that range, or the bytes that the child depends on. -/
inductive Stood (prior : SyntaxTree) (edits : EditSet) (r : Reused) : Prop where
  | token {depth : Nat} {k : TokenKind} {text : Text} (kind : r.kind = .token k)
      (row : ⟨depth, .token k, r.old, some text⟩ ∈ prior.rows)
      (clear : ∀ e ∈ edits.edits, e.stop < r.old.start ∨ r.old.stop < e.start)
  | item {k : NodeKind} {entry : Lookahead} (kind : r.kind = .node k)
      (row : ⟨1, .node k, r.old, none⟩ ∈ prior.rows) (listed : entry ∈ prior.lookahead)
      (range : entry.range = r.old)
      (clear : ∀ e ∈ edits.edits, e.stop < r.old.start ∨ entry.stop < e.start)

/-- The report is true: its token or item stood where the report says, was moved by the edits to
where it stands now, and is the same text. -/
structure Holds (prior new : SyntaxTree) (edits : EditSet) (r : Reused) : Prop where
  stood : r.Stood prior edits
  moved : edits.mapOffset r.old.start = some r.new.start
  same_text : ∃ m, prior.text.slice r.old.start r.old.stop = .ok m ∧
    new.text.slice r.new.start r.new.stop = .ok m
  stands : ∃ row ∈ new.rows, row.kind = r.kind ∧ row.range = r.new

theorem holds_token (hprior : prior.Whole) (horder : EditSet.InOrder edits.edits)
    {new : SyntaxTree} (hnew : new.Whole) {us vs : List Token} {t : Token}
    (hcut : new.tokens = us ++ t :: vs)
    (hfound : (Reuse.ofEdits prior edits).tokenAt? (Token.sizeOfAll us) t = some r) :
    r.Holds prior new edits ∧ 0 < r.new.size := by
  obtain ⟨old, hmem, hplace, rfl, rfl⟩ := Reuse.of_tokenAt? hfound
  obtain ⟨htouch, hmoved⟩ := Reuse.of_mem_untouchedTokens hmem
  obtain ⟨us₀, vs₀, hcut₀, hstart⟩ := Reuse.exists_of_mem_untouchedTokens hmem
  rw [Nat.zero_add] at hstart
  obtain ⟨depth₀, hrow₀⟩ := prior.row_of_token hcut₀
  obtain ⟨depth, hrow⟩ := new.row_of_token hcut
  rw [← hstart] at hrow₀
  refine ⟨⟨.token rfl hrow₀ (EditSet.clear_of_not_touches horder htouch), ?_, ?_, ?_⟩, ?_⟩
  · exact hplace ▸ hmoved
  · refine ⟨Token.textOfAll [old.token], ?_, ?_⟩
    · rw [hstart]
      exact hprior.slice_tokens (hcut₀.trans (List.append_cons _ _ _))
    · exact hnew.slice_tokens (hcut.trans (List.append_cons _ _ _))
  · exact ⟨_, hrow, rfl, rfl⟩
  · have hpos := hnew.size_pos old.token (by simp [hcut])
    simpa [TextRange.size] using hpos

theorem holds_item (hprior : prior.Whole) (horder : EditSet.InOrder edits.edits)
    {new : SyntaxTree} (hnew : new.Whole) {front back : List Part} {old : OldItem}
    (hcut : new.parts = front ++ .item old.item :: back)
    (hlisted : old ∈ (Reuse.ofEdits prior edits).items)
    (hplace : old.newStart = Token.sizeOfAll (Part.tokensOf front)) :
    (old.report old.newStart).Holds prior new edits ∧ 0 < (old.report old.newStart).new.size := by
  obtain ⟨before, after, hcut₀, hstart, htouch, hmoved, -⟩ := Reuse.untouchedIn_of_mem hlisted
  rw [Nat.zero_add] at hstart
  have hrow₀ := prior.row_of_item hcut₀
  have hentry := prior.lookahead_of_item hcut₀
  have hrow := new.row_of_item hcut
  rw [← hstart] at hrow₀ hentry
  rw [← hplace] at hrow
  refine ⟨⟨.item rfl hrow₀ hentry rfl (EditSet.clear_of_not_touches horder htouch), hmoved, ?_, ?_⟩,
    ?_⟩
  · refine ⟨Token.textOfAll old.item.tokens, ?_, ?_⟩
    · rw [OldItem.report, TextRange.sized_start, TextRange.sized_stop, hstart, Item.size_eq]
      exact hprior.slice_tokens (SyntaxTree.tokens_of_item hcut₀)
    · rw [OldItem.report, TextRange.sized_start, TextRange.sized_stop, hplace, Item.size_eq]
      exact hnew.slice_tokens (SyntaxTree.tokens_of_item hcut)
  · exact ⟨_, hrow, rfl, rfl⟩
  · have hne := (hprior.covers_ofEdits edits old hlisted).1
    have hpos : ∀ t ∈ old.item.tokens, 0 < t.size := by
      intro t ht
      exact hnew.size_pos t (by simp [SyntaxTree.tokens_of_item hcut, ht])
    have hsize : old.item.size ≠ 0 := by
      rw [Item.size_eq]
      exact fun hzero => hne (Token.eq_nil_of_sizeOfAll hpos hzero)
    simpa [OldItem.report, TextRange.size] using Nat.pos_of_ne_zero hsize

/-- Every report of a reparse holds, and is on something that has bytes. -/
theorem holds_of_mem_reparse (hprior : prior.Whole) (horder : EditSet.InOrder edits.edits)
    {text : Text} (h : r ∈ (reparse text prior edits).2) :
    r.Holds prior (reparse text prior edits).1 edits ∧ 0 < r.new.size := by
  have hcovers := hprior.covers_ofEdits edits
  have hnew := hprior.reparse text edits
  cases Reuse.reportsOn_readParts hcovers h with
  | token cut found =>
    rw [Nat.zero_add] at found
    exact holds_token hprior horder hnew (hnew.tokens.trans cut) found
  | item cut listed place eq =>
    rw [Nat.zero_add] at place
    rw [eq]
    exact holds_item hprior horder hnew cut listed place

end Reused

/-- The reports of a reparse with any edits and any new text, of any tree that parses and reparses
have led to: they go through both texts from front to back, no two of them on the same bytes, and
each of them holds. -/
theorem reports_hold (text : Text) (steps : List (Text × EditSet)) {prior : SyntaxTree}
    (hprior : prior ∈ reparseAll (parse text) steps) {edits : EditSet} (hedits : edits.Built)
    (new : Text) :
    let result := reparse new prior edits
    result.2.Pairwise Reused.Precedes ∧ ∀ r ∈ result.2, r.Holds prior result.1 edits := by
  intro result
  have hwhole := (SyntaxTree.whole_parse text).of_mem_reparseAll hprior
  have horder := hedits.inOrder
  have hholds (r : Reused) (hr : r ∈ result.2) := Reused.holds_of_mem_reparse hwhole horder hr
  refine ⟨?_, fun r hr => (hholds r hr).1⟩
  have hnew : result.2.Pairwise fun a b => a.new.stop ≤ b.new.start :=
    Reuse.pairwise_readParts (.ofEdits prior edits) 0 (tokenize new)
  have hfollows (r : Reused) (hr : r ∈ result.2) : r.Follows edits :=
    (Reuse.of_mem_readParts hr).1.follows horder
  refine hnew.imp_of_mem ?_
  intro a b ha hb hle
  exact (hfollows a ha).precedes horder (hfollows b hb) (hholds a ha).2 hle

/-- A prior tree that no edits lead to, and a new text that the edits do not make: all of one item
but its number is taken over token by token, and the item behind it as a whole. -/
theorem reports_hold_untruthful :
    let text : Text := "let a = 1".toList
    let steps : List (Text × EditSet) := [("g\nlet b = 2\nh(3)".toList, .empty)]
    let prior := (reparse "g\nlet b = 2\nh(3)".toList (parse text) .empty).1
    let edits : EditSet := ⟨[⟨.sized 0 1, "éx".toList⟩]⟩
    let result := reparse "é+\nlet b = 7\nh(3)".toList prior edits
    (prior ∈ reparseAll (parse text) steps ∧ edits.Built) ∧
      result.2.map (·.kind) = [.token .letKw, .token .whitespace, .token .ident, .token .whitespace,
        .token .equals, .token .whitespace, .token .newline, .node .exprStmt] ∧
      result.2.Pairwise Reused.Precedes ∧ ∀ r ∈ result.2, r.Holds prior result.1 edits := by
  intro text steps prior edits result
  have hprior : prior ∈ reparseAll (parse text) steps := by simp [reparseAll, steps, prior]
  have hedits : edits.Built := by
    refine ⟨[⟨.sized 0 1, "éx".toList⟩], .inl ?_⟩
    simp [EditSet.concurrent, EditSet.overlap?, edits]
  exact ⟨⟨hprior, hedits⟩, by decide +kernel, reports_hold text steps hprior hedits _⟩

end IncrementalSyntax
