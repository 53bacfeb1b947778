import IncrementalSyntax.Proofs.Edit.Movement
import IncrementalSyntax.Proofs.Syntax.Reparse

/-!
The reports of a reparse. Each is on an old token or an old item that no edit touches, and it stands
where the edits have moved that (`Reused.Follows`). A part of the new tree has its reports within
its own bytes (`readParts_cons`), so the reports on a beginning of the tree end before the rest of
it starts (`readParts_split`).
-/
namespace IncrementalSyntax

/-- What a report says of the edits: they do not touch the old range, and the new range is where
they have moved it. -/
structure Reused.Follows (edits : EditSet) (r : Reused) : Prop where
  untouched : edits.touches r.old = false
  moved : edits.mapOffset r.old.start = some r.new.start
  size_eq : r.new.size = r.old.size

namespace EditSet

/-- A range that is not touched has no beginning that is. -/
theorem touches_of_le {s : EditSet} (h : InOrder s.edits) {start n m : Nat} (hle : n ≤ m)
    (htouch : s.touches (.sized start m) = false) : s.touches (.sized start n) = false := by
  rw [← Bool.not_eq_true, touches_iff h] at htouch ⊢
  rintro ⟨e, he, hstart, hstop⟩
  simp only [TextRange.sized_start, TextRange.sized_stop] at hstart hstop
  exact htouch ⟨e, he, by simp only [TextRange.sized_stop]; omega, hstop⟩

end EditSet

namespace Reuse

/-- Every listed token is one that no edit touches, listed where the edits have moved it. -/
theorem of_mem_untouchedTokens {edits : EditSet} {start : Nat} {ts : List Token} {old : OldToken}
    (h : old ∈ untouchedTokens edits start ts) :
    edits.touches (.sized old.oldStart old.token.size) = false ∧
      edits.mapOffset old.oldStart = some old.newStart := by
  induction ts generalizing start with
  | nil => simp [untouchedTokens] at h
  | cons t ts ih =>
    rw [untouchedTokens] at h
    split at h
    next => exact ih h
    next htouch =>
      split at h
      next moved hmoved =>
        rcases List.mem_cons.mp h with rfl | h
        · exact ⟨by simpa using htouch, hmoved⟩
        · exact ih h
      next => exact ih h

variable {reuse : Reuse} {r : Reused}

/-- A report on a token is on an old one that is listed for its place. -/
theorem of_tokenAt? {start : Nat} {t : Token} (h : reuse.tokenAt? start t = some r) :
    ∃ old ∈ reuse.tokens, old.newStart = start ∧ old.token = t ∧
      r = ⟨.token t.kind, .sized old.oldStart t.size, .sized start t.size⟩ := by
  rw [tokenAt?] at h
  split at h
  next old hfind =>
    have hplace := List.find?_some hfind
    split at h
    next htoken =>
      exact ⟨old, List.mem_of_find?_eq_some hfind, by simpa using hplace, htoken,
        (Option.some.inj h).symm⟩
    next => simp at h
  next => simp at h

/-- The reports that there can be: on an old token, and on an old item. -/
def Reports (reuse : Reuse) (r : Reused) : Prop :=
  (∃ n t, reuse.tokenAt? n t = some r) ∨
    ∃ n ts old, reuse.itemAt? n ts = some old ∧ r = old.report n

/-- A report on consecutive tokens stands within them. -/
theorem of_mem_tokensAt {start : Nat} {ts : List Token} (h : r ∈ reuse.tokensAt start ts) :
    reuse.Reports r ∧ start ≤ r.new.start ∧ r.new.stop ≤ start + Token.sizeOfAll ts := by
  induction ts generalizing start with
  | nil => simp [tokensAt] at h
  | cons t ts ih =>
    rw [tokensAt] at h
    rw [Token.sizeOfAll_cons]
    rcases List.mem_append.mp h with h | h
    · have hreport := Option.mem_toList.mp h
      obtain ⟨old, -, -, -, rfl⟩ := of_tokenAt? hreport
      refine ⟨.inl ⟨start, t, hreport⟩, Nat.le_refl _, ?_⟩
      simp only [TextRange.sized_stop]
      omega
    · obtain ⟨hreport, hstart, hstop⟩ := ih h
      exact ⟨hreport, by omega, by omega⟩

/-- The loop makes no other reports, and none on what stands before its start. -/
theorem of_mem_readParts {start : Nat} {ts : List Token}
    (h : r ∈ (readParts reuse start ts).flatMap Prod.snd) :
    reuse.Reports r ∧ start ≤ r.new.start := by
  induction start, ts using readParts.induct reuse with
  | case1 start => simp [readParts] at h
  | case2 start t ts htrivia ih =>
    rw [readParts, if_pos htrivia, List.flatMap_cons] at h
    rcases List.mem_append.mp h with h | h
    · exact ⟨(of_mem_tokensAt h).1, (of_mem_tokensAt h).2.1⟩
    · obtain ⟨hreport, hstart⟩ := ih h
      exact ⟨hreport, by omega⟩
  | case3 start t ts htrivia old hold ih =>
    rw [readParts, if_neg htrivia, hold, List.flatMap_cons] at h
    rcases List.mem_append.mp h with h | h
    · obtain rfl := List.mem_singleton.mp h
      exact ⟨.inr ⟨start, t :: ts, old, hold, rfl⟩, Nat.le_refl _⟩
    · obtain ⟨hreport, hstart⟩ := ih h
      exact ⟨hreport, by omega⟩
  | case4 start t ts htrivia hold reading ih =>
    rw [readParts, if_neg htrivia, hold, List.flatMap_cons] at h
    rcases List.mem_append.mp h with h | h
    · exact ⟨(of_mem_tokensAt h).1, (of_mem_tokensAt h).2.1⟩
    · obtain ⟨hreport, hstart⟩ := ih h
      exact ⟨hreport, by omega⟩

/-- Whatever the new text is, the reports of a reparse follow the edits. -/
theorem Reports.follows {tree : SyntaxTree} {edits : EditSet}
    (h : (ofEdits tree edits).Reports r) (horder : EditSet.InOrder edits.edits) :
    r.Follows edits := by
  rcases h with ⟨n, t, ht⟩ | ⟨n, us, old, hold, rfl⟩
  · obtain ⟨old, hmem, rfl, rfl, rfl⟩ := of_tokenAt? ht
    obtain ⟨htouch, hmoved⟩ := of_mem_untouchedTokens hmem
    exact ⟨htouch, hmoved, by simp [TextRange.size]⟩
  · obtain ⟨hmem, rfl, -⟩ := mem_of_itemAt? hold
    obtain ⟨before, after, -, -, htouch, hmoved, -⟩ := untouchedIn_of_mem hmem
    have hsize : old.item.size ≤ old.item.reach := Nat.le_add_right _ _
    exact ⟨EditSet.touches_of_le horder hsize htouch, hmoved,
      by simp [OldItem.report, TextRange.size]⟩

/-- The step lemma of the loop: it puts a part in front of what it makes of the tokens behind that
part, and reports nothing outside of the part with it. -/
theorem readParts_cons (reuse : Reuse) (start : Nat) (t : Token) (ts : List Token) :
    ∃ part reports rest,
      readParts reuse start (t :: ts) =
          (part, reports) :: readParts reuse (start + Token.sizeOfAll part.tokens) rest ∧
        ∀ r ∈ reports, start ≤ r.new.start ∧ r.new.stop ≤ start + Token.sizeOfAll part.tokens := by
  rw [readParts]
  split
  next =>
    refine ⟨.trivia t, reuse.tokensAt start [t], ts, by simp, fun r hr => ?_⟩
    simpa using (of_mem_tokensAt hr).2
  next =>
    split
    next old _ =>
      refine ⟨.item old.item, _, _, by rw [Part.tokens_item, ← Item.size_eq], fun r hr => ?_⟩
      rw [List.mem_singleton.mp hr, Part.tokens_item, ← Item.size_eq]
      exact ⟨Nat.le_refl _, Nat.le_refl _⟩
    next =>
      refine ⟨.item (Reading.ofTokens t ts).item, _, _,
        by rw [Part.tokens_item, ← Item.size_eq], fun r hr => ?_⟩
      exact (of_mem_tokensAt hr).2

/-- The loop can be taken apart between any two parts: what it makes of the tokens of the later ones
does not depend on the earlier ones, whose reports end before. -/
theorem readParts_split (hcovers : reuse.Covers) {start : Nat} {ts : List Token}
    {front back : List Part} (h : (readParts reuse start ts).map Prod.fst = front ++ back) :
    ∃ earlier, readParts reuse start ts = earlier ++
        readParts reuse (start + Token.sizeOfAll (Part.tokensOf front)) (Part.tokensOf back) ∧
      earlier.map Prod.fst = front ∧
      ∀ r ∈ earlier.flatMap Prod.snd,
        r.new.stop ≤ start + Token.sizeOfAll (Part.tokensOf front) := by
  induction front generalizing start ts with
  | nil =>
    rw [List.nil_append] at h
    refine ⟨[], ?_, rfl, by simp⟩
    rw [← h, tokensOf_readParts hcovers]
    rfl
  | cons p front ih =>
    cases ts with
    | nil => simp [readParts] at h
    | cons t ts =>
      obtain ⟨part, reports, rest, heq, hbounds⟩ := readParts_cons reuse start t ts
      rw [heq, List.map_cons, List.cons_append] at h
      obtain ⟨hpart, hrest⟩ := List.cons.inj h
      obtain rfl : part = p := hpart
      obtain ⟨earlier, hsplit, rfl, hends⟩ := ih hrest
      refine ⟨(part, reports) :: earlier, ?_, rfl, ?_⟩
      · rw [heq, hsplit, Part.tokensOf_cons, Token.sizeOfAll_append, Nat.add_assoc]
        rfl
      · intro r hr
        rw [Part.tokensOf_cons, Token.sizeOfAll_append]
        rw [List.flatMap_cons] at hr
        rcases List.mem_append.mp hr with hr | hr
        · have := (hbounds r hr).2
          omega
        · have := hends r hr
          omega

end Reuse

end IncrementalSyntax
