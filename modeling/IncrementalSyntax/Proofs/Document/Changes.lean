import IncrementalSyntax.Document.Snapshot
import IncrementalSyntax.Proofs.Edit.Composition
import IncrementalSyntax.Proofs.Edit.Difference

/-!
An editor's changes, as they are meant and as they are made. `ContentChange.Makes` says what one
change means: it replaces the bytes between the resolutions of its two positions, or the whole
text. A snapshot makes the changes twice, in the text itself and as edits in turn that become one
set of edits of the old text; `applyChanges_faithful` says that both give what the changes mean. A
change of the whole text is made by the difference of two texts (`splice_of_diff`), and each change
is placed by the index of the text that the changes before it have left (`runChanges_makes`).
-/
namespace IncrementalSyntax

namespace TextEdit

/-- An edit can be made exactly in a text of which its range is a middle part. -/
theorem splice_eq_ok_iff {e : TextEdit} {t u : Text} :
    e.splice t = .ok u ↔
      ∃ a m b, t = a ++ m ++ b ∧ a.size = e.start ∧ e.stop = e.start + m.size ∧
        u = a ++ e.replacement ++ b := by
  constructor
  · intro h
    obtain ⟨a, ha, h⟩ := bind_eq_ok_iff.mp h
    obtain ⟨b, hb, h⟩ := bind_eq_ok_iff.mp h
    obtain ⟨none, rest, ht, hnone, hstart⟩ := Text.slice_eq_ok_iff.mp ha
    obtain ⟨c, hcut, hstop⟩ := Text.sliceFrom_eq_ok_iff.mp hb
    obtain rfl := Text.size_eq_zero_iff.mp hnone
    rw [List.nil_append] at ht
    have hle := e.start_le_stop
    obtain ⟨m, rfl, -⟩ := Text.append_eq_append_of_size_le (ht.symm.trans hcut) (by omega)
    rw [Text.size_append] at hstop
    exact ⟨a, m, b, hcut, by omega, by omega, (Except.ok.inj h).symm⟩
  · rintro ⟨a, m, b, rfl, ha, hm, rfl⟩
    exact splice_eq_ok ha hm

theorem eq_of_diff {old new : Text} (h : diff old new = none) : old = new := by
  by_cases heq : old = new
  · exact heq
  · simp [diff, heq] at h

theorem splice_of_diff {old new : Text} {e : TextEdit} (h : diff old new = some e) :
    e.splice old = .ok new := by
  have hne : old ≠ new := by
    rintro rfl
    simp [diff] at h
  rcases hfirst : stripCommon old new with ⟨common, old', new'⟩
  rcases hsecond : stripCommon old'.reverse new'.reverse with ⟨shared, old'', new''⟩
  simp only [diff, if_neg hne, hfirst, hsecond, Option.some.injEq] at h
  obtain ⟨rfl, rfl⟩ := append_of_stripCommon hfirst
  obtain ⟨hold, hnew⟩ := append_of_stripCommon hsecond
  have hold' : old' = old''.reverse ++ shared.reverse := by
    rw [← List.reverse_append, ← hold, List.reverse_reverse]
  have hnew' : new' = new''.reverse ++ shared.reverse := by
    rw [← List.reverse_append, ← hnew, List.reverse_reverse]
  subst h
  refine splice_eq_ok_iff.mpr ⟨common, old''.reverse, shared.reverse, ?_, rfl, rfl, ?_⟩
  · simp [hold']
  · simp [hnew']

end TextEdit

namespace EditSet

/-- Edits that rewrite the rest of a text fit the text. -/
theorem fits_of_replaces {n : Nat} {es : List TextEdit} {t u : Text} (h : Replaces n es t u)
    {a tail : Text} (ha : a.size = n) : ∀ e ∈ es, e.fits (a ++ t ++ tail) = true := by
  induction h generalizing a with
  | nil n => simp
  | @cons n e es kept old t u hstart hstop rest ih =>
    intro f hf
    rcases List.mem_cons.mp hf with rfl | hf
    · refine TextEdit.fits_iff.mpr ⟨a ++ kept, old, t ++ tail, by simp, ?_, hstop⟩
      rw [Text.size_append]
      omega
    · have hsize : (a ++ kept ++ old).size = e.stop := by
        simp only [Text.size_append]
        omega
      simpa using ih hsize f hf

theorem checkFits_of_fits {s : EditSet} {t : Text} (h : ∀ e ∈ s.edits, e.fits t = true) :
    s.checkFits t = .ok () := by
  have hall (es : List TextEdit) (hes : ∀ e ∈ es, e.fits t = true) :
      es.forM (fun e => e.checkFits t) = .ok () := by
    induction es with
    | nil => rfl
    | cons e es ih =>
      rw [List.forM_eq_forM, List.forM_cons, TextEdit.checkFits, if_pos (hes e (by simp)), ok_bind]
      exact ih fun f hf => hes f (by simp [hf])
  exact hall s.edits h

theorem checkFits_of_apply {s : EditSet} {t u : Text} (h : s.apply t = .ok u) :
    s.checkFits t = .ok () := by
  obtain ⟨t', u', tail, hreplaces, rfl, -⟩ := apply_eq_ok_iff.mp h
  exact checkFits_of_fits (fits_of_replaces (a := []) hreplaces rfl)

end EditSet

namespace ContentChange

/-- What a change means: the new text is put between what stands before the first position and what
stands after the second one, or it takes the place of the whole text. -/
def Makes (t u : Text) : ContentChange → Prop
  | within range new => ∃ before old after,
      t = before ++ old ++ after ∧ u = before ++ new ++ after ∧
        (LineIndex.ofText t).offsetUtf16 range.start = .ok before.size ∧
        (LineIndex.ofText t).offsetUtf16 range.stop = .ok (before ++ old).size
  | whole new => u = new

/-- What changes mean that are made one after the other. -/
def MakeAll : List ContentChange → Text → Text → Prop
  | [], t, u => u = t
  | c :: cs, t, u => ∃ v, c.Makes t v ∧ MakeAll cs v u

theorem makes_of_edit? {c : ContentChange} {t : Text} {e : TextEdit}
    (h : c.edit? t (.ofText t) = .ok (some e)) {u : Text} (hsplice : e.splice t = .ok u) :
    c.Makes t u := by
  cases c with
  | within range new =>
    obtain ⟨start, hstart, h⟩ := bind_eq_ok_iff.mp h
    obtain ⟨stop, hstop, h⟩ := bind_eq_ok_iff.mp h
    split at h
    next hle =>
      obtain rfl := Option.some.inj (Except.ok.inj h)
      obtain ⟨before, old, after, ht, hbefore, hold, hu⟩ := TextEdit.splice_eq_ok_iff.mp hsplice
      refine ⟨before, old, after, ht, hu, ?_, ?_⟩
      · rw [hstart, hbefore]
        rfl
      · rw [hstop, Text.size_append, hbefore]
        exact congrArg Except.ok hold
    next => simp [throw, throwThe, MonadExceptOf.throw] at h
  | whole new =>
    have hdiff : TextEdit.diff t new = some e := Except.ok.inj h
    rw [TextEdit.splice_of_diff hdiff] at hsplice
    exact (Except.ok.inj hsplice).symm

/-- A change that has no edit leaves the text as it is. -/
theorem makes_of_edit?_none {c : ContentChange} {t : Text}
    (h : c.edit? t (.ofText t) = .ok none) : c.Makes t t := by
  cases c with
  | within range new =>
    obtain ⟨start, -, h⟩ := bind_eq_ok_iff.mp h
    obtain ⟨stop, -, h⟩ := bind_eq_ok_iff.mp h
    split at h
    next => simp at h
    next => simp [throw, throwThe, MonadExceptOf.throw] at h
  | whole new => exact TextEdit.eq_of_diff (Except.ok.inj h)

end ContentChange

namespace Snapshot

/-- The run lemma: changes that are made leave the text that they mean and its index, and their
edits lead to it in turn. -/
theorem runChanges_makes {changes : List ContentChange} {t u : Text} {index : LineIndex}
    {es : List TextEdit} (h : runChanges t (.ofText t) changes = .ok (u, index, es)) :
    ContentChange.MakeAll changes t u ∧ index = .ofText u ∧ TextEdit.FitInTurn es t ∧
      TextEdit.spliceAll es t = .ok u := by
  induction changes generalizing t es with
  | nil =>
    obtain ⟨rfl, hrest⟩ := Prod.mk.inj (Except.ok.inj h)
    obtain ⟨rfl, rfl⟩ := Prod.mk.inj hrest
    exact ⟨rfl, rfl, trivial, rfl⟩
  | cons c cs ih =>
    obtain ⟨edit, hedit, h⟩ := bind_eq_ok_iff.mp h
    cases edit with
    | none =>
      obtain ⟨hmakes, hrest⟩ := ih h
      exact ⟨⟨t, ContentChange.makes_of_edit?_none hedit, hmakes⟩, hrest⟩
    | some e =>
      obtain ⟨v, hv, h⟩ := bind_eq_ok_iff.mp h
      have hsplice : e.splice t = .ok v := by
        cases hs : e.splice t with
        | ok w => simpa [hs] using hv
        | error f => simp [hs] at hv
      obtain ⟨⟨last, lastIndex, fs⟩, hrun, h⟩ := bind_eq_ok_iff.mp h
      obtain ⟨rfl, hrest⟩ := Prod.mk.inj (Except.ok.inj h)
      obtain ⟨rfl, rfl⟩ := Prod.mk.inj hrest
      obtain ⟨hmakes, hindex, hfit, hall⟩ := ih hrun
      refine ⟨⟨v, ContentChange.makes_of_edit? hedit hsplice, hmakes⟩, hindex, ⟨?_, ?_⟩, ?_⟩
      · obtain ⟨a, m, b, rfl, ha, hm, -⟩ := TextEdit.splice_eq_ok_iff.mp hsplice
        exact TextEdit.fits_iff.mpr ⟨a, m, b, rfl, ha, hm⟩
      · intro w hw
        rw [hsplice] at hw
        obtain rfl := Except.ok.inj hw
        exact hfit
      · rw [TextEdit.spliceAll, hsplice, ok_bind, hall]

/-- What changes that are accepted give: a later version of the same document, with what the run
of the changes leaves, and the set that the edits of the run compose to. -/
theorem applyChanges_eq_ok {s next : Snapshot} {version : Int} {changes : List ContentChange}
    {edits : EditSet} (h : s.applyChanges version changes = .ok (next, edits)) :
    s.id.version < version ∧ next.id = ⟨s.id.document, version⟩ ∧ next.uri = s.uri ∧
      ∃ es, runChanges s.text s.lineIndex changes = .ok (next.text, next.lineIndex, es) ∧
        Failure.ofRefusal (EditSet.ofSequence es) = .ok edits := by
  rw [applyChanges] at h
  split at h
  next => simp at h
  next hversion =>
    obtain ⟨⟨text, index, es⟩, hrun, h⟩ := bind_eq_ok_iff.mp h
    obtain ⟨set, hset, h⟩ := bind_eq_ok_iff.mp h
    obtain ⟨rfl, rfl⟩ := Prod.mk.inj (Except.ok.inj h)
    exact ⟨Int.not_le.mp hversion, rfl, rfl, es, hrun, hset⟩

/-- The snapshots that there are: those of texts, and those that changes lead to. -/
inductive Made : Snapshot → Prop
  | ofText (id : SnapshotId) (uri : String) (text : Text) : Made (.ofText id uri text)
  | changed {s next : Snapshot} {version : Int} {changes : List ContentChange} {edits : EditSet}
      (hs : Made s) (h : s.applyChanges version changes = .ok (next, edits)) : Made next

theorem Made.lineIndex_eq {s : Snapshot} (h : s.Made) : s.lineIndex = .ofText s.text := by
  induction h with
  | ofText id uri text => rfl
  | changed hs h hindex =>
    obtain ⟨-, -, -, es, hrun, -⟩ := applyChanges_eq_ok h
    rw [hindex] at hrun
    exact (runChanges_makes hrun).2.1

/-- The edits that come with accepted changes lead from the old text to the new one, whatever its
size: a text in which not all places are offsets has fewer changes that are accepted. -/
theorem apply_of_applyChanges {s next : Snapshot} {version : Int} {changes : List ContentChange}
    {edits : EditSet} (hs : s.Made) (h : s.applyChanges version changes = .ok (next, edits)) :
    edits.apply s.text = .ok next.text := by
  obtain ⟨-, -, -, es, hrun, hset⟩ := applyChanges_eq_ok h
  rw [hs.lineIndex_eq] at hrun
  obtain ⟨-, -, hfit, hall⟩ := runChanges_makes hrun
  have hfold : es.foldlM EditSet.compose .empty = .ok edits := by
    rw [EditSet.ofSequence] at hset
    cases hes : es.foldlM EditSet.compose .empty with
    | ok composed => simpa [hes] using hset
    | error e => simp [hes] at hset
  exact EditSet.apply_eq_ok_iff.mpr
    (EditSet.rewrites_of_foldlM_compose (.nil 0 s.text) hfit hfold hall)

/-- Changes that are accepted lead to the text that they mean when they are made one after the
other, and the edits that come with it lead there from the old text at once. The new snapshot has
the index of its text, and is a later version of the same document. -/
theorem applyChanges_faithful {s next : Snapshot} {version : Int} {changes : List ContentChange}
    {edits : EditSet} (hs : s.Made) (hsize : s.text.size ≤ Offset.greatest)
    (h : s.applyChanges version changes = .ok (next, edits)) :
    ContentChange.MakeAll changes s.text next.text ∧
      edits.checkFits s.text = .ok () ∧ edits.apply s.text = .ok next.text ∧
      next.lineIndex = .ofText next.text ∧
      next.id.document = s.id.document ∧ next.uri = s.uri ∧
      next.id.version = version ∧ s.id.version < version := by
  obtain ⟨hversion, hid, huri, es, hrun, hset⟩ := applyChanges_eq_ok h
  rw [hs.lineIndex_eq] at hrun
  obtain ⟨hmakes, hlast, hfit, hall⟩ := runChanges_makes hrun
  obtain ⟨composed, u, hfold, hu, hrewrites⟩ :=
    EditSet.foldlM_compose_rewrites (s := .empty) (.nil 0 s.text) hsize hfit
  -- the set is the one that the edits compose to, and the text the one that they leave
  obtain rfl : next.text = u := Except.ok.inj (hall.symm.trans hu)
  obtain rfl : composed = edits := by
    rw [EditSet.ofSequence, hfold] at hset
    exact Except.ok.inj hset
  have happly := EditSet.apply_eq_ok_iff.mpr hrewrites
  exact ⟨hmakes, EditSet.checkFits_of_apply happly, happly, hlast, by rw [hid], huri, by rw [hid],
    hversion⟩

/-- A change across lines with characters of several widths, one of the whole text, and one that
is placed in the text which that leaves. -/
theorem applyChanges_faithful_mixed :
    let s : Snapshot := .ofText ⟨⟨0⟩, 1⟩ "file:///a" "aé\r\n😀b".toList
    let changes : List ContentChange :=
      [.within ⟨⟨0, 1⟩, ⟨1, 2⟩⟩ "ü".toList, .whole "aüc\n".toList,
        .within ⟨⟨1, 0⟩, ⟨2, 0⟩⟩ "d".toList]
    let next : Snapshot := .ofText ⟨⟨0⟩, 2⟩ "file:///a" "aüc\nd".toList
    let edits : EditSet := ⟨[⟨⟨1, 10, by decide⟩, "üc\nd".toList⟩]⟩
    s.applyChanges 2 changes = .ok (next, edits) ∧
      ContentChange.MakeAll changes s.text next.text ∧ edits.apply s.text = .ok next.text := by
  intro s changes next edits
  have h : s.applyChanges 2 changes = .ok (next, edits) := rfl
  obtain ⟨hmakes, -, happly, -⟩ := applyChanges_faithful (.ofText _ _ _) (by decide) h
  exact ⟨h, hmakes, happly⟩

end Snapshot

end IncrementalSyntax
