import IncrementalSyntax.Proofs.Document.Changes
import IncrementalSyntax.Proofs.Edit.Walk
import IncrementalSyntax.Proofs.Text.Bounds

/-!
When an editor's changes are refused. A change is refused if one of its positions stands nowhere in
the text, or if its end stands before its start (`ContentChange.Refused`); any other change can be
made (`makes_or_refused`). Changes are made in turn up to the first that is refused, and that one
gives the error (`runChanges_eq_error_iff`). Behind them nothing is refused any more: their edits
fit in turn, so they compose. `Snapshot.checkedChanges` does the same with each step checked that
could meet a fault, and meets none.
-/
namespace IncrementalSyntax

open LineIndex

namespace ContentChange

/-- Why a change cannot be made in a text. The start is looked at first. -/
inductive Refused (t : Text) : ContentChange → Error → Prop
  | start {range : PositionRange} {new : Text} {e : Error}
    (h : t.Resolves range.start (.error e)) : Refused t (within range new) e
  | stop {range : PositionRange} {new : Text} {m : Nat} {e : Error}
    (hstart : t.Resolves range.start (.ok m)) (h : t.Resolves range.stop (.error e)) :
    Refused t (within range new) e
  | inverted {range : PositionRange} {new : Text} {m n : Nat}
    (hstart : t.Resolves range.start (.ok m)) (hstop : t.Resolves range.stop (.ok n)) (h : n < m) :
    Refused t (within range new) (.invertedRange m n)

/-- Some change is refused in the text that the changes before it leave. -/
def RefusedIn (changes : List ContentChange) (t : Text) (e : Error) : Prop :=
  ∃ before c after u, changes = before ++ c :: after ∧ MakeAll before t u ∧ c.Refused u e

/-- Every text on the way has only offsets as places. -/
def AmongOffsets (changes : List ContentChange) (t : Text) : Prop :=
  ∀ before after u, changes = before ++ after → MakeAll before t u → u.size ≤ Offset.greatest

variable {c : ContentChange} {cs : List ContentChange} {t u v : Text} {e : Error}

theorem AmongOffsets.size_le (h : AmongOffsets cs t) : t.size ≤ Offset.greatest :=
  h [] cs t rfl rfl

theorem AmongOffsets.tail (h : AmongOffsets (c :: cs) t) (hmakes : c.Makes t v) :
    AmongOffsets cs v := by
  rintro before after u rfl hall
  exact h (c :: before) after u rfl ⟨v, hmakes, hall⟩

def newSize : ContentChange → Nat
  | within _ new => new.size
  | whole new => new.size

def newSizes : List ContentChange → Nat
  | [] => 0
  | c :: cs => c.newSize + newSizes cs

theorem size_le_of_makes (h : c.Makes t u) : u.size ≤ t.size + c.newSize := by
  cases c with
  | within range new =>
    obtain ⟨before, old, after, rfl, rfl, -⟩ := h
    simp only [newSize, Text.size_append]
    omega
  | whole new =>
    obtain rfl : u = new := h
    exact Nat.le_add_left _ _

/-- A text and new texts that are not too large together are not too large on the way. -/
theorem amongOffsets_of_newSizes (h : t.size + newSizes cs ≤ Offset.greatest) :
    AmongOffsets cs t := by
  rintro before after u rfl hall
  induction before generalizing t with
  | nil =>
    obtain rfl : u = t := hall
    omega
  | cons c before ih =>
    obtain ⟨v, hmakes, hall⟩ := hall
    have hle := size_le_of_makes hmakes
    rw [List.cons_append, newSizes] at h
    exact ih (by omega) hall

theorem edit?_of_makes (h : c.Makes t v) :
    (c.edit? t (.ofText t) = .ok none ∧ v = t) ∨
      ∃ edit, c.edit? t (.ofText t) = .ok (some edit) ∧ edit.splice t = .ok v := by
  cases c with
  | within range new =>
    obtain ⟨before, old, after, ht, hv, hstart, hstop⟩ := h
    have hle : before.size ≤ (before ++ old).size := by
      rw [Text.size_append]
      exact Nat.le_add_right _ _
    refine .inr ⟨⟨⟨_, _, hle⟩, new⟩, ?_, ?_⟩
    · simp only [edit?, hstart, hstop, ok_bind, dif_pos hle, pure_eq_ok]
    · exact TextEdit.splice_eq_ok_iff.mpr
        ⟨before, old, after, ht, rfl, Text.size_append before old, hv⟩
  | whole new =>
    obtain rfl : v = new := h
    cases hdiff : TextEdit.diff t v with
    | none => exact .inl ⟨by rw [edit?, hdiff]; rfl, (TextEdit.eq_of_diff hdiff).symm⟩
    | some edit => exact .inr ⟨edit, by rw [edit?, hdiff]; rfl, TextEdit.splice_of_diff hdiff⟩

/-- A change that is refused has no edit, and the error is the one that it is refused with. -/
theorem edit?_of_refused (hsize : t.size ≤ Offset.greatest) (h : c.Refused t e) :
    c.edit? t (.ofText t) = .error (.refused e) := by
  cases h with
  | start h =>
    have hstart := offsetUtf16_of_resolves hsize h
    simp only [edit?, hstart, Failure.ofRefusal_error, error_bind]
  | stop hstart h =>
    have hstart := offsetUtf16_of_resolves hsize hstart
    have hstop := offsetUtf16_of_resolves hsize h
    simp only [edit?, hstart, hstop, Failure.ofRefusal_ok, Failure.ofRefusal_error, ok_bind,
      error_bind]
  | inverted hstart hstop h =>
    have hstart := offsetUtf16_of_resolves hsize hstart
    have hstop := offsetUtf16_of_resolves hsize hstop
    simp only [edit?, hstart, hstop, Failure.ofRefusal_ok, ok_bind, dif_neg (Nat.not_le.mpr h)]
    rfl

/-- Between two places of a text that are in order there is a part of it. -/
theorem exists_cut_of_resolves {range : PositionRange} {m n : Nat}
    (hstart : t.Resolves range.start (.ok m)) (hstop : t.Resolves range.stop (.ok n))
    (hle : m ≤ n) :
    ∃ before old after, t = before ++ old ++ after ∧ before.size = m ∧
      (before ++ old).size = n := by
  obtain ⟨before, rest, ht, rfl⟩ := Text.isBoundary_iff.mp hstart.isBoundary
  obtain ⟨through, after, ht', rfl⟩ := Text.isBoundary_iff.mp hstop.isBoundary
  obtain ⟨old, rfl, -⟩ := Text.append_eq_append_of_size_le (ht.symm.trans ht') hle
  exact ⟨before, old, after, ht', rfl, rfl⟩

theorem makes_or_refused (hsize : t.size ≤ Offset.greatest) (c : ContentChange) :
    (∃ v, c.Makes t v) ∨ ∃ e, c.Refused t e := by
  cases c with
  | whole new => exact .inl ⟨new, rfl⟩
  | within range new =>
    obtain ⟨first, hstart⟩ := Text.exists_resolves t range.start
    obtain ⟨second, hstop⟩ := Text.exists_resolves t range.stop
    cases first with
    | error e => exact .inr ⟨e, .start hstart⟩
    | ok m =>
      cases second with
      | error e => exact .inr ⟨e, .stop hstart hstop⟩
      | ok n =>
        by_cases hle : m ≤ n
        · obtain ⟨before, old, after, ht, hm, hn⟩ := exists_cut_of_resolves hstart hstop hle
          refine .inl ⟨before ++ new ++ after, before, old, after, ht, rfl, ?_, ?_⟩
          · rw [offsetUtf16_of_resolves hsize hstart, hm]
            rfl
          · rw [offsetUtf16_of_resolves hsize hstop, hn]
            rfl
        · exact .inr ⟨_, .inverted hstart hstop (by omega)⟩

theorem Makes.unique (h : c.Makes t u) (h' : c.Makes t v) : u = v := by
  rcases edit?_of_makes h with ⟨hedit, hu⟩ | ⟨edit, hedit, hsplice⟩
  · rcases edit?_of_makes h' with ⟨-, hv⟩ | ⟨edit', hedit', -⟩
    · exact hu.trans hv.symm
    · simp [hedit] at hedit'
  · rcases edit?_of_makes h' with ⟨hedit', -⟩ | ⟨edit', hedit', hsplice'⟩
    · simp [hedit] at hedit'
    · obtain rfl : edit = edit' := by simpa [hedit] using hedit'
      exact Except.ok.inj (hsplice.symm.trans hsplice')

theorem not_refused_of_makes (hsize : t.size ≤ Offset.greatest) (h : c.Makes t v) :
    ¬ c.Refused t e := by
  intro hrefused
  have hedit := edit?_of_refused hsize hrefused
  rcases edit?_of_makes h with ⟨hok, -⟩ | ⟨edit, hok, -⟩ <;> simp [hok] at hedit

theorem refusedIn_cons :
    RefusedIn (c :: cs) t e ↔ c.Refused t e ∨ ∃ v, c.Makes t v ∧ RefusedIn cs v e := by
  constructor
  · rintro ⟨before, d, after, u, hcut, hall, hrefused⟩
    cases before with
    | nil =>
      obtain ⟨rfl, rfl⟩ := List.cons.inj hcut
      obtain rfl : u = t := hall
      exact .inl hrefused
    | cons b before =>
      obtain ⟨rfl, rfl⟩ := List.cons.inj hcut
      obtain ⟨v, hmakes, hall⟩ := hall
      exact .inr ⟨v, hmakes, before, d, after, u, rfl, hall, hrefused⟩
  · rintro (hrefused | ⟨v, hmakes, before, d, after, u, rfl, hall, hrefused⟩)
    · exact ⟨[], c, cs, t, rfl, rfl, hrefused⟩
    · exact ⟨c :: before, d, after, u, rfl, ⟨v, hmakes, hall⟩, hrefused⟩

/-- Behind a change that can be made, the changes after it decide. -/
theorem refusedIn_cons_of_makes (hsize : t.size ≤ Offset.greatest) (h : c.Makes t v) :
    RefusedIn (c :: cs) t e ↔ RefusedIn cs v e := by
  rw [refusedIn_cons]
  constructor
  · rintro (hrefused | ⟨u, hmakes, hrest⟩)
    · exact absurd hrefused (not_refused_of_makes hsize h)
    · exact hmakes.unique h ▸ hrest
  · exact fun hrest => .inr ⟨v, h, hrest⟩

/-- A change is refused for a position that stands nowhere, or as an inverted range. -/
theorem Refused.error_cases (h : c.Refused t e) :
    (∃ p : Position, e = .positionOutOfBounds p.line p.character ∨
      e = .splitSurrogatePair p.line p.character) ∨
    ∃ range new m n, c = within range new ∧ e = .invertedRange m n ∧
      t.Resolves range.start (.ok m) ∧ t.Resolves range.stop (.ok n) ∧ n < m := by
  have hposition {p : Position} (hp : t.Resolves p (.error e)) :
      ∃ p : Position, e = .positionOutOfBounds p.line p.character ∨
        e = .splitSurrogatePair p.line p.character := by
    cases hp with
    | outside => exact ⟨p, .inl rfl⟩
    | split => exact ⟨p, .inr rfl⟩
  cases h with
  | start h => exact .inl (hposition h)
  | stop _ h => exact .inl (hposition h)
  | inverted hstart hstop hlt => exact .inr ⟨_, _, _, _, rfl, rfl, hstart, hstop, hlt⟩

/-- A range that is refused as inverted ends before it starts, also as its positions are ordered. -/
theorem stop_before_start {range : PositionRange} {m n : Nat}
    (hstart : t.Resolves range.start (.ok m)) (hstop : t.Resolves range.stop (.ok n)) (h : n < m) :
    range.stop.line < range.start.line ∨
      range.stop.line = range.start.line ∧ range.stop.character < range.start.character := by
  by_cases hle : range.start.line < range.stop.line ∨
      range.start.line = range.stop.line ∧ range.start.character ≤ range.stop.character
  · have := hstart.mono hstop hle
    omega
  · omega

end ContentChange

namespace Snapshot

open ContentChange

variable {c : ContentChange} {cs : List ContentChange} {t v : Text}

/-- The step lemma: a change that can be made leads on from the text that it leaves, and the edits
of the changes after it follow its own, if it has one. -/
theorem runChanges_cons_of_makes (h : c.Makes t v) (cs : List ContentChange) :
    ∃ es, runChanges t (.ofText t) (c :: cs) = runChanges v (.ofText v) cs >>= fun r =>
      pure (r.1, r.2.1, es ++ r.2.2) := by
  rcases edit?_of_makes h with ⟨hedit, rfl⟩ | ⟨edit, hedit, hsplice⟩
  · refine ⟨[], ?_⟩
    simp only [runChanges, hedit, ok_bind, List.nil_append]
    exact (bind_pure _).symm
  · refine ⟨[edit], ?_⟩
    simp only [runChanges, hedit, hsplice, Failure.ofFault_ok, ok_bind, List.singleton_append]

/-- The run lemma: changes fail exactly if one is refused where those before it lead, and with the
error of that one. -/
theorem runChanges_eq_error_iff (h : AmongOffsets cs t) {failure : Failure} :
    runChanges t (.ofText t) cs = .error failure ↔
      ∃ e, failure = .refused e ∧ RefusedIn cs t e := by
  induction cs generalizing t with
  | nil =>
    constructor
    · intro hrun
      simp [runChanges] at hrun
    · rintro ⟨e, -, before, c, after, u, hcut, -⟩
      simp at hcut
  | cons c cs ih =>
    rcases makes_or_refused h.size_le c with ⟨v, hmakes⟩ | ⟨e₀, hrefused⟩
    · obtain ⟨es, hrun⟩ := runChanges_cons_of_makes hmakes cs
      have hsame : runChanges t (.ofText t) (c :: cs) = .error failure ↔
          runChanges v (.ofText v) cs = .error failure := by
        rw [hrun]
        cases runChanges v (.ofText v) cs <;> simp
      rw [hsame, ih (h.tail hmakes)]
      simp only [refusedIn_cons_of_makes h.size_le hmakes]
    · have hedit := edit?_of_refused h.size_le hrefused
      have hrun : runChanges t (.ofText t) (c :: cs) = .error (.refused e₀) := by
        simp only [runChanges, hedit, error_bind]
      rw [hrun]
      constructor
      · rintro ⟨⟩
        exact ⟨e₀, rfl, refusedIn_cons.mpr (.inl hrefused)⟩
      · rintro ⟨e, rfl, hin⟩
        rcases refusedIn_cons.mp hin with hrefused' | ⟨v, hmakes, -⟩
        · have hedit' := edit?_of_refused h.size_le hrefused'
          rw [hedit] at hedit'
          obtain ⟨⟩ := hedit'
          rfl
        · exact absurd hrefused (not_refused_of_makes h.size_le hmakes)

end Snapshot

def ContentChange.checkedEdit? (text : Text) (index : LineIndex) :
    ContentChange → Except Failure (Option TextEdit)
  | within range new => do
    let start ← index.offsetUtf16 range.start
    let stop ← index.offsetUtf16 range.stop
    if stop < start then throw (.refused (.invertedRange start stop))
    let between ← Failure.ofFault (TextRange.between start stop)
    return some ⟨between, new⟩
  | whole new => Failure.ofFault (TextEdit.diffBytes text new)

theorem ContentChange.checkedEdit?_eq (text : Text) (index : LineIndex) (c : ContentChange) :
    c.checkedEdit? text index = c.edit? text index := by
  cases c with
  | within range new =>
    rw [checkedEdit?, edit?]
    cases index.offsetUtf16 range.start with
    | error f => rfl
    | ok m =>
      cases index.offsetUtf16 range.stop with
      | error f => rfl
      | ok n =>
        by_cases hle : m ≤ n
        · simp [hle, Nat.not_lt.mpr hle, TextRange.between]
        · simp [hle, Nat.not_le.mp hle, throw, throwThe, MonadExceptOf.throw]
  | whole new => rw [checkedEdit?, edit?, TextEdit.diffBytes_eq_ok, Failure.ofFault_ok, pure_eq_ok]

namespace Snapshot

open ContentChange

variable {c : ContentChange} {cs : List ContentChange} {t u v : Text}

/-- `runChanges` with each step checked, also those that make the index of the next text. -/
def checkedRun (text : Text) (index : LineIndex) :
    List ContentChange → Except Failure (Text × LineIndex × List TextEdit)
  | [] => return (text, index, [])
  | c :: cs => do
    match ← c.checkedEdit? text index with
    | none => checkedRun text index cs
    | some e =>
      let next ← Failure.ofFault (e.splice text)
      let _ ← Failure.ofFault (LineTables.ofText next)
      let (last, lastIndex, es) ← checkedRun next (.ofText next) cs
      return (last, lastIndex, e :: es)

def checkedChanges (s : Snapshot) (version : Int) (changes : List ContentChange) :
    Except Failure (Snapshot × EditSet) :=
  if version ≤ s.id.version then
    .error (.refused (.staleVersion s.id.document s.id.version version))
  else do
    let (text, index, edits) ← checkedRun s.text s.lineIndex changes
    let set ← EditSet.checkedSequence edits
    return (⟨⟨s.id.document, version⟩, s.uri, text, index⟩, set)

theorem checkedRun_eq (h : AmongOffsets cs t) :
    checkedRun t (.ofText t) cs = runChanges t (.ofText t) cs := by
  induction cs generalizing t with
  | nil => rfl
  | cons c cs ih =>
    rw [checkedRun, runChanges, checkedEdit?_eq]
    rcases makes_or_refused h.size_le c with ⟨v, hmakes⟩ | ⟨e, hrefused⟩
    · rcases edit?_of_makes hmakes with ⟨hedit, rfl⟩ | ⟨edit, hedit, hsplice⟩
      · simp only [hedit, ok_bind]
        exact ih (h.tail hmakes)
      · have htables := LineTables.ofText_eq_ok (h.tail hmakes).size_le
        simp only [hedit, hsplice, htables, Failure.ofFault_ok, ok_bind, ih (h.tail hmakes)]
    · rw [edit?_of_refused h.size_le hrefused]
      rfl

/-- The edits of changes lead through the texts that the changes leave. -/
theorem amongOffsets_of_runChanges {index : LineIndex} {es : List TextEdit}
    (h : AmongOffsets cs t) (hrun : runChanges t (.ofText t) cs = .ok (u, index, es)) :
    EditSet.AmongOffsets es t := by
  induction cs generalizing t es with
  | nil =>
    obtain ⟨-, rfl⟩ := Prod.mk.inj (Prod.mk.inj (Except.ok.inj hrun)).2
    exact h.size_le
  | cons c cs ih =>
    rcases makes_or_refused h.size_le c with ⟨v, hmakes⟩ | ⟨e, hrefused⟩
    · rcases edit?_of_makes hmakes with ⟨hedit, rfl⟩ | ⟨edit, hedit, hsplice⟩
      · simp only [runChanges, hedit, ok_bind] at hrun
        exact ih (h.tail hmakes) hrun
      · simp only [runChanges, hedit, hsplice, Failure.ofFault_ok, ok_bind] at hrun
        obtain ⟨⟨last, lastIndex, fs⟩, hrest, heq⟩ := bind_eq_ok_iff.mp hrun
        obtain ⟨rfl, hpair⟩ := Prod.mk.inj (Except.ok.inj heq)
        obtain ⟨rfl, rfl⟩ := Prod.mk.inj hpair
        refine ⟨h.size_le, fun w hw => ?_⟩
        obtain rfl := Except.ok.inj (hsplice.symm.trans hw)
        exact ih (h.tail hmakes) hrest
    · simp [runChanges, edit?_of_refused h.size_le hrefused] at hrun

/-- Composing the edits of changes succeeds, and meets no fault on the way. -/
theorem exists_ofSequence_of_runChanges {index : LineIndex} {es : List TextEdit}
    (h : AmongOffsets cs t) (hrun : runChanges t (.ofText t) cs = .ok (u, index, es)) :
    ∃ set, EditSet.ofSequence es = .ok set ∧ EditSet.checkedSequence es = .ok set := by
  obtain ⟨-, -, hfit, -⟩ := runChanges_makes hrun
  obtain ⟨set, -, hset, -⟩ := EditSet.apply_ofSequence es t hfit h.size_le
  refine ⟨set, hset, ?_⟩
  rw [EditSet.checkedSequence_eq hfit (amongOffsets_of_runChanges h hrun), hset,
    Failure.ofRefusal_ok]

/-- Changes to a later version fail exactly as the run of the changes does. -/
theorem applyChanges_eq_error_iff {s : Snapshot} (hs : s.Made) {version : Int}
    (hversion : s.id.version < version) (h : AmongOffsets cs s.text) {failure : Failure} :
    s.applyChanges version cs = .error failure ↔
      ∃ e, failure = .refused e ∧ RefusedIn cs s.text e := by
  rw [← runChanges_eq_error_iff h, applyChanges, if_neg (Int.not_le.mpr hversion), hs.lineIndex_eq]
  cases hrun : runChanges s.text (.ofText s.text) cs with
  | error f => simp
  | ok r =>
    obtain ⟨u, index, es⟩ := r
    obtain ⟨set, hset, -⟩ := exists_ofSequence_of_runChanges h hrun
    simp [hset]

theorem checkedChanges_eq {s : Snapshot} (hs : s.Made) (version : Int)
    (h : AmongOffsets cs s.text) : s.checkedChanges version cs = s.applyChanges version cs := by
  rw [checkedChanges, applyChanges, hs.lineIndex_eq, checkedRun_eq h]
  cases hrun : runChanges s.text (.ofText s.text) cs with
  | error f => rfl
  | ok r =>
    obtain ⟨u, index, es⟩ := r
    obtain ⟨set, hset, hchecked⟩ := exists_ofSequence_of_runChanges h hrun
    simp only [hset, hchecked, Failure.ofRefusal_ok, ok_bind]

theorem applyChanges_of_stale {s : Snapshot} {version : Int} (h : version ≤ s.id.version)
    (changes : List ContentChange) : s.applyChanges version changes =
      .error (.refused (.staleVersion s.id.document s.id.version version)) := if_pos h

/-- What changes can be refused with: their version, a position or a range. -/
theorem applyChanges_error_cases {s : Snapshot} (hs : s.Made) {version : Int}
    (h : AmongOffsets cs s.text) {failure : Failure}
    (hfail : s.applyChanges version cs = .error failure) :
    failure = .refused (.staleVersion s.id.document s.id.version version) ∨
      (∃ p : Position, failure = .refused (.positionOutOfBounds p.line p.character) ∨
        failure = .refused (.splitSurrogatePair p.line p.character)) ∨
      ∃ before range new after u m n, failure = .refused (.invertedRange m n) ∧
        cs = before ++ within range new :: after ∧ MakeAll before s.text u ∧
        u.Resolves range.start (.ok m) ∧ u.Resolves range.stop (.ok n) ∧ n < m := by
  by_cases hle : version ≤ s.id.version
  · exact .inl (Except.error.inj (hfail.symm.trans (applyChanges_of_stale hle cs)))
  · obtain ⟨e, rfl, before, c, after, u, hcut, hall, hrefused⟩ :=
      (applyChanges_eq_error_iff hs (Int.not_le.mp hle) h).mp hfail
    rcases hrefused.error_cases with ⟨p, rfl | rfl⟩ | ⟨range, new, m, n, rfl, rfl, hresolves⟩
    · exact .inr (.inl ⟨p, .inl rfl⟩)
    · exact .inr (.inl ⟨p, .inr rfl⟩)
    · exact .inr (.inr ⟨before, range, new, after, u, m, n, rfl, hcut, hall, hresolves⟩)

/-- Changes to a version that is not later are refused, whatever they are. Changes to a later one
fail exactly if one of them is refused in the text that those before it leave, and with the error of
the first such change: no edit is refused, no range that ends where it starts or later is refused as
inverted, and no step meets a fault. -/
theorem applyChanges_refuses {s : Snapshot} (hs : s.Made) (version : Int)
    (changes : List ContentChange) :
    (version ≤ s.id.version → s.applyChanges version changes =
      .error (.refused (.staleVersion s.id.document s.id.version version))) ∧
    (AmongOffsets changes s.text →
      (s.id.version < version → ∀ failure, s.applyChanges version changes = .error failure ↔
        ∃ e, failure = .refused e ∧ RefusedIn changes s.text e) ∧
      (∀ start stop size, s.applyChanges version changes ≠
        .error (.refused (.editOutOfBounds start stop size))) ∧
      (∀ start stop, s.applyChanges version changes ≠
        .error (.refused (.overlappingEdits start stop))) ∧
      (∀ m n, s.applyChanges version changes = .error (.refused (.invertedRange m n)) →
        ∃ before range new after u, changes = before ++ within range new :: after ∧
          MakeAll before s.text u ∧ u.Resolves range.start (.ok m) ∧
          u.Resolves range.stop (.ok n) ∧
          (range.stop.line < range.start.line ∨
            range.stop.line = range.start.line ∧ range.stop.character < range.start.character)) ∧
      (∀ f, s.applyChanges version changes ≠ .error (.fault f)) ∧
      s.checkedChanges version changes = s.applyChanges version changes) := by
  refine ⟨fun hle => applyChanges_of_stale hle changes, fun h => ?_⟩
  refine ⟨fun hversion failure => applyChanges_eq_error_iff hs hversion h, ?_, ?_, ?_, ?_,
    checkedChanges_eq hs version h⟩
  · intro start stop size hfail
    rcases applyChanges_error_cases hs h hfail with
      heq | ⟨p, heq | heq⟩ | ⟨_, _, _, _, _, _, _, heq, -⟩ <;> cases heq
  · intro start stop hfail
    rcases applyChanges_error_cases hs h hfail with
      heq | ⟨p, heq | heq⟩ | ⟨_, _, _, _, _, _, _, heq, -⟩ <;> cases heq
  · intro m n hfail
    rcases applyChanges_error_cases hs h hfail with
      heq | ⟨p, heq | heq⟩ |
        ⟨before, range, new, after, u, _, _, heq, hcut, hall, hstart, hstop, hlt⟩ <;> cases heq
    exact ⟨before, range, new, after, u, hcut, hall, hstart, hstop,
      stop_before_start hstart hstop hlt⟩
  · intro f hfail
    rcases applyChanges_error_cases hs h hfail with
      heq | ⟨p, heq | heq⟩ | ⟨_, _, _, _, _, _, _, heq, -⟩ <;> cases heq

/-- A position that splits a character of the text that another change has left, one that stands
nowhere, and the old version again. -/
theorem applyChanges_refuses_split :
    let s : Snapshot := .ofText ⟨⟨0⟩, 1⟩ "file:///a" "aé\r\nb".toList
    let changes : List ContentChange :=
      [.within ⟨⟨0, 1⟩, ⟨1, 0⟩⟩ "😀".toList, .within ⟨⟨0, 2⟩, ⟨7, 0⟩⟩ [], .whole []]
    s.Made ∧ AmongOffsets changes s.text ∧
      s.applyChanges 1 changes = .error (.refused (.staleVersion ⟨0⟩ 1 1)) ∧
      RefusedIn changes s.text (.splitSurrogatePair 0 2) ∧
      s.checkedChanges 2 changes = .error (.refused (.splitSurrogatePair 0 2)) := by
  intro s changes
  have hs : s.Made := .ofText _ _ _
  have hsizes : AmongOffsets changes s.text := amongOffsets_of_newSizes (by decide)
  have hrefused : s.applyChanges 2 changes = .error (.refused (.splitSurrogatePair 0 2)) := rfl
  obtain ⟨hstale, -⟩ := applyChanges_refuses hs 1 changes
  obtain ⟨-, hlater⟩ := applyChanges_refuses hs 2 changes
  obtain ⟨hiff, -, -, -, -, hchecked⟩ := hlater hsizes
  obtain ⟨e, ⟨⟩, hin⟩ := (hiff (by decide) _).mp hrefused
  exact ⟨hs, hsizes, hstale (by decide), hin, hchecked.trans hrefused⟩

end Snapshot

end IncrementalSyntax
