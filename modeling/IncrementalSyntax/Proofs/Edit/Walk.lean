import IncrementalSyntax.Proofs.Edit.Composition

/-!
Composition with every number checked. `EditSet.compose` cuts the edits of a set in three: those
that end before the new edit, those that it meets, and those behind it. Here one walk over the set
finds the same parts by their places in it, and every length, sum and cut is checked: lengths are
offsets, sums have 64 bits. The edits of a set that leads from one text to another stand in the
first one, and what they put in stands in the second one (`Within`). Where all places of both texts
are offsets, the numbers of the walk are small and no check fails (`checkedCompose_eq`).
-/
namespace IncrementalSyntax

/-- A number of 64 bits. -/
def long (n : Int) : Except Fault Int :=
  if -9223372036854775808 ≤ n ∧ n ≤ 9223372036854775807 then .ok n else .error .overflow

theorem long_eq_ok {n : Int} (hlow : -9223372036854775808 ≤ n) (hhigh : n ≤ 9223372036854775807) :
    long n = .ok n := if_pos ⟨hlow, hhigh⟩

theorem Failure.ofRefusal_bind {α β : Type} (x : Except Error α) (f : α → Except Error β) :
    ofRefusal (x >>= f) = ofRefusal x >>= fun a => ofRefusal (f a) := by
  cases x <;> rfl

namespace TextEdit

def checkedSize (e : TextEdit) : Except Fault Nat := Offset.add 0 e.insertSize

def checkedDelta (e : TextEdit) : Except Fault Int := do
  let put ← e.checkedSize
  let taken ← Offset.sub e.stop e.start
  long (put - taken)

end TextEdit

namespace EditSet

/-- What a walk over a set of edits has counted: by how much the edits before the new one make the
text longer, by how much all edits so far do, and the place of the first edit that is met. -/
structure Walk where
  before : Int
  running : Int
  first : Option Nat

/-- Walks over the edits from place `i` on, up to the first one behind the new edit, and gives the
place of that one too. -/
def Walk.run (edit : TextEdit) (i : Nat) (w : Walk) : List TextEdit → Except Fault (Walk × Nat)
  | [] => .ok (w, i)
  | e :: es => do
    let start ← long (e.start + w.running)
    let size ← e.checkedSize
    let stop ← long (start + size)
    if stop < edit.start then
      let delta ← e.checkedDelta
      let before ← long (w.before + delta)
      let running ← long (w.running + delta)
      run edit (i + 1) { w with before, running } es
    else if edit.stop < start then .ok (w, i)
    else
      let delta ← e.checkedDelta
      let running ← long (w.running + delta)
      run edit (i + 1) { w with running, first := some (w.first.getD i) } es

def checkedTotal (sum : Int) : List TextEdit → Except Fault Int
  | [] => .ok sum
  | e :: es => do
    let delta ← e.checkedDelta
    checkedTotal (← long (sum + delta)) es

/-- The numbers by which a merge cuts: how much of the first replacement it keeps, from where and up
to where it keeps the last one, and where its own range starts and stops. -/
structure Seam where
  keep : Int
  resume : Int
  last : Int
  start : Int
  stop : Int

def Seam.make (shift : Int) (group : List TextEdit) (head last edit : TextEdit) :
    Except Fault Seam := do
  let headStart ← long (head.start + shift)
  let delta ← checkedTotal 0 group
  let moved ← long (last.start + shift)
  let together ← long (moved + delta)
  let lastStart ← long (together - (← last.checkedDelta))
  let lastStop ← long (lastStart + (← last.checkedSize))
  let start ← long (edit.start - shift)
  let behind ← long (edit.stop - shift)
  let stop ← long (behind - delta)
  let keep ← long (edit.start - headStart)
  let resume ← long (edit.stop - lastStart)
  let last ← long (lastStop - lastStart)
  return ⟨keep, resume, last, start, stop⟩

def checkedMerge (shift : Int) (group : List TextEdit) (edit : TextEdit) :
    Except Failure TextEdit :=
  match group.head?, group.getLast? with
  | some head, some last => do
    let seam ← Failure.ofFault (Seam.make shift group head last edit)
    let before ← Failure.ofRefusal (cutOf head.replacement 0 seam.keep)
    let after ← Failure.ofRefusal (cutOf last.replacement seam.resume seam.last)
    let range ← Failure.ofRefusal (rangeOf (min seam.start head.start) (max seam.stop last.stop))
    return ⟨range, before ++ edit.replacement ++ after⟩
  | _, _ => do
    let start ← Failure.ofFault (long (edit.start - shift))
    let stop ← Failure.ofFault (long (edit.stop - shift))
    let range ← Failure.ofRefusal (rangeOf start stop)
    return ⟨range, edit.replacement⟩

/-- The edits from one place of a list up to another, and those before and behind them. -/
def cutOut (es : List TextEdit) (first last : Nat) :
    Except Fault (List TextEdit × List TextEdit × List TextEdit) :=
  if first ≤ last ∧ last ≤ es.length then
    .ok (es.take first, (es.drop first).take (last - first), es.drop last)
  else .error .missing

/-- `EditSet.compose` in one walk over the set. -/
def checkedCompose (s : EditSet) (edit : TextEdit) : Except Failure EditSet := do
  let (walk, last) ← Failure.ofFault (Walk.run edit 0 ⟨0, 0, none⟩ s.edits)
  let (before, group, after) ← Failure.ofFault (cutOut s.edits (walk.first.getD last) last)
  let merged ← checkedMerge walk.before group edit
  return ⟨before ++ merged :: after⟩

def checkedSequence (edits : List TextEdit) : Except Failure EditSet :=
  edits.foldlM checkedCompose empty

/-- Edits that stand one behind the other where all places are offsets. The edits before them move
them by `shift`, and so moved none stands before `place`; what they put in then stands among offsets
too. -/
inductive Within : Int → Int → List TextEdit → Prop
  | nil (place shift : Int) : Within place shift []
  | cons {place shift : Int} {e : TextEdit} {es : List TextEdit} (hplace : place ≤ e.start + shift)
    (hstop : e.stop ≤ Offset.greatest)
    (hput : e.start + shift + e.insertSize ≤ (Offset.greatest : Nat))
    (rest : Within (e.start + shift + e.insertSize) (shift + e.delta) es) :
    Within place shift (e :: es)

/-- The edits between two texts of offsets stand among offsets. -/
theorem within_of_rewrites {n : Nat} {es : List TextEdit} {t u : Text} (h : Rewrites n es t u)
    (shift : Int) (ht : n + t.size ≤ Offset.greatest)
    (hu : n + shift + u.size ≤ (Offset.greatest : Nat)) : Within (n + shift) shift es := by
  induction es generalizing n t u shift with
  | nil => exact .nil _ _
  | cons e es ih =>
    obtain ⟨kept, old, t', u', rfl, rfl, hstart, hstop, rest⟩ := h.cons_inv
    have hdelta := e.delta_eq
    have hsize : e.replacement.size = e.insertSize := rfl
    simp only [Text.size_append, hsize] at ht hu
    have hnext : (e.stop : Int) + (shift + e.delta) = e.start + shift + e.insertSize := by omega
    refine .cons (by omega) (by omega) (by omega) ?_
    rw [← hnext]
    exact ih rest _ (by omega) (by omega)

section Steps

variable {place shift : Int} {e edit : TextEdit} {es after : List TextEdit}

theorem Within.append_inv (h : Within place shift (es ++ after)) :
    ∃ place', place ≤ place' ∧ Within place' (shift + totalDelta es) after := by
  induction es generalizing place shift with
  | nil => exact ⟨place, Int.le_refl _, by simpa using h⟩
  | cons e es ih =>
    cases h with
    | cons hplace _ _ rest =>
      obtain ⟨place', hle, hafter⟩ := ih rest
      refine ⟨place', by omega, ?_⟩
      rwa [totalDelta_cons, ← Int.add_assoc]

/-- What an edit among offsets changes is small, and so is what moves it. -/
structure Small (shift : Int) (e : TextEdit) : Prop where
  start : 0 ≤ e.start + shift ∧ e.start + shift ≤ 4294967295
  shift : -4294967295 ≤ shift ∧ shift ≤ 4294967295
  delta : -4294967295 ≤ e.delta ∧ e.delta ≤ 4294967295
  size : e.insertSize ≤ 4294967295
  stop : e.start ≤ e.stop ∧ e.stop ≤ 4294967295

theorem Within.small (h : Within place shift (e :: es)) (hpos : 0 ≤ place) : Small shift e := by
  cases h with
  | cons hplace hstop hput rest =>
    have hdelta := e.delta_eq
    have hle := e.start_le_stop
    rw [Offset.greatest] at hstop hput
    constructor <;> omega

theorem Small.checkedSize (h : Small shift e) : e.checkedSize = .ok e.insertSize := by
  have hle : 0 + e.insertSize ≤ Offset.greatest := by
    have := h.size
    rw [Offset.greatest]
    omega
  rw [TextEdit.checkedSize, Offset.add_eq_ok hle, Nat.zero_add]

theorem Small.checkedDelta (h : Small shift e) : e.checkedDelta = .ok e.delta := by
  have hdelta := e.delta_eq
  have hbounds := h.delta
  have hle := h.stop.1
  have heq : (e.insertSize : Int) - (e.stop - e.start : Nat) = e.delta := by omega
  rw [TextEdit.checkedDelta, h.checkedSize, ok_bind, Offset.sub_eq_ok hle, ok_bind, heq,
    long_eq_ok (by omega) (by omega)]

theorem Small.long_start (h : Small shift e) : long (e.start + shift) = .ok (e.start + shift) := by
  obtain ⟨hstart, -⟩ := h
  exact long_eq_ok (by omega) (by omega)

theorem Small.long_stop (h : Small shift e) :
    long (e.start + shift + e.insertSize) = .ok (e.start + shift + e.insertSize) := by
  obtain ⟨hstart, -, -, hsize, -⟩ := h
  exact long_eq_ok (by omega) (by omega)

theorem Small.long_next (h : Small shift e) : long (shift + e.delta) = .ok (shift + e.delta) := by
  obtain ⟨-, hshift, hdelta, -⟩ := h
  exact long_eq_ok (by omega) (by omega)

def endsBefore (edit : TextEdit) (shift : Int) (e : TextEdit) : Bool :=
  e.start + shift + e.insertSize < (edit.start : Int)

def startsWithin (edit : TextEdit) (shift : Int) (e : TextEdit) : Bool :=
  e.start + shift ≤ (edit.stop : Int)

/-- The walk counts the edits that end before the new one, and goes on behind them. -/
theorem Walk.run_before (h : Within place shift es) (hpos : 0 ≤ place) {passed rest : List TextEdit}
    (hcut : spanMoved (endsBefore edit) shift es = (passed, rest)) (i : Nat) :
    Walk.run edit i ⟨shift, shift, none⟩ es =
      Walk.run edit (i + passed.length)
        ⟨shift + totalDelta passed, shift + totalDelta passed, none⟩ rest := by
  induction es generalizing place shift passed i with
  | nil =>
    obtain ⟨rfl, rfl⟩ := Prod.mk.inj hcut
    simp
  | cons e es ih =>
    rw [spanMoved] at hcut
    split at hcut
    next hends =>
      rcases hspan : spanMoved (endsBefore edit) (shift + e.delta) es with ⟨taken, left⟩
      rw [hspan] at hcut
      obtain ⟨rfl, rfl⟩ := Prod.mk.inj hcut
      have hsmall := h.small hpos
      cases h with
      | cons hplace _ _ rest =>
        have hnext := ih rest (by omega) hspan (i + 1)
        rw [endsBefore, decide_eq_true_eq] at hends
        simp only [Walk.run, hsmall.long_start, hsmall.checkedSize, hsmall.long_stop, if_pos hends,
          hsmall.checkedDelta, hsmall.long_next, ok_bind, hnext]
        simp [Int.add_assoc, Nat.add_assoc, Nat.add_comm 1]
    next =>
      obtain ⟨rfl, rfl⟩ := Prod.mk.inj hcut
      simp

/-- Behind them it counts the edits that the new one meets, and ends with the first of the others:
no edit behind one that is met ends before the new one. -/
theorem Walk.run_group (h : Within place shift es) (hpos : 0 ≤ place) {group after : List TextEdit}
    (hcut : spanMoved (startsWithin edit) shift es = (group, after))
    (hmet : ∀ e fs, es = e :: fs → (edit.start : Int) ≤ e.start + shift + e.insertSize)
    (before : Int) (first : Option Nat) (i : Nat) :
    Walk.run edit i ⟨before, shift, first⟩ es =
      .ok (⟨before, shift + totalDelta group, if group = [] then first else some (first.getD i)⟩,
        i + group.length) := by
  induction es generalizing place shift group first i with
  | nil =>
    obtain ⟨rfl, rfl⟩ := Prod.mk.inj hcut
    simp [Walk.run]
  | cons e es ih =>
    have hsmall := h.small hpos
    have hnot := Int.not_lt.mpr (hmet e es rfl)
    rw [spanMoved] at hcut
    split at hcut
    next hwithin =>
      rcases hspan : spanMoved (startsWithin edit) (shift + e.delta) es with ⟨taken, left⟩
      rw [hspan] at hcut
      obtain ⟨rfl, rfl⟩ := Prod.mk.inj hcut
      cases h with
      | cons hplace _ _ rest =>
        have hnext := ih rest (by omega) hspan
          (by
            rintro f fs rfl
            cases rest with
            | cons hbehind _ _ _ => omega)
          (some (first.getD i)) (i + 1)
        rw [startsWithin, decide_eq_true_eq, ← Int.not_lt] at hwithin
        simp only [Walk.run, hsmall.long_start, hsmall.checkedSize, hsmall.long_stop, if_neg hnot,
          if_neg hwithin, hsmall.checkedDelta, hsmall.long_next, ok_bind, hnext]
        simp [Int.add_assoc, Nat.add_assoc, Nat.add_comm 1]
    next hbehind =>
      obtain ⟨rfl, rfl⟩ := Prod.mk.inj hcut
      rw [startsWithin, decide_eq_true_eq, Int.not_le] at hbehind
      simp only [Walk.run, hsmall.long_start, hsmall.checkedSize, hsmall.long_stop, if_neg hnot,
        if_pos hbehind, ok_bind]
      simp

theorem checkedTotal_eq (h : Within place shift (es ++ after)) (hpos : 0 ≤ place) (sum : Int)
    (hlow : -4294967295 ≤ sum - shift) (hhigh : sum - shift ≤ 4294967295) :
    checkedTotal sum es = .ok (sum + totalDelta es) := by
  induction es generalizing place shift sum with
  | nil => simp [checkedTotal]
  | cons e es ih =>
    have hsmall := h.small hpos
    have ⟨_, hshift, hdelta, _, _⟩ := hsmall
    cases h with
    | cons hplace _ _ rest =>
      have hlong : long (sum + e.delta) = .ok (sum + e.delta) :=
        long_eq_ok (by omega) (by omega)
      rw [checkedTotal, hsmall.checkedDelta, ok_bind, hlong, ok_bind,
        ih rest (by omega) _ (by omega) (by omega), totalDelta_cons, Int.add_assoc]

theorem Seam.make_eq {group init : List TextEdit} {head last : TextEdit}
    (hinit : group = init ++ [last]) (h : Within place shift (group ++ after)) (hpos : 0 ≤ place)
    (hhead : Small shift head) (hedit : edit.stop ≤ Offset.greatest) :
    Seam.make shift group head last edit =
      .ok ⟨edit.start - (head.start + shift),
        edit.stop - (last.start + shift + totalDelta group - last.delta),
        last.start + shift + totalDelta group - last.delta + last.insertSize -
          (last.start + shift + totalDelta group - last.delta),
        edit.start - shift, edit.stop - shift - totalDelta group⟩ := by
  have ⟨hheadStart, hshift, _, _, _⟩ := hhead
  have htotal := checkedTotal_eq h hpos 0 (by omega) (by omega)
  have hsmall : Small (shift + totalDelta init) last := by
    rw [hinit, List.append_assoc] at h
    obtain ⟨place', hle, hrest⟩ := h.append_inv
    exact hrest.small (by omega)
  have ⟨hstart, hmoved, hdelta, hsize, hstop⟩ := hsmall
  have hsum : totalDelta group = totalDelta init + last.delta := by simp [hinit]
  have hle := edit.start_le_stop
  rw [Offset.greatest] at hedit
  rw [Int.zero_add] at htotal
  rw [Seam.make, htotal]
  simp (disch := omega) only [long_eq_ok, hsmall.checkedDelta, hsmall.checkedSize, ok_bind,
    pure_eq_ok]

theorem checkedMerge_eq {group : List TextEdit} (h : Within place shift (group ++ after))
    (hpos : 0 ≤ place) (hlow : -4294967295 ≤ shift) (hhigh : shift ≤ 4294967295)
    (hedit : edit.stop ≤ Offset.greatest) :
    checkedMerge shift group edit = Failure.ofRefusal (merge shift group edit) := by
  rcases List.eq_nil_or_concat group with rfl | ⟨init, last, rfl⟩
  · have hle := edit.start_le_stop
    rw [Offset.greatest] at hedit
    have hstart : long (edit.start - shift) = .ok (edit.start - shift) :=
      long_eq_ok (by omega) (by omega)
    have hstop : long (edit.stop - shift) = .ok (edit.stop - shift) :=
      long_eq_ok (by omega) (by omega)
    simp only [checkedMerge, merge, List.head?_nil, hstart, hstop, Failure.ofFault_ok, ok_bind,
      Failure.ofRefusal_bind, pure_eq_ok, Failure.ofRefusal_ok]
  · rw [List.concat_eq_append] at *
    obtain ⟨head, tail, hcons⟩ := List.exists_cons_of_ne_nil (List.concat_ne_nil last init)
    have hhead : Small shift head := by
      rw [hcons] at h
      exact h.small hpos
    have hseam := Seam.make_eq rfl h hpos hhead hedit
    have hfirst : (init ++ [last]).head? = some head := by
      rw [hcons, List.head?_cons]
    simp only [checkedMerge, merge, hfirst, List.getLast?_concat, hseam, Failure.ofFault_ok,
      ok_bind, Failure.ofRefusal_bind, pure_eq_ok, Failure.ofRefusal_ok]

end Steps

theorem compose_eq {s : EditSet} {edit : TextEdit} {passed rest group after : List TextEdit}
    (hfirst : spanMoved (endsBefore edit) 0 s.edits = (passed, rest))
    (hsecond : spanMoved (startsWithin edit) (totalDelta passed) rest = (group, after)) :
    s.compose edit = merge (totalDelta passed) group edit >>= fun merged =>
      pure ⟨passed ++ merged :: after⟩ := by
  unfold endsBefore at hfirst
  unfold startsWithin at hsecond
  simp only [compose, hfirst, hsecond]

theorem cutOut_append (before group after : List TextEdit) :
    cutOut (before ++ (group ++ after)) before.length (before.length + group.length) =
      .ok (before, group, after) := by
  rw [cutOut, if_pos ⟨Nat.le_add_right _ _, by simp⟩]
  simp [← List.drop_drop]

/-- The step lemma: the walk composes as `compose` does, and meets no fault. -/
theorem checkedCompose_eq {s : EditSet} {edit : TextEdit} {t u : Text} (h : Rewrites 0 s.edits t u)
    (ht : t.size ≤ Offset.greatest) (hu : u.size ≤ Offset.greatest) (hedit : edit.stop ≤ u.size) :
    s.checkedCompose edit = Failure.ofRefusal (s.compose edit) := by
  have hwithin : Within 0 0 s.edits := by
    have hat := within_of_rewrites h 0 (by omega) (by omega)
    simpa using hat
  rcases hfirst : spanMoved (endsBefore edit) 0 s.edits with ⟨passed, rest⟩
  rcases hsecond : spanMoved (startsWithin edit) (totalDelta passed) rest with ⟨group, after⟩
  have hedits : passed ++ rest = s.edits := append_eq_of_spanMoved hfirst
  have hrest : group ++ after = rest := append_eq_of_spanMoved hsecond
  have hmet : ∀ e fs, rest = e :: fs →
      (edit.start : Int) ≤ e.start + totalDelta passed + e.insertSize := by
    rintro e fs rfl
    simpa [endsBefore] using spanMoved_left hfirst
  have hbefore := Walk.run_before hwithin (Int.le_refl 0) hfirst 0
  rw [← hedits] at hwithin h
  obtain ⟨t₁, t₂, u₁, u₂, rfl, rfl, hpassed, -⟩ := h.append_inv
  have hsize := hpassed.size_eq
  rw [Text.size_append] at ht hu
  rw [Offset.greatest] at ht hu
  obtain ⟨place, hpos, hbehind⟩ := hwithin.append_inv
  rw [Int.zero_add] at hbehind
  have hgroup := Walk.run_group hbehind hpos hsecond hmet (totalDelta passed) none passed.length
  have hoffset : edit.stop ≤ Offset.greatest := by
    rw [Text.size_append] at hedit
    rw [Offset.greatest]
    omega
  have hmerge := checkedMerge_eq (hrest ▸ hbehind) hpos (by omega) (by omega) hoffset
  -- an edit that is met first stands right behind those passed, and without one so does the last
  have hplace : (if group = [] then none else some passed.length).getD
      (passed.length + group.length) = passed.length := by
    split <;> simp [*]
  have hcut : cutOut s.edits passed.length (passed.length + group.length) =
      .ok (passed, group, after) := by
    rw [← hedits, ← hrest, cutOut_append]
  rw [Int.zero_add, Nat.zero_add, hgroup, Option.getD_none] at hbefore
  simp only [checkedCompose, hbefore, hplace, hcut, hmerge, compose_eq hfirst hsecond,
    Failure.ofFault_ok, ok_bind, Failure.ofRefusal_bind, pure_eq_ok, Failure.ofRefusal_ok]

/-- All texts that edits leave in turn have only offsets as places. -/
def AmongOffsets : List TextEdit → Text → Prop
  | [], t => t.size ≤ Offset.greatest
  | e :: es, t => t.size ≤ Offset.greatest ∧ ∀ u, e.splice t = .ok u → AmongOffsets es u

theorem AmongOffsets.size_le {es : List TextEdit} {t : Text} (h : AmongOffsets es t) :
    t.size ≤ Offset.greatest := by
  cases es with
  | nil => exact h
  | cons e es => exact h.1

theorem foldlM_checkedCompose {es : List TextEdit} {s : EditSet} {t u : Text}
    (h : Rewrites 0 s.edits t u) (ht : t.size ≤ Offset.greatest) (hfits : TextEdit.FitInTurn es u)
    (hsizes : AmongOffsets es u) :
    es.foldlM checkedCompose s = Failure.ofRefusal (es.foldlM compose s) := by
  induction es generalizing s u with
  | nil => rfl
  | cons e es ih =>
    obtain ⟨hfit, hnext⟩ := hfits
    obtain ⟨before, old, behind, rfl, hstart, hstop⟩ := TextEdit.fits_iff.mp hfit
    have hsplice := TextEdit.splice_eq_ok (b := behind) hstart hstop
    obtain ⟨s₁, h₁, hcompose, -⟩ := exists_composed h hstart hstop
    have hwithin : e.stop ≤ (before ++ old ++ behind).size := by
      simp only [Text.size_append]
      omega
    rw [List.foldlM_cons, List.foldlM_cons, checkedCompose_eq h ht hsizes.1 hwithin, hcompose ht,
      Failure.ofRefusal_ok, ok_bind, ok_bind]
    exact ih h₁ (hnext _ hsplice) (hsizes.2 _ hsplice)

/-- The run lemma: composing edits that are made one after the other meets no fault. -/
theorem checkedSequence_eq {es : List TextEdit} {t : Text} (hfits : TextEdit.FitInTurn es t)
    (hsizes : AmongOffsets es t) :
    checkedSequence es = Failure.ofRefusal (ofSequence es) :=
  foldlM_checkedCompose (.nil 0 t) hsizes.size_le hfits hsizes

end EditSet

end IncrementalSyntax
