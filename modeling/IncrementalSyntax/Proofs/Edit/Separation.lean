import IncrementalSyntax.Proofs.Edit.Order
import IncrementalSyntax.Proofs.Edit.Walk

/-!
Edits in turn, whatever they are: they need not fit any text. Composing them either gives a set
whose edits are apart from each other or refuses one of them as out of bounds (`error_of_compose`);
since the edits of a set are in order, no merged edit ends before it starts. The one walk over a set
that `EditSet.checkedCompose` makes relies on that order too: behind an edit that is met, none ends
before the new one. So where all its numbers have room, the walk composes as `compose` does, also
for edits that are placed in no text (`checkedCompose_agrees`).
-/
namespace IncrementalSyntax

/-- A computation in two parts fails in the first part or in the second one. -/
theorem bind_eq_error {ε α β : Type} {x : Except ε α} {f : α → Except ε β} {e : ε}
    (h : (x >>= f) = .error e) : x = .error e ∨ ∃ a, x = .ok a ∧ f a = .error e := by
  cases x with
  | error e' => exact .inl (congrArg Except.error (Except.error.inj h))
  | ok a => exact .inr ⟨a, rfl, h⟩

theorem eq_of_long {n m : Int} (h : long n = .ok m) : m = n := by
  rw [long] at h
  split at h
  next => exact (Except.ok.inj h).symm
  next => simp at h

namespace Failure

section Agrees

variable {α β : Type}

/-- The first computation gives what the second one does, unless it meets a fault. -/
def Agrees (x : Except Failure α) (y : Except Error α) : Prop :=
  x = ofRefusal y ∨ ∃ f, x = .error (.fault f)

theorem agrees_ofRefusal (y : Except Error α) : Agrees (ofRefusal y) y := .inl rfl

theorem agrees_ok (a : α) : Agrees (.ok a) (.ok a) := .inl rfl

theorem agrees_ofFault_bind {x : Except Fault α} {f : α → Except Failure β} {y : Except Error β}
    (h : ∀ a, x = .ok a → Agrees (f a) y) : Agrees (ofFault x >>= f) y := by
  cases x with
  | error fault => exact .inr ⟨fault, rfl⟩
  | ok a => exact h a rfl

theorem Agrees.bind {x : Except Failure α} {y : Except Error α} {f : α → Except Failure β}
    {g : α → Except Error β} (hxy : Agrees x y) (h : ∀ a, y = .ok a → Agrees (f a) (g a)) :
    Agrees (x >>= f) (y >>= g) := by
  rcases hxy with rfl | ⟨fault, rfl⟩
  · cases y with
    | error e => exact .inl rfl
    | ok a => exact h a rfl
  · exact .inr ⟨fault, rfl⟩

end Agrees

end Failure

namespace TextEdit

variable {e : TextEdit}

theorem eq_of_checkedSize {n : Nat} (h : e.checkedSize = .ok n) : n = e.insertSize := by
  rw [checkedSize, Offset.add] at h
  split at h
  next => rw [← Except.ok.inj h, Nat.zero_add]
  next => simp at h

theorem eq_of_checkedDelta {d : Int} (h : e.checkedDelta = .ok d) : d = e.delta := by
  have hle := e.start_le_stop
  have hdelta := e.delta_eq
  obtain ⟨put, hput, h⟩ := bind_eq_ok_iff.mp h
  rw [Offset.sub_eq_ok hle, ok_bind, eq_of_checkedSize hput] at h
  rw [eq_of_long h]
  omega

end TextEdit

namespace EditSet

open Failure (Agrees)

/-- Behind the edits that end before the new one the walk goes on with what they add. -/
theorem Walk.run_of_passed {edit : TextEdit} {shift : Int} {es passed rest : List TextEdit}
    {result : Walk × Nat} (hcut : spanMoved (endsBefore edit) shift es = (passed, rest)) {i : Nat}
    (h : Walk.run edit i ⟨shift, shift, none⟩ es = .ok result) :
    Walk.run edit (i + passed.length)
      ⟨shift + totalDelta passed, shift + totalDelta passed, none⟩ rest = .ok result := by
  induction es generalizing shift passed i with
  | nil =>
    obtain ⟨rfl, rfl⟩ := Prod.mk.inj hcut
    simpa using h
  | cons e es ih =>
    rw [spanMoved] at hcut
    split at hcut
    next hends =>
      rcases hspan : spanMoved (endsBefore edit) (shift + e.delta) es with ⟨taken, left⟩
      rw [hspan] at hcut
      obtain ⟨rfl, rfl⟩ := Prod.mk.inj hcut
      rw [endsBefore, decide_eq_true_eq] at hends
      obtain ⟨start, hstart, h⟩ := bind_eq_ok_iff.mp h
      obtain ⟨size, hsize, h⟩ := bind_eq_ok_iff.mp h
      obtain ⟨stop, hstop, h⟩ := bind_eq_ok_iff.mp h
      rw [eq_of_long hstop, eq_of_long hstart, TextEdit.eq_of_checkedSize hsize, if_pos hends] at h
      obtain ⟨delta, hdelta, h⟩ := bind_eq_ok_iff.mp h
      obtain ⟨before, hbefore, h⟩ := bind_eq_ok_iff.mp h
      obtain ⟨running, hrunning, h⟩ := bind_eq_ok_iff.mp h
      rw [eq_of_long hbefore, eq_of_long hrunning, TextEdit.eq_of_checkedDelta hdelta] at h
      simpa [Int.add_assoc, Nat.add_assoc, Nat.add_comm 1] using ih hspan h
    next =>
      obtain ⟨rfl, rfl⟩ := Prod.mk.inj hcut
      simpa using h

/-- An edit that stands apart behind one that is met does not end before the new one. -/
theorem met_of_separated {edit e f : TextEdit} {es : List TextEdit} {shift : Int}
    (hes : Separated (e :: f :: es))
    (hmet : (edit.start : Int) ≤ e.start + shift + e.insertSize) :
    (edit.start : Int) ≤ f.start + (shift + e.delta) + f.insertSize := by
  have hlt := (List.pairwise_cons.mp hes).1 f (by simp)
  have hdelta := e.delta_eq
  omega

/-- From the first edit that is met the walk takes all edits that the new one reaches. -/
theorem Walk.eq_of_run_group {edit : TextEdit} {shift before : Int}
    {es group after : List TextEdit} {first : Option Nat} {result : Walk × Nat}
    (hes : Separated es) (hcut : spanMoved (startsWithin edit) shift es = (group, after))
    (hmet : ∀ e fs, es = e :: fs → (edit.start : Int) ≤ e.start + shift + e.insertSize) {i : Nat}
    (h : Walk.run edit i ⟨before, shift, first⟩ es = .ok result) :
    result = (⟨before, shift + totalDelta group,
      if group = [] then first else some (first.getD i)⟩, i + group.length) := by
  induction es generalizing shift group first i with
  | nil =>
    obtain ⟨rfl, rfl⟩ := Prod.mk.inj hcut
    simpa [Walk.run] using (Except.ok.inj h).symm
  | cons e es ih =>
    have hnot := Int.not_lt.mpr (hmet e es rfl)
    obtain ⟨start, hstart, h⟩ := bind_eq_ok_iff.mp h
    obtain ⟨size, hsize, h⟩ := bind_eq_ok_iff.mp h
    obtain ⟨stop, hstop, h⟩ := bind_eq_ok_iff.mp h
    rw [eq_of_long hstop, eq_of_long hstart, TextEdit.eq_of_checkedSize hsize, if_neg hnot] at h
    rw [spanMoved] at hcut
    split at hcut
    next hwithin =>
      rcases hspan : spanMoved (startsWithin edit) (shift + e.delta) es with ⟨taken, left⟩
      rw [hspan] at hcut
      obtain ⟨rfl, rfl⟩ := Prod.mk.inj hcut
      rw [startsWithin, decide_eq_true_eq, ← Int.not_lt] at hwithin
      rw [if_neg hwithin] at h
      obtain ⟨delta, hdelta, h⟩ := bind_eq_ok_iff.mp h
      obtain ⟨running, hrunning, h⟩ := bind_eq_ok_iff.mp h
      rw [eq_of_long hrunning, TextEdit.eq_of_checkedDelta hdelta] at h
      have hnext := ih (List.pairwise_cons.mp hes).2 hspan
        (by
          rintro f fs rfl
          exact met_of_separated hes (hmet e _ rfl)) h
      simpa [Int.add_assoc, Nat.add_assoc, Nat.add_comm 1] using hnext
    next hbehind =>
      obtain ⟨rfl, rfl⟩ := Prod.mk.inj hcut
      rw [startsWithin, decide_eq_true_eq, Int.not_le] at hbehind
      rw [if_pos hbehind] at h
      simpa using (Except.ok.inj h).symm

theorem eq_of_checkedTotal {es : List TextEdit} {sum total : Int}
    (h : checkedTotal sum es = .ok total) : total = sum + totalDelta es := by
  induction es generalizing sum with
  | nil =>
    obtain rfl := Except.ok.inj h
    simp
  | cons e es ih =>
    obtain ⟨delta, hdelta, h⟩ := bind_eq_ok_iff.mp h
    obtain ⟨next, hnext, h⟩ := bind_eq_ok_iff.mp h
    rw [ih h, eq_of_long hnext, TextEdit.eq_of_checkedDelta hdelta, totalDelta_cons, Int.add_assoc]

/-- The numbers of a merge that are counted are those that `merge` cuts by. -/
theorem Seam.eq_of_make {shift : Int} {group : List TextEdit} {head last edit : TextEdit}
    {seam : Seam} (h : Seam.make shift group head last edit = .ok seam) :
    seam = ⟨edit.start - (head.start + shift),
      edit.stop - (last.start + shift + totalDelta group - last.delta),
      last.start + shift + totalDelta group - last.delta + last.insertSize -
        (last.start + shift + totalDelta group - last.delta),
      edit.start - shift, edit.stop - shift - totalDelta group⟩ := by
  simp only [Seam.make, bind_eq_ok_iff, pure_eq_ok] at h
  obtain ⟨headStart, hheadStart, total, htotal, moved, hmoved, together, htogether, lastDelta,
    hlastDelta, lastStart, hlastStart, lastSize, hlastSize, lastStop, hlastStop, start, hstart,
    behind, hbehind, stop, hstop, keep, hkeep, resume, hresume, size, hsize, h⟩ := h
  rw [← Except.ok.inj h, eq_of_long hkeep, eq_of_long hresume, eq_of_long hsize, eq_of_long hstart,
    eq_of_long hstop, eq_of_long hbehind, eq_of_long hlastStop, eq_of_long hlastStart,
    eq_of_long htogether, eq_of_long hmoved, eq_of_long hheadStart, eq_of_checkedTotal htotal,
    TextEdit.eq_of_checkedDelta hlastDelta, TextEdit.eq_of_checkedSize hlastSize, Int.zero_add]

theorem checkedMerge_agrees (shift : Int) (group : List TextEdit) (edit : TextEdit) :
    Agrees (checkedMerge shift group edit) (merge shift group edit) := by
  rcases List.eq_nil_or_concat group with rfl | ⟨init, last, rfl⟩
  · refine Failure.agrees_ofFault_bind fun start hstart => ?_
    refine Failure.agrees_ofFault_bind fun stop hstop => ?_
    rw [eq_of_long hstart, eq_of_long hstop]
    exact (Failure.agrees_ofRefusal _).bind fun range _ => Failure.agrees_ok _
  · rw [List.concat_eq_append]
    obtain ⟨head, tail, hcons⟩ := List.exists_cons_of_ne_nil (List.concat_ne_nil last init)
    have hfirst : (init ++ [last]).head? = some head := by rw [hcons, List.head?_cons]
    simp only [checkedMerge, merge, hfirst, List.getLast?_concat]
    refine Failure.agrees_ofFault_bind fun seam hseam => ?_
    rw [Seam.eq_of_make hseam]
    refine (Failure.agrees_ofRefusal _).bind fun before _ => ?_
    refine (Failure.agrees_ofRefusal _).bind fun after _ => ?_
    exact (Failure.agrees_ofRefusal _).bind fun range _ => Failure.agrees_ok _

/-- The step lemma: over edits that are apart from each other the walk composes as `compose` does,
unless a number has no room. -/
theorem checkedCompose_agrees {s : EditSet} (hs : Separated s.edits) (edit : TextEdit) :
    Agrees (s.checkedCompose edit) (s.compose edit) := by
  rcases hfirst : spanMoved (endsBefore edit) 0 s.edits with ⟨passed, rest⟩
  rcases hsecond : spanMoved (startsWithin edit) (totalDelta passed) rest with ⟨group, after⟩
  have hedits : passed ++ rest = s.edits := append_eq_of_spanMoved hfirst
  have hrest : group ++ after = rest := append_eq_of_spanMoved hsecond
  rw [compose_eq hfirst hsecond]
  refine Failure.agrees_ofFault_bind fun (walk, last) hwalk => ?_
  have hmet : ∀ e fs, rest = e :: fs →
      (edit.start : Int) ≤ e.start + totalDelta passed + e.insertSize := by
    rintro e fs rfl
    simpa [endsBefore] using spanMoved_left hfirst
  have hgroup := Walk.run_of_passed hfirst hwalk
  rw [Int.zero_add, Nat.zero_add] at hgroup
  rw [← hedits] at hs
  obtain ⟨rfl, rfl⟩ := Prod.mk.inj
    (Walk.eq_of_run_group (List.pairwise_append.mp hs).2.1 hsecond hmet hgroup)
  -- an edit that is met first stands right behind those passed, and without one so does the last
  have hplace : (if group = [] then none else some passed.length).getD
      (passed.length + group.length) = passed.length := by
    split <;> simp [*]
  have hcut := cutOut_append passed group after
  rw [hrest, hedits] at hcut
  simp only [Option.getD_none, hplace, hcut]
  exact (checkedMerge_agrees _ group edit).bind fun merged _ => Failure.agrees_ok _

/-- The run lemma for edits in turn, whatever they are. -/
theorem foldlM_checkedCompose_agrees {s : EditSet} (hs : Separated s.edits) (es : List TextEdit) :
    Agrees (es.foldlM checkedCompose s) (es.foldlM compose s) := by
  induction es generalizing s with
  | nil => exact Failure.agrees_ok s
  | cons e es ih =>
    rw [List.foldlM_cons, List.foldlM_cons]
    exact (checkedCompose_agrees hs e).bind fun s' hs' => ih (separated_compose hs hs')

/-- The error says that an edit does not fit a text. -/
def OutOfBounds (e : Error) : Prop := ∃ start stop size, e = .editOutOfBounds start stop size

theorem outOfBounds_of_cutOf {t : Text} {start stop : Int} {e : Error}
    (h : cutOf t start stop = .error e) : OutOfBounds e := by
  simp only [cutOf] at h
  split at h
  next => simp at h
  next => exact ⟨_, _, _, (Except.error.inj h).symm⟩

/-- A range that does not end before it starts can only have an end that is no offset. -/
theorem outOfBounds_of_rangeOf {start stop : Int} {e : Error} (hle : start ≤ stop)
    (h : rangeOf start stop = .error e) : OutOfBounds e := by
  rw [rangeOf] at h
  split at h
  next =>
    rw [dif_pos (Int.toNat_le_toNat hle)] at h
    simp at h
  next => exact ⟨_, _, _, (Except.error.inj h).symm⟩

/-- A new edit and edits in order that it meets are merged, or refused as out of bounds: the first
of these edits starts before the last one ends. -/
theorem error_of_merge {shift : Int} {group : List TextEdit} {edit : TextEdit} {e : Error}
    (hgroup : InOrder group) (h : merge shift group edit = .error e) : OutOfBounds e := by
  have hedit := edit.start_le_stop
  rcases List.eq_nil_or_concat group with rfl | ⟨init, last, rfl⟩
  · obtain hrange | ⟨range, -, h⟩ := bind_eq_error h
    · exact outOfBounds_of_rangeOf (by omega) hrange
    · simp at h
  · rw [List.concat_eq_append] at *
    obtain ⟨head, tail, hcons⟩ := List.exists_cons_of_ne_nil (List.concat_ne_nil last init)
    have hfirst : (init ++ [last]).head? = some head := by rw [hcons, List.head?_cons]
    have hends : head.start ≤ last.stop := by
      have hhead := head.start_le_stop
      have hlast := last.start_le_stop
      have hmem : head ∈ init ++ [last] := hcons ▸ List.mem_cons_self
      rcases List.mem_append.mp hmem with hmem | hmem
      · have := (List.pairwise_append.mp hgroup).2.2 head hmem last (by simp)
        omega
      · obtain rfl := List.mem_singleton.mp hmem
        exact hhead
    simp only [merge, hfirst, List.getLast?_concat] at h
    obtain hbefore | ⟨before, -, h⟩ := bind_eq_error h
    · exact outOfBounds_of_cutOf hbefore
    obtain hafter | ⟨after, -, h⟩ := bind_eq_error h
    · exact outOfBounds_of_cutOf hafter
    obtain hrange | ⟨range, -, h⟩ := bind_eq_error h
    · exact outOfBounds_of_rangeOf (by omega) hrange
    · simp at h

/-- The step lemma: one more edit is refused only as out of bounds. -/
theorem error_of_compose {s : EditSet} {edit : TextEdit} {e : Error} (hs : Separated s.edits)
    (h : s.compose edit = .error e) : OutOfBounds e := by
  rcases hfirst : spanMoved (endsBefore edit) 0 s.edits with ⟨passed, rest⟩
  rcases hsecond : spanMoved (startsWithin edit) (totalDelta passed) rest with ⟨group, after⟩
  rw [compose_eq hfirst hsecond] at h
  rw [← append_eq_of_spanMoved hfirst, ← append_eq_of_spanMoved hsecond] at hs
  have hgroup := (List.pairwise_append.mp (List.pairwise_append.mp hs).2.1).1
  obtain hmerge | ⟨merged, -, h⟩ := bind_eq_error h
  · exact error_of_merge (Separated.inOrder hgroup) hmerge
  · simp at h

/-- The run lemma: edits in turn are refused only as out of bounds. -/
theorem error_of_foldlM_compose {s : EditSet} {es : List TextEdit} {e : Error}
    (hs : Separated s.edits) (h : es.foldlM compose s = .error e) : OutOfBounds e := by
  induction es generalizing s with
  | nil => simp at h
  | cons edit es ih =>
    rw [List.foldlM_cons] at h
    obtain hedit | ⟨s', hs', h⟩ := bind_eq_error h
    · exact error_of_compose hs hedit
    · exact ih (separated_compose hs hs') h

/-- Edits in turn, whatever they are, make a set of edits that are apart from each other, or one of
them is refused as out of bounds. With every number checked it is the same, unless a number has no
room. -/
theorem ofSequence_separated_or_outOfBounds (es : List TextEdit) :
    ((∃ s, ofSequence es = .ok s ∧ Separated s.edits) ∨
        ∃ e, ofSequence es = .error e ∧ OutOfBounds e) ∧
      Agrees (checkedSequence es) (ofSequence es) := by
  refine ⟨?_, foldlM_checkedCompose_agrees List.Pairwise.nil es⟩
  cases h : ofSequence es with
  | ok s => exact .inl ⟨s, rfl, separated_ofSequence h⟩
  | error e => exact .inr ⟨e, rfl, error_of_foldlM_compose List.Pairwise.nil h⟩

end EditSet

end IncrementalSyntax
