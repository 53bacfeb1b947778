import IncrementalSyntax.Edit.Set

/-!
Edits made one after the other. Each edit of a sequence is placed in the text that the edits
before it have left. `EditSet.ofSequence` puts all of them back into the first text: one more edit
is merged with the edits of the set that it meets or touches, whose replacements it may cut.
-/
namespace IncrementalSyntax

namespace EditSet

def totalDelta : List TextEdit → Int
  | [] => 0
  | e :: es => e.delta + totalDelta es

@[simp] theorem totalDelta_nil : totalDelta [] = 0 := rfl

@[simp] theorem totalDelta_cons (e : TextEdit) (es : List TextEdit) :
    totalDelta (e :: es) = e.delta + totalDelta es := rfl

@[simp] theorem totalDelta_append (es fs : List TextEdit) :
    totalDelta (es ++ fs) = totalDelta es + totalDelta fs := by
  induction es with
  | nil => simp
  | cons e es ih => simp [ih, Int.add_assoc]

/-- The leading edits that satisfy `p`, which is told how far the edits before have moved each of
them, and the edits that are left. -/
def spanMoved (p : Int → TextEdit → Bool) : Int → List TextEdit → List TextEdit × List TextEdit
  | _, [] => ([], [])
  | shift, e :: es =>
    if p shift e then
      let (taken, left) := spanMoved p (shift + e.delta) es
      (e :: taken, left)
    else ([], e :: es)

theorem spanMoved_append (p : Int → TextEdit → Bool) (shift : Int) (es : List TextEdit) :
    (spanMoved p shift es).1 ++ (spanMoved p shift es).2 = es := by
  induction es generalizing shift with
  | nil => rfl
  | cons e es ih =>
    rw [spanMoved]
    split
    next => simpa using ih (shift + e.delta)
    next => rfl

def rangeOf (start stop : Int) : Except Error TextRange :=
  if 0 ≤ start ∧ start ≤ Offset.greatest ∧ 0 ≤ stop ∧ stop ≤ Offset.greatest then
    if h : start.toNat ≤ stop.toNat then .ok ⟨start.toNat, stop.toNat, h⟩
    else .error (.invertedRange start.toNat stop.toNat)
  else .error (.editOutOfBounds (Offset.wrap start.toNat) (Offset.wrap stop.toNat) 0)

/-- The part of a replacement between two numbers, each moved to the nearest place in it. -/
def cutOf (t : Text) (start stop : Int) : Except Error Text :=
  let start := min start.toNat t.size
  let stop := min (max stop.toNat start) t.size
  match t.slice? start stop with
  | some inner => .ok inner
  | none => .error (.editOutOfBounds (Offset.wrap start) (Offset.wrap stop) (Offset.wrap t.size))

/-- One edit in place of `edit` and of the edits `group` that it meets, where the edits before
those move all of them by `shift`. What `edit` leaves of the first and of the last replacement of
the group is kept. -/
def merge (shift : Int) (group : List TextEdit) (edit : TextEdit) : Except Error TextEdit :=
  let start : Int := edit.start
  let stop : Int := edit.stop
  match group.head?, group.getLast? with
  | some head, some last => do
    let delta := totalDelta group
    let headStart := head.start + shift
    let lastStart := last.start + shift + delta - last.delta
    let lastStop := lastStart + last.insertSize
    let before ← cutOf head.replacement 0 (start - headStart)
    let after ← cutOf last.replacement (stop - lastStart) (lastStop - lastStart)
    let range ← rangeOf (min (start - shift) head.start) (max (stop - shift - delta) last.stop)
    return ⟨range, before ++ edit.replacement ++ after⟩
  | _, _ => do
    let range ← rangeOf (start - shift) (stop - shift)
    return ⟨range, edit.replacement⟩

/-- One more edit, placed in the text after the edits of a set, put into the set. -/
def compose (s : EditSet) (edit : TextEdit) : Except Error EditSet := do
  let endsBefore (shift : Int) (e : TextEdit) : Bool :=
    e.start + shift + e.insertSize < (edit.start : Int)
  let startsWithin (shift : Int) (e : TextEdit) : Bool := e.start + shift ≤ (edit.stop : Int)
  let (before, rest) := spanMoved endsBefore 0 s.edits
  let shift := totalDelta before
  let (group, after) := spanMoved startsWithin shift rest
  let merged ← merge shift group edit
  return ⟨before ++ merged :: after⟩

/-- The set of edits that does what the given edits do one after the other. -/
def ofSequence (edits : List TextEdit) : Except Error EditSet := edits.foldlM compose empty

end EditSet

end IncrementalSyntax
