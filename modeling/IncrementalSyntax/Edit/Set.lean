import IncrementalSyntax.Edit.Basic

/-!
Sets of edits to one text. The edits of a set are all placed in the text before the edits, in
order, and no two of them replace the same bytes. A set can be applied to a text, and positions of
that text can be carried over into the result.
-/
namespace IncrementalSyntax

structure EditSet where
  edits : List TextEdit
  deriving DecidableEq, Repr

namespace EditSet

def empty : EditSet := ⟨[]⟩

def InOrder : List TextEdit → Prop := List.Pairwise fun a b => a.stop ≤ b.start

/-- The order of edits in a set: by start, then by end. -/
def comesBefore (a b : TextEdit) : Bool :=
  a.start < b.start || (a.start = b.start && a.stop ≤ b.stop)

/-- The first two neighbours that replace the same bytes. -/
def overlap? : List TextEdit → Option (TextEdit × TextEdit)
  | a :: b :: es => if b.start < a.stop then some (a, b) else overlap? (b :: es)
  | _ => none

/-- The set of edits that are all placed in the same text; edits at the same place keep their
order, and edits that overlap are refused. -/
def concurrent (edits : List TextEdit) : Except Error EditSet :=
  let sorted := edits.mergeSort comesBefore
  match overlap? sorted with
  | some (a, b) => .error (.overlappingEdits b.start a.stop)
  | none => .ok ⟨sorted⟩

/-- Refuses a set with an edit that does not fit the text, naming the first such edit. -/
def checkFits (s : EditSet) (t : Text) : Except Error Unit := s.edits.forM (·.checkFits t)

/-- The text from byte `cursor` on, with edits made in it. -/
def applyFrom (t : Text) (cursor : Nat) : List TextEdit → Except Failure Text
  | [] => Failure.ofFault (t.sliceFrom cursor)
  | e :: es => do
    Failure.ofRefusal (e.checkFits t)
    let kept ← Failure.ofFault (t.slice cursor e.start)
    let rest ← applyFrom t e.stop es
    return kept ++ e.replacement ++ rest

def apply (s : EditSet) (t : Text) : Except Failure Text := applyFrom t 0 s.edits

/-- Whether an edit reaches the range or either of its ends: text put in right at an end can
change what stands there. Only the first edit that does not end before the range can be the one. -/
def touches (s : EditSet) (range : TextRange) : Bool :=
  match s.edits.dropWhile fun e => e.stop < range.start with
  | e :: _ => e.start ≤ range.stop
  | [] => false

/-- By how much the edits before an offset move it; none if an edit replaces the bytes on both
sides of it. An offset where text is put in stays before that text. -/
def shiftAt (offset : Nat) : List TextEdit → Option Int
  | [] => some 0
  | e :: es =>
    if offset ≤ e.start then some 0
    else if e.stop ≤ offset then (shiftAt offset es).map (e.delta + ·)
    else none

/-- Where an offset of the text before the edits stands after them, if it still does. -/
def mapOffset (s : EditSet) (offset : Nat) : Option Nat :=
  match shiftAt offset s.edits with
  | some shift =>
    let moved := (offset : Int) + shift
    if 0 ≤ moved ∧ moved ≤ Offset.greatest then some moved.toNat else none
  | none => none

end EditSet

end IncrementalSyntax
