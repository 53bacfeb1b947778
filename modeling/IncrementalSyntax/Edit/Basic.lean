import IncrementalSyntax.Error
import IncrementalSyntax.Text.Range

/-!
Edits. An edit replaces a range of bytes by a text. The difference of two texts is the one edit
that is left when what they share at their beginnings, and then at their ends, is taken away.
-/
namespace IncrementalSyntax

structure TextEdit where
  range : TextRange
  replacement : Text
  deriving DecidableEq, Repr

namespace TextEdit

def insert (offset : Nat) (text : Text) : TextEdit := ⟨.empty offset, text⟩

def delete (range : TextRange) : TextEdit := ⟨range, []⟩

def start (e : TextEdit) : Nat := e.range.start

def stop (e : TextEdit) : Nat := e.range.stop

def insertSize (e : TextEdit) : Nat := e.replacement.size

def delta (e : TextEdit) : Int := (e.insertSize : Int) - (e.range.size : Int)

theorem start_le_stop (e : TextEdit) : e.start ≤ e.stop := e.range.start_le_stop

def fits (e : TextEdit) (t : Text) : Bool :=
  e.stop ≤ t.size && t.isBoundary e.start && t.isBoundary e.stop

/-- Refuses an edit that does not fit the text. -/
def checkFits (e : TextEdit) (t : Text) : Except Error Unit :=
  if e.fits t then .ok () else .error (.editOutOfBounds e.start e.stop (Offset.wrap t.size))

def splice (e : TextEdit) (t : Text) : Except Fault Text := do
  let before ← t.slice 0 e.start
  let after ← t.sliceFrom e.stop
  return before ++ e.replacement ++ after

/-- What two texts share at their beginnings, and what is left of each. -/
def stripCommon : Text → Text → Text × Text × Text
  | a :: s, b :: t =>
    if a = b then
      let (common, s', t') := stripCommon s t
      (a :: common, s', t')
    else ([], a :: s, b :: t)
  | s, t => ([], s, t)

/-- The edit that turns `old` into `new`, if they differ: what they share at their beginnings
stays, and of the rest what they share at their ends. -/
def diff (old new : Text) : Option TextEdit :=
  if old = new then none
  else
    let (common, old, new) := stripCommon old new
    let (_, old, new) := stripCommon old.reverse new.reverse
    some ⟨.sized common.size (Text.size old.reverse), new.reverse⟩

end TextEdit

end IncrementalSyntax
