import IncrementalSyntax.Error
import IncrementalSyntax.Text.Range

/-!
Lines and columns. An editor names a position by its line and by the number of UTF-16 units before
it on that line; a text is addressed by bytes. The index of a text keeps, for each line, where it
starts and where its content ends, and which bytes of it are characters of more than one byte: all
other columns are the same in both counts. The arithmetic of its queries is that of offsets, so a
query that leaves their range is a fault.
-/
namespace IncrementalSyntax

structure LineCol where
  line : Nat
  col : Nat
  deriving DecidableEq, Repr

structure Position where
  line : Nat
  character : Nat
  deriving DecidableEq, Repr

structure PositionRange where
  start : Position
  stop : Position
  deriving DecidableEq, Repr

namespace LineCol

def fromOne (p : LineCol) : Except Fault (Nat × Nat) := do
  let line ← Offset.add p.line 1
  let col ← Offset.add p.col 1
  return (line, col)

def display (p : LineCol) : Except Fault String := do
  let (line, col) ← p.fromOne
  return s!"{line}:{col}"

end LineCol

/-- A character of more than one byte, by its bytes within its line. -/
structure WideChar where
  start : Nat
  stop : Nat
  deriving DecidableEq, Repr

namespace WideChar

def size (c : WideChar) : Except Fault Nat := Offset.sub c.stop c.start

def units (c : WideChar) : Except Fault Nat :=
  return if (← c.size) = 4 then 2 else 1

/-- The wide characters of a line whose first `col` bytes have been seen. -/
def ofLine (col : Nat) : Text → List WideChar
  | [] => []
  | c :: t =>
    let later := ofLine (col + c.utf8Size) t
    if 1 < c.utf8Size then ⟨col, col + c.utf8Size⟩ :: later else later

end WideChar

structure Line where
  /-- Where the line starts. -/
  start : Nat
  /-- Where its content ends: before its newline, and before a carriage return in front of that. -/
  stop : Nat
  wide : List WideChar
  deriving DecidableEq, Repr

structure LineIndex where
  lines : List Line
  size : Nat
  deriving DecidableEq, Repr

namespace LineIndex

/-- The entries for lines of a text, the first of which starts at `start`. A carriage return ends
the content of a line only if a newline follows it, so not on the last line. -/
def entries (start : Nat) : List Text → List Line
  | [] => []
  | [l] => [⟨start, start + l.size, WideChar.ofLine 0 l⟩]
  | l :: ls =>
    let cr := if l.getLast? = some '\r' then 1 else 0
    ⟨start, start + l.size - cr, WideChar.ofLine 0 l⟩ :: entries (start + l.size + 1) ls

def ofText (t : Text) : LineIndex := ⟨entries 0 t.lines, t.size⟩

def lineCount (index : LineIndex) : Nat := index.lines.length

def line (index : LineIndex) (n : Nat) : Except Fault Line :=
  match index.lines[n]? with
  | some l => .ok l
  | none => .error .missing

/-- The number of the last line that starts at or before an offset. -/
def lineAt (index : LineIndex) (offset : Nat) : Nat :=
  (index.lines.takeWhile fun l => l.start ≤ offset).length - 1

def lineCol (index : LineIndex) (offset : Nat) : Except Fault LineCol := do
  let n := index.lineAt offset
  let l ← index.line n
  let col ← Offset.sub offset l.start
  return ⟨n, col⟩

/-- The offset of a line and column, if there is such a line. -/
def offset (index : LineIndex) (p : LineCol) : Except Fault (Option Nat) :=
  match index.lines[p.line]? with
  | some l => return some (← Offset.add l.start p.col)
  | none => return none

/-- The column in bytes of a position, given the wide characters of its line from the one after
which `bytes` bytes and `units` units have been counted. -/
def byteColumn (p : Position) (bytes units : Nat) : List WideChar → Except Failure Nat
  | [] => do
    let more ← Failure.ofFault (Offset.sub p.character units)
    return Offset.addUpTo bytes more
  | c :: cs => do
    let narrow ← Failure.ofFault (Offset.sub c.start bytes)
    let reached ← Failure.ofFault (Offset.add units narrow)
    if p.character ≤ reached then
      let more ← Failure.ofFault (Offset.sub p.character units)
      return Offset.addUpTo bytes more
    else
      let width ← Failure.ofFault c.units
      let past ← Failure.ofFault (Offset.add reached width)
      if p.character < past then throw (.refused (.splitSurrogatePair p.line p.character))
      byteColumn p c.stop past cs

/-- The offset of an editor's position. A column past the content of its line is moved back to the
end of that content, and the line after the last one is the end of the text. -/
def offsetUtf16 (index : LineIndex) (p : Position) : Except Failure Nat :=
  match index.lines[p.line]? with
  | none =>
    if p.line = index.lineCount then .ok index.size
    else .error (.refused (.positionOutOfBounds p.line p.character))
  | some l => do
    let width ← Failure.ofFault (Offset.sub l.stop l.start)
    let col ← byteColumn p 0 0 l.wide
    match ← Failure.ofFault (index.offset ⟨p.line, min col width⟩) with
    | some offset => return offset
    | none => throw (.refused (.positionOutOfBounds p.line p.character))

/-- The column in units of column `col` in bytes, of which `character` is left after the wide
characters before those given. -/
def unitColumn (col character : Nat) : List WideChar → Except Fault Nat
  | [] => return character
  | c :: cs =>
    if c.stop ≤ col then do
      let extra ← Offset.sub (← c.size) (← c.units)
      unitColumn col (← Offset.sub character extra) cs
    else return character

/-- The editor's position of an offset. -/
def positionUtf16 (index : LineIndex) (offset : Nat) : Except Fault Position := do
  let p ← index.lineCol offset
  let l ← index.line p.line
  return ⟨p.line, ← unitColumn p.col p.col l.wide⟩

end LineIndex

end IncrementalSyntax
