import IncrementalSyntax.Proofs.Edit.Cut
import IncrementalSyntax.Proofs.Syntax.Reading

/-!
Items read into a builder. A builder keeps all elements of the tree under construction in one row
and, for each open node, where in the row its children begin; a node can also be opened around
elements that stand in the row already, from a checkpoint on. Every operation on it checks what it
takes for granted. `Cursor.run` reads an item in this way, with the offsets that the reading
passes. The statements say that nothing it checks ever fails and that it does what `Reading.run`
does: the row and the open nodes are at each step those of the stack of frames (`Builder.ofFrames`).
-/
namespace IncrementalSyntax

theorem TextRange.between_add_size (start size : Nat) :
    between start (start + size) = .ok (.sized start size) := dif_pos (Nat.le_add_right _ _)

/-- A tree under construction: the open nodes from the inside out, each with the number of elements
in front of it, and the row of all elements that are not inside a finished node. -/
structure Builder where
  parents : List (NodeKind × Nat)
  row : List Element

namespace Builder

def empty : Builder := ⟨[], []⟩

def push (b : Builder) (e : Element) : Builder := { b with row := b.row ++ [e] }

def pushAll (b : Builder) (es : List Element) : Builder := { b with row := b.row ++ es }

def startNode (b : Builder) (kind : NodeKind) : Builder :=
  { b with parents := (kind, b.row.length) :: b.parents }

/-- Opens a node around the elements from a checkpoint on, which must be in the row. -/
def startNodeAt (b : Builder) (checkpoint : Nat) (kind : NodeKind) : Except Fault Builder :=
  if checkpoint ≤ b.row.length then .ok { b with parents := (kind, checkpoint) :: b.parents }
  else .error .broken

/-- Ends the innermost node, whose children must still be in the row. -/
def finishNode (b : Builder) : Except Fault Builder :=
  match b.parents with
  | [] => .ok b
  | (kind, first) :: parents =>
    if first ≤ b.row.length then
      .ok ⟨parents, b.row.take first ++ [.node kind (b.row.drop first)]⟩
    else .error .missing

def finish (b : Builder) : Except Fault Element :=
  if b.parents.isEmpty then
    match b.row with
    | [.node kind children] => .ok (.node kind children)
    | _ => .ok (.node .sourceFile [])
  else .error .broken

/-- A token, alone in a node if it is to be a leaf of some kind. -/
def pushLeaf (b : Builder) (t : Token) : Option NodeKind → Except Fault Builder
  | none => .ok (b.push (.token t))
  | some kind => ((b.startNode kind).push (.token t)).finishNode

end Builder

/-- The reader's side of an open node: its place in the node, and the checkpoint where the last
child of the node begins. -/
structure Level where
  place : Place
  checkpoint : Nat

namespace Level

def openAll (b : Builder) (levels : List Level) : List Opening → Builder × List Level
  | [] => (b, levels)
  | o :: os => openAll (b.startNode o.1) (⟨o.2, b.row.length⟩ :: levels) os

/-- Gives a token, and the trivia before it, to the innermost node that takes it, and ends the nodes
inside that one. No level is left if no node takes it. -/
def feed (gap : List Token) (t : Token) : List Level → Builder → Except Fault (Builder × List Level)
  | [], b => .ok (b, [])
  | l :: levels, b =>
    match l.place.on t.kind with
    | .take stay opened kind => do
      let b := b.pushAll (gap.map .token)
      let (b, levels) := openAll b (⟨stay, b.row.length⟩ :: levels) opened
      return (← b.pushLeaf t kind, levels)
    | .wrap stay around opened => do
      let b ← b.startNodeAt l.checkpoint around.1
      let b := b.pushAll (gap.map .token)
      let levels := ⟨around.2, b.row.length⟩ :: ⟨stay, l.checkpoint⟩ :: levels
      let (b, levels) := openAll b levels opened
      return (b.push (.token t), levels)
    | .leave => do feed gap t levels (← b.finishNode)

def finishAll : List Level → Builder → Except Fault Builder
  | [], b => .ok b
  | _ :: levels, b => do finishAll levels (← b.finishNode)

/-- Whether the item ends without a look at the next token. -/
def allEnded (levels : List Level) : Bool := levels.all fun l => l.place = .ended

/-- Opens the nodes of the item that begins with a token, and puts the token in. -/
def first (t : Token) (b : Builder) : Except Fault (Builder × List Level) :=
  match Move.item .ended t.kind with
  | .take _ (o :: os) kind => do
    let (b, levels) := openAll b [] (o :: os)
    return (← b.pushLeaf t kind, levels)
  | _ => .ok ((b.startNode .error).push (.token t), [⟨.ended, b.row.length⟩])

end Level

/-- A reader of an item: the builder, where the next token begins, and the ends of the furthest
token looked at and of the last token taken that is not trivia. -/
structure Cursor where
  builder : Builder
  offset : Nat
  peekedEnd : Nat
  lastEnd : Nat

namespace Cursor

/-- Reads on from open nodes in a text of `total` bytes; returns the tokens after the item too. -/
def run (total : Nat) (levels : List Level) (gap : List Token) (c : Cursor) :
    List Token → Except Fault (Cursor × List Token)
  | [] => do
    let builder ← Level.finishAll levels c.builder
    return ({ c with builder, peekedEnd := total }, gap)
  | t :: ts => do
    let stop ← Offset.add c.offset t.size
    if t.kind.isTrivia then run total levels (gap ++ [t]) { c with offset := stop } ts
    else
      let peekedEnd := max c.peekedEnd stop
      match ← Level.feed gap t levels c.builder with
      | (builder, []) => return ({ c with builder, peekedEnd }, gap ++ t :: ts)
      | (builder, levels) =>
        if Level.allEnded levels then
          let builder ← Level.finishAll levels builder
          return (⟨builder, stop, peekedEnd, stop⟩, ts)
        else run total levels [] ⟨builder, stop, peekedEnd, stop⟩ ts

/-- Ends the item if nothing more may come in it, and otherwise reads on. -/
def runOrEnd (total : Nat) (levels : List Level) (c : Cursor) (ts : List Token) :
    Except Fault (Cursor × List Token) :=
  if Level.allEnded levels then do
    let builder ← Level.finishAll levels c.builder
    return ({ c with builder }, ts)
  else run total levels [] c ts

/-- Reads the item that begins at `start` with the token `t`, which is not trivia: the builder with
the item, where it stands and what it depends on, and the tokens after it. -/
def item (total start : Nat) (t : Token) (ts : List Token) (b : Builder) :
    Except Fault (Builder × Lookahead × List Token) := do
  let stop ← Offset.add start t.size
  let (builder, levels) ← Level.first t b
  let (c, rest) ← runOrEnd total levels ⟨builder, stop, max start stop, stop⟩ ts
  let range ← TextRange.between start c.lastEnd
  return (c.builder, ⟨range, max c.peekedEnd c.lastEnd⟩, rest)

end Cursor

namespace Builder

def rowOf : List Frame → List Element
  | [] => []
  | f :: fs => rowOf fs ++ f.children

/-- The open nodes as a builder keeps them, behind `n` elements. -/
def parentsOf (n : Nat) : List Frame → List (NodeKind × Nat)
  | [] => []
  | f :: fs => (f.kind, n + (rowOf fs).length) :: parentsOf n fs

/-- A builder in which the nodes of the frames are open, inside the nodes of `b`. -/
def ofFrames (b : Builder) (frames : List Frame) : Builder :=
  ⟨parentsOf b.row.length frames ++ b.parents, b.row ++ rowOf frames⟩

@[simp] theorem ofFrames_nil (b : Builder) : b.ofFrames [] = b := by
  simp [ofFrames, parentsOf, rowOf]

theorem startNode_ofFrames (b : Builder) (frames : List Frame) (kind : NodeKind) (place : Place) :
    (b.ofFrames frames).startNode kind = b.ofFrames (⟨kind, place, []⟩ :: frames) := by
  simp [startNode, ofFrames, parentsOf, rowOf]

theorem pushAll_ofFrames (b : Builder) (f : Frame) (fs : List Frame) (es : List Element) :
    (b.ofFrames (f :: fs)).pushAll es = b.ofFrames (f.append es :: fs) := by
  simp [pushAll, ofFrames, parentsOf, rowOf]

theorem push_ofFrames (b : Builder) (f : Frame) (fs : List Frame) (e : Element) :
    (b.ofFrames (f :: fs)).push e = b.ofFrames (f.append [e] :: fs) :=
  pushAll_ofFrames b f fs [e]

/-- Ending the innermost node makes it the next child of the node around it. -/
theorem finishNode_ofFrames (b : Builder) (f : Frame) (fs : List Frame) :
    (b.ofFrames (f :: fs)).finishNode = .ok ((b.ofFrames fs).push f.element) := by
  have hrow : b.row ++ rowOf (f :: fs) = (b.row ++ rowOf fs) ++ f.children := by simp [rowOf]
  have hfirst : b.row.length + (rowOf fs).length = (b.row ++ rowOf fs).length := by simp
  have hle : (b.row ++ rowOf fs).length ≤ ((b.row ++ rowOf fs) ++ f.children).length := by simp
  simp only [finishNode, ofFrames, parentsOf, List.cons_append, hrow, hfirst]
  rw [if_pos hle, List.take_left, List.drop_left]
  rfl

theorem pushLeaf_ofFrames (b : Builder) (f : Frame) (fs : List Frame) (t : Token)
    (kind : Option NodeKind) :
    (b.ofFrames (f :: fs)).pushLeaf t kind =
      .ok (b.ofFrames (f.append [Stack.leaf t kind] :: fs)) := by
  cases kind with
  | none => rw [pushLeaf, push_ofFrames]; rfl
  | some k =>
    rw [pushLeaf, startNode_ofFrames b (f :: fs) k .ended, push_ofFrames, finishNode_ofFrames,
      push_ofFrames]
    rfl

/-- Opening a node around the last child of the innermost node. -/
theorem startNodeAt_ofFrames (b : Builder) (f : Frame) (fs : List Frame) (kind : NodeKind)
    (place : Place) {checkpoint : Nat} (hne : f.children ≠ [])
    (hcheckpoint : checkpoint + 1 = b.row.length + (rowOf (f :: fs)).length) :
    (b.ofFrames (f :: fs)).startNodeAt checkpoint kind =
      .ok (b.ofFrames (⟨kind, place, f.children.getLast?.toList⟩ ::
        ⟨f.kind, place, f.children.dropLast⟩ :: fs)) := by
  obtain ⟨init, last, hlast⟩ : ∃ init last, f.children = init ++ [last] := by
    rcases List.eq_nil_or_concat f.children with h | ⟨init, last, h⟩
    · exact absurd h hne
    · exact ⟨init, last, by rw [h, List.concat_eq_append]⟩
  have hat : checkpoint = b.row.length + (rowOf fs ++ init).length := by
    simp only [rowOf, hlast, List.length_append, List.length_singleton] at hcheckpoint ⊢
    omega
  have hle : checkpoint ≤ (b.ofFrames (f :: fs)).row.length := by
    simp only [ofFrames, List.length_append]
    omega
  rw [startNodeAt, if_pos hle]
  simp [ofFrames, parentsOf, rowOf, hlast, hat]

end Builder

namespace Level

/-- The levels stand where the frames do, and the checkpoint of each is where its next child will
begin. -/
def Waits (n : Nat) : List Frame → List Level → Prop
  | [], [] => True
  | f :: fs, l :: levels =>
    l.place = f.place ∧ l.checkpoint = n + (Builder.rowOf (f :: fs)).length ∧ Waits n fs levels
  | _, _ => False

/-- The levels stand where the frames do, and the checkpoint of each is where its last child
begins; the last children of the outer ones are the inner ones. -/
def Fits (n : Nat) (top : Frame) (below : List Frame) (levels : List Level) : Prop :=
  ∃ l outer, levels = l :: outer ∧ l.place = top.place ∧ top.children ≠ [] ∧
    l.checkpoint + 1 = n + (Builder.rowOf (top :: below)).length ∧ Waits n below outer

variable {b : Builder} {n : Nat} {top : Frame} {below : List Frame} {levels : List Level}

theorem Waits.append (h : Waits n (top :: below) levels) (e : Element) :
    Fits n (top.append [e]) below levels := by
  cases levels with
  | nil => exact h.elim
  | cons l outer =>
    obtain ⟨hplace, hcheckpoint, houter⟩ := h
    refine ⟨l, outer, rfl, hplace, by simp, ?_, houter⟩
    rw [hcheckpoint]
    simp [Builder.rowOf, Nat.add_assoc]

theorem openAll_ofFrames {s : Stack} (h : Waits b.row.length (s.top :: s.below) levels)
    (os : List Opening) :
    ∃ levels', openAll (b.ofFrames (s.top :: s.below)) levels os =
        (b.ofFrames ((s.openAll os).top :: (s.openAll os).below), levels') ∧
      Waits b.row.length ((s.openAll os).top :: (s.openAll os).below) levels' := by
  induction os generalizing s levels with
  | nil => exact ⟨levels, rfl, h⟩
  | cons o os ih =>
    have hrow : (b.ofFrames (s.top :: s.below)).row.length =
        b.row.length + (Builder.rowOf (.start o :: s.top :: s.below)).length := by
      simp [Builder.ofFrames, Builder.rowOf, Frame.start]
    rw [openAll, Builder.startNode_ofFrames _ _ _ o.2]
    exact ih (s := ⟨.start o, s.top :: s.below⟩) ⟨rfl, hrow, h⟩

/-- A token that the innermost node takes goes into the builder as it goes into the frames. -/
theorem feed_of_accept {gap : List Token} {t : Token} {s : Stack}
    (hfits : Fits b.row.length top below levels) (h : Stack.accept gap t top below = some s) :
    ∃ levels', feed gap t levels (b.ofFrames (top :: below)) =
        .ok (b.ofFrames (s.top :: s.below), levels') ∧
      Fits b.row.length s.top s.below levels' := by
  obtain ⟨l, outer, rfl, hplace, hne, hcheckpoint, houter⟩ := hfits
  rw [Stack.accept] at h
  split at h
  next stay opened kind hmove =>
    obtain rfl := Option.some.inj h
    let node : Frame := ⟨top.kind, stay, top.children ++ gap.map .token⟩
    have hpush : (b.ofFrames (top :: below)).pushAll (gap.map .token) =
        b.ofFrames (node :: below) := Builder.pushAll_ofFrames b top below _
    have hwaits : Waits b.row.length (node :: below)
        (⟨stay, (b.ofFrames (node :: below)).row.length⟩ :: outer) :=
      ⟨rfl, by simp [Builder.ofFrames], houter⟩
    obtain ⟨levels', hopen, hwaits'⟩ := openAll_ofFrames (s := ⟨node, below⟩) hwaits opened
    refine ⟨levels', ?_, hwaits'.append _⟩
    rw [feed, hplace, hmove]
    simp only [hpush, hopen, Builder.pushLeaf_ofFrames, ok_bind, pure_eq_ok]
    rfl
  next stay around opened hmove =>
    obtain rfl := Option.some.inj h
    let node : Frame := ⟨top.kind, stay, top.children.dropLast⟩
    let inner : Frame := ⟨around.1, around.2, top.children.getLast?.toList ++ gap.map .token⟩
    have hstart : (b.ofFrames (top :: below)).startNodeAt l.checkpoint around.1 =
        .ok (b.ofFrames (⟨around.1, around.2, top.children.getLast?.toList⟩ :: node :: below)) :=
      Builder.startNodeAt_ofFrames b top below around.1 around.2 hne hcheckpoint
    have hpush : (b.ofFrames (⟨around.1, around.2, top.children.getLast?.toList⟩ ::
        node :: below)).pushAll (gap.map .token) = b.ofFrames (inner :: node :: below) :=
      Builder.pushAll_ofFrames b _ _ _
    have hwaits : Waits b.row.length (inner :: node :: below)
        (⟨around.2, (b.ofFrames (inner :: node :: below)).row.length⟩ ::
          ⟨stay, l.checkpoint⟩ :: outer) := by
      refine ⟨rfl, by simp [Builder.ofFrames], rfl, ?_, houter⟩
      have hlength : top.children.length ≠ 0 := by simpa using hne
      simp only [Builder.rowOf, List.length_append, List.length_dropLast, node] at hcheckpoint ⊢
      omega
    obtain ⟨levels', hopen, hwaits'⟩ :=
      openAll_ofFrames (s := ⟨inner, node :: below⟩) hwaits opened
    refine ⟨levels', ?_, hwaits'.append _⟩
    rw [feed, hplace, hmove]
    simp only [hstart, hpush, hopen, Builder.push_ofFrames, ok_bind, pure_eq_ok]
    rfl
  next => simp at h

/-- A token that ends the innermost node makes it the next child of the node around it. -/
theorem feed_of_leave {gap : List Token} {t : Token}
    (hfits : Fits b.row.length top below levels) (h : Stack.accept gap t top below = none) :
    ∃ outer, Waits b.row.length below outer ∧
      feed gap t levels (b.ofFrames (top :: below)) =
        feed gap t outer ((b.ofFrames below).push top.element) := by
  obtain ⟨l, outer, rfl, hplace, -, -, houter⟩ := hfits
  refine ⟨outer, houter, ?_⟩
  rw [Stack.accept] at h
  split at h
  next => simp at h
  next => simp at h
  next hmove => rw [feed, hplace, hmove, Builder.finishNode_ofFrames, ok_bind]

/-- The step lemma: a token that some open node takes goes into the builder as into the frames. -/
theorem feed_of_some {gap : List Token} {t : Token} {s : Stack}
    (hfits : Fits b.row.length top below levels) (h : Stack.feed gap t top below = some s) :
    ∃ levels', feed gap t levels (b.ofFrames (top :: below)) =
        .ok (b.ofFrames (s.top :: s.below), levels') ∧
      Fits b.row.length s.top s.below levels' := by
  induction below generalizing top levels with
  | nil => exact feed_of_accept hfits h
  | cons f below ih =>
    rw [Stack.feed] at h
    split at h
    next s' haccept =>
      obtain rfl := Option.some.inj h
      exact feed_of_accept hfits haccept
    next hleave =>
      obtain ⟨outer, hwaits, hfeed⟩ := feed_of_leave hfits hleave
      rw [hfeed, Builder.push_ofFrames]
      exact ih (hwaits.append _) h

theorem feed_of_none {gap : List Token} {t : Token}
    (hfits : Fits b.row.length top below levels) (h : Stack.feed gap t top below = none) :
    feed gap t levels (b.ofFrames (top :: below)) =
      .ok (b.push (Stack.collapse top below).element, []) := by
  induction below generalizing top levels with
  | nil =>
    obtain ⟨outer, hwaits, hfeed⟩ := feed_of_leave hfits h
    cases outer with
    | nil => rw [hfeed, Builder.ofFrames_nil]; rfl
    | cons => exact hwaits.elim
  | cons f below ih =>
    rw [Stack.feed] at h
    split at h
    next => simp at h
    next hleave =>
      obtain ⟨outer, hwaits, hfeed⟩ := feed_of_leave hfits hleave
      rw [hfeed, Builder.push_ofFrames]
      exact ih (hwaits.append _) h

/-- Ending all open nodes puts the whole item into the row. -/
theorem finishAll_ofFrames (hfits : Fits b.row.length top below levels) :
    finishAll levels (b.ofFrames (top :: below)) =
      .ok (b.push (Stack.collapse top below).element) := by
  induction below generalizing top levels with
  | nil =>
    obtain ⟨l, outer, rfl, -, -, -, houter⟩ := hfits
    cases outer with
    | nil => rw [finishAll, Builder.finishNode_ofFrames, Builder.ofFrames_nil]; rfl
    | cons => exact houter.elim
  | cons f below ih =>
    obtain ⟨l, outer, rfl, -, -, -, houter⟩ := hfits
    rw [finishAll, Builder.finishNode_ofFrames, ok_bind, Builder.push_ofFrames]
    exact ih (houter.append _)

theorem allEnded_waits {frames : List Frame} (h : Waits n frames levels) :
    allEnded levels = frames.all Frame.isEnded := by
  induction frames generalizing levels with
  | nil =>
    cases levels with
    | nil => rfl
    | cons => exact h.elim
  | cons f fs ih =>
    cases levels with
    | nil => exact h.elim
    | cons l levels =>
      obtain ⟨hplace, -, hrest⟩ := h
      have := ih hrest
      simp only [allEnded] at this
      simp [allEnded, hplace, this, Frame.isEnded]

theorem allEnded_fits {s : Stack} (h : Fits n s.top s.below levels) :
    allEnded levels = s.isEnded := by
  obtain ⟨l, outer, rfl, hplace, -, -, houter⟩ := h
  have := allEnded_waits houter
  simp only [allEnded] at this
  simp [allEnded, Stack.isEnded, Frame.isEnded, hplace, this]

/-- The first token of an item opens in the builder what it opens in the frames. -/
theorem first_ofFrames (t : Token) :
    ∃ levels, first t b =
        .ok (b.ofFrames ((Reading.first t).top :: (Reading.first t).below), levels) ∧
      Fits b.row.length (Reading.first t).top (Reading.first t).below levels := by
  have herror : (b.startNode .error).push (.token t) =
      b.ofFrames [⟨.error, .ended, [.token t]⟩] := by
    simp [Builder.startNode, Builder.push, Builder.ofFrames, Builder.parentsOf, Builder.rowOf]
  have hfits : Fits b.row.length ⟨.error, .ended, [.token t]⟩ [] [⟨.ended, b.row.length⟩] :=
    ⟨_, [], rfl, rfl, by simp, by simp [Builder.rowOf], trivial⟩
  rw [first, Reading.first]
  cases Move.item .ended t.kind with
  | take stay opened kind =>
    cases opened with
    | nil => exact ⟨_, by rw [herror], hfits⟩
    | cons o os =>
      have hwaits : Waits b.row.length [.start o] [⟨o.2, b.row.length⟩] :=
        ⟨rfl, by simp [Builder.rowOf, Frame.start], trivial⟩
      obtain ⟨levels', hopen, hwaits'⟩ := openAll_ofFrames (s := ⟨.start o, []⟩) hwaits os
      have hstart : b.startNode o.1 = b.ofFrames [.start o] := by
        rw [← Builder.ofFrames_nil b, Builder.startNode_ofFrames _ _ _ o.2, Builder.ofFrames_nil]
        rfl
      refine ⟨levels', ?_, hwaits'.append _⟩
      simp only [openAll, hstart, hopen, Builder.pushLeaf_ofFrames, ok_bind, pure_eq_ok]
      rfl
  | wrap stay around opened => exact ⟨_, by rw [herror], hfits⟩
  | leave => exact ⟨_, by rw [herror], hfits⟩

end Level

namespace Cursor

variable {b : Builder} {s : Stack} {total : Nat}

/-- The cursor while nodes are open and trivia `gap` waits, with `left` bytes of the text still to
come. -/
structure Before (c : Cursor) (b : Builder) (s : Stack) (gap : List Token) (total left : Nat) :
    Prop where
  builder : c.builder = b.ofFrames (s.top :: s.below)
  offset : c.offset = c.lastEnd + Token.sizeOfAll gap
  peekedEnd : c.peekedEnd ≤ c.lastEnd
  left : c.offset + left = total

structure After (c : Cursor) (b : Builder) (r : Reading) (total : Nat) : Prop where
  builder : c.builder = b.push r.item.element
  lastEnd : c.lastEnd + Token.sizeOfAll r.rest = total
  peekedEnd : max c.peekedEnd c.lastEnd = c.lastEnd + r.item.peek

/-- An item whose last token ends all its nodes depends on nothing behind it. -/
theorem finish_of_ended {levels : List Level} {peekedEnd stop : Nat} {ts : List Token}
    (hfits : Level.Fits b.row.length s.top s.below levels) (hpeeked : peekedEnd ≤ stop)
    (hleft : stop + Token.sizeOfAll ts = total) :
    ∃ builder, Level.finishAll levels (b.ofFrames (s.top :: s.below)) = .ok builder ∧
      After ⟨builder, stop, peekedEnd, stop⟩ b (Reading.ofStack s ts false) total := by
  refine ⟨_, Level.finishAll_ofFrames hfits, rfl, hleft, ?_⟩
  simp only [Reading.ofStack, Reading.item]
  exact Nat.max_eq_right hpeeked

/-- The run lemma: no check fails while an item is read, and what is read is what `Reading.run`
gives. -/
theorem run_ofFrames (htotal : total ≤ Offset.greatest) {levels : List Level}
    {gap ts : List Token} {c : Cursor} (hgap : Token.allTrivia gap = true)
    (hfits : Level.Fits b.row.length s.top s.below levels)
    (hbefore : c.Before b s gap total (Token.sizeOfAll ts)) :
    ∃ c', run total levels gap c ts = .ok (c', (Reading.run s gap ts).rest) ∧
      c'.After b (Reading.run s gap ts) total := by
  obtain ⟨hbuilder, hoffset, hpeeked, hleft⟩ := hbefore
  induction ts generalizing levels gap c s with
  | nil =>
    have hgapSize : peekSize gap = Token.sizeOfAll gap := by
      rw [← Token.sizeOfAll_throughNext, Token.throughNext_of_allTrivia hgap]
    rw [Token.sizeOfAll_nil] at hleft
    refine ⟨_, by rw [run, hbuilder, Level.finishAll_ofFrames hfits]; rfl, rfl, ?_, ?_⟩
    · simp only [Reading.run, Reading.ofStack]
      omega
    · simp only [Reading.run, Reading.ofStack, Reading.item, if_true, hgapSize]
      omega
  | cons t ts ih =>
    rw [Token.sizeOfAll_cons] at hleft
    have hle : c.offset + t.size ≤ Offset.greatest := by omega
    rw [run, Offset.add_eq_ok hle, ok_bind, Reading.run]
    have hleft' : c.offset + t.size + Token.sizeOfAll ts = total := by omega
    by_cases ht : t.kind.isTrivia
    · have hoffset' : c.offset + t.size = c.lastEnd + Token.sizeOfAll (gap ++ [t]) := by
        rw [Token.sizeOfAll_append, Token.sizeOfAll_cons, Token.sizeOfAll_nil]
        omega
      rw [if_pos ht, if_pos ht]
      exact ih (by simp [hgap, ht]) hfits hbuilder hoffset' hpeeked hleft'
    rw [if_neg ht, if_neg ht, hbuilder]
    cases hfeed : Stack.feed gap t s.top s.below with
    | none =>
      have hnextSize : peekSize (gap ++ t :: ts) = Token.sizeOfAll gap + t.size := by
        rw [← Token.sizeOfAll_throughNext,
          Token.throughNext_of_not_trivia hgap (by simpa using ht)]
        simp
      refine ⟨_, by rw [Level.feed_of_none hfits hfeed]; rfl, rfl, ?_, ?_⟩
      · simp only [Reading.ofStack, Token.sizeOfAll_append, Token.sizeOfAll_cons]
        omega
      · simp only [Reading.ofStack, Reading.item, if_true, hnextSize]
        omega
    | some s' =>
      obtain ⟨levels', hfeed', hfits'⟩ := Level.feed_of_some hfits hfeed
      obtain ⟨l, outer, hlevels, -⟩ := id hfits'
      rw [hfeed', ok_bind, hlevels]
      simp only [← hlevels, Level.allEnded_fits hfits']
      have hpeeked' : max c.peekedEnd (c.offset + t.size) ≤ c.offset + t.size := by omega
      by_cases hended : s'.isEnded
      · rw [if_pos hended, if_pos hended]
        obtain ⟨builder, hfinish, hafter⟩ := finish_of_ended hfits' hpeeked' hleft'
        exact ⟨_, by rw [hfinish]; rfl, hafter⟩
      · rw [if_neg hended, if_neg hended]
        exact ih rfl hfits' rfl rfl hpeeked' hleft'

/-- From the first token of an item on, no check fails either. -/
theorem runOrEnd_ofFrames (htotal : total ≤ Offset.greatest) {levels : List Level} {start : Nat}
    {t : Token} {ts : List Token} (hleft : start + Token.sizeOfAll (t :: ts) = total)
    (hfits : Level.Fits b.row.length (Reading.first t).top (Reading.first t).below levels) :
    ∃ c, runOrEnd total levels ⟨b.ofFrames ((Reading.first t).top :: (Reading.first t).below),
        start + t.size, max start (start + t.size), start + t.size⟩ ts =
          .ok (c, (Reading.ofTokens t ts).rest) ∧
      c.After b (Reading.ofTokens t ts) total := by
  rw [Token.sizeOfAll_cons, ← Nat.add_assoc] at hleft
  have hpeeked : max start (start + t.size) ≤ start + t.size := by omega
  rw [runOrEnd, Level.allEnded_fits hfits, Reading.ofTokens]
  by_cases hended : (Reading.first t).isEnded
  · rw [if_pos hended, if_pos hended]
    obtain ⟨builder, hfinish, hafter⟩ := finish_of_ended hfits hpeeked hleft
    exact ⟨_, by rw [hfinish]; rfl, hafter⟩
  · rw [if_neg hended, if_neg hended]
    exact run_ofFrames htotal rfl hfits ⟨rfl, rfl, hpeeked, hleft⟩

/-- Reading an item into a builder meets no fault: the builder gets the item, and where the item
stands and what it depends on is as its reading says. -/
theorem item_ofTokens (htotal : total ≤ Offset.greatest) {start : Nat} {t : Token}
    {ts : List Token} (hleft : start + Token.sizeOfAll (t :: ts) = total) (b : Builder) :
    item total start t ts b =
      .ok (b.push (Reading.ofTokens t ts).item.element,
        ⟨.sized start (Reading.ofTokens t ts).item.size,
          start + (Reading.ofTokens t ts).item.reach⟩, (Reading.ofTokens t ts).rest) := by
  obtain ⟨levels, hfirst, hfits⟩ := Level.first_ofFrames (b := b) t
  obtain ⟨c, hrun, hbuilder, hlast, hpeeked⟩ := runOrEnd_ofFrames htotal hleft hfits
  have hsize := Reading.add_size_rest hleft
  rw [Token.sizeOfAll_cons] at hleft
  have hle : start + t.size ≤ Offset.greatest := by omega
  have hstop : c.lastEnd = start + (Reading.ofTokens t ts).item.size := by omega
  rw [item, Offset.add_eq_ok hle, ok_bind, hfirst, ok_bind]
  simp only [hrun, ok_bind]
  rw [hpeeked, hbuilder, hstop, TextRange.between_add_size, Item.reach, Nat.add_assoc]
  rfl

end Cursor

end IncrementalSyntax
