import IncrementalSyntax.Syntax.Grammar
import IncrementalSyntax.Syntax.Tree

/-!
Items. One top-level item is read from a stream of tokens by a machine whose state is the stack of
nodes still open. Trivia waits in a gap until the next token shows which node it belongs to; a
token that ends nodes is looked at but not taken. The reader never looks further than that one
token, and whether it looked is part of its answer, because the item depends on what it saw.
-/
namespace IncrementalSyntax

structure Frame where
  kind : NodeKind
  place : Place
  children : List Element
  deriving Repr

namespace Frame

def start (opening : Opening) : Frame := ⟨opening.1, opening.2, []⟩

def element (f : Frame) : Element := .node f.kind f.children

def append (f : Frame) (es : List Element) : Frame := { f with children := f.children ++ es }

def isEnded (f : Frame) : Bool := f.place = .ended

@[simp] theorem append_kind (f : Frame) (es : List Element) : (f.append es).kind = f.kind := rfl
@[simp] theorem append_place (f : Frame) (es : List Element) : (f.append es).place = f.place := rfl
@[simp] theorem append_children (f : Frame) (es : List Element) :
    (f.append es).children = f.children ++ es := rfl

end Frame

/-- The open nodes of an item: the innermost, and the others from the inside out. -/
structure Stack where
  top : Frame
  below : List Frame
  deriving Repr

namespace Stack

def openAll (s : Stack) : List Opening → Stack
  | [] => s
  | o :: os => openAll ⟨.start o, s.top :: s.below⟩ os

def append (s : Stack) (es : List Element) : Stack := { s with top := s.top.append es }

/-- The outermost node, after all others have ended inside it. -/
def collapse (top : Frame) : List Frame → Frame
  | [] => top
  | f :: below => collapse (f.append [top.element]) below

/-- Whether the item ends without a look at the next token. -/
def isEnded (s : Stack) : Bool := s.top.isEnded && s.below.all Frame.isEnded

/-- A token as a child, alone in a node if it is to be a leaf of some kind. -/
def leaf (t : Token) : Option NodeKind → Element
  | none => .token t
  | some k => .node k [.token t]

/-- The open nodes after the innermost one has taken a token and the trivia before it; there is no
answer if the token ends that node. -/
def accept (gap : List Token) (t : Token) (top : Frame) (below : List Frame) : Option Stack :=
  match top.place.on t.kind with
  | .take stay opened kind =>
    let node : Frame := ⟨top.kind, stay, top.children ++ gap.map .token⟩
    some ((openAll ⟨node, below⟩ opened).append [leaf t kind])
  | .wrap stay around opened =>
    let node : Frame := ⟨top.kind, stay, top.children.dropLast⟩
    let inner : Frame := ⟨around.1, around.2, top.children.getLast?.toList ++ gap.map .token⟩
    some ((openAll ⟨inner, node :: below⟩ opened).append [.token t])
  | .leave => none

/-- Gives a token, and the trivia before it, to the innermost node that takes it; the nodes inside
that one end. There is no answer if no node takes it. -/
def feed (gap : List Token) (t : Token) (top : Frame) : List Frame → Option Stack
  | [] => accept gap t top []
  | f :: below =>
    match accept gap t top (f :: below) with
    | some s => some s
    | none => feed gap t (f.append [top.element]) below

end Stack

/-- What reading an item gives: its node, the tokens after it, and whether the reader looked at
the next token that is not trivia, or at the end of the text, to find that the item had ended. -/
structure Reading where
  kind : NodeKind
  children : List Element
  rest : List Token
  peeked : Bool
  deriving Repr

namespace Reading

/-- The answer when the open nodes of `s` end. -/
def ofStack (s : Stack) (rest : List Token) (peeked : Bool) : Reading :=
  let node := Stack.collapse s.top s.below
  ⟨node.kind, node.children, rest, peeked⟩

/-- Reads on from open nodes, with trivia `gap` waiting. -/
def run (s : Stack) (gap : List Token) : List Token → Reading
  | [] => ofStack s gap true
  | t :: ts =>
    if t.kind.isTrivia then run s (gap ++ [t]) ts
    else
      match Stack.feed gap t s.top s.below with
      | none => ofStack s (gap ++ t :: ts) true
      | some s' => if s'.isEnded then ofStack s' ts false else run s' [] ts

/-- The open nodes after the first token of an item. -/
def first (t : Token) : Stack :=
  match Move.item .ended t.kind with
  | .take _ (o :: os) kind => (Stack.openAll ⟨.start o, []⟩ os).append [Stack.leaf t kind]
  | _ => ⟨⟨.error, .ended, [.token t]⟩, []⟩

/-- Reads the item that begins with the token `t`, which is not trivia, from the tokens that
follow it. -/
def ofTokens (t : Token) (ts : List Token) : Reading :=
  if (first t).isEnded then ofStack (first t) ts false else run (first t) [] ts

theorem length_rest_run_le (s : Stack) (gap ts : List Token) :
    (run s gap ts).rest.length ≤ gap.length + ts.length := by
  induction ts generalizing s gap with
  | nil => simp [run, ofStack]
  | cons t ts ih =>
    rw [run]
    split
    next => have := ih s (gap ++ [t]); simp at this ⊢; omega
    next =>
      split
      next => simp [ofStack]
      next s' _ =>
        split
        next => simp [ofStack]; omega
        next => have := ih s' []; simp at this ⊢; omega

/-- The tokens after an item are fewer than those it was read from. -/
theorem length_rest_ofTokens_le (t : Token) (ts : List Token) :
    (ofTokens t ts).rest.length ≤ ts.length := by
  unfold ofTokens
  split
  next => simp [ofStack]
  next => simpa using length_rest_run_le (first t) [] ts

end Reading

end IncrementalSyntax
