import IncrementalSyntax.Syntax.Item

/-!
The tree of a whole text: trivia and items in turn. With each item goes how far past its end the
reader looked, so that the bytes an item depends on are known: its own and those. Neither carries a
position, so an item that is carried over to another place stays as it is; `SyntaxTree.lookahead`
gives the positions.
-/
namespace IncrementalSyntax

structure Item where
  kind : NodeKind
  children : List Element
  /-- How many bytes after the item the reader looked at. -/
  peek : Nat
  deriving Repr

namespace Item

def element (i : Item) : Element := .node i.kind i.children

def tokens (i : Item) : List Token := i.element.tokens

def size (i : Item) : Nat := i.element.size

/-- Number of bytes that the reading of the item depended on. -/
def reach (i : Item) : Nat := i.size + i.peek

end Item

inductive Part where
  | trivia (token : Token)
  | item (item : Item)
  deriving Repr

namespace Part

def element : Part → Element
  | trivia t => .token t
  | item i => i.element

def tokens (p : Part) : List Token := p.element.tokens

def size (p : Part) : Nat := p.element.size

def tokensOf (ps : List Part) : List Token := ps.flatMap tokens

end Part

/-- Where an item stands, and where the bytes that it depends on end. -/
structure Lookahead where
  range : TextRange
  stop : Nat
  deriving DecidableEq, Repr

structure SyntaxTree where
  text : Text
  parts : List Part
  deriving Repr

namespace SyntaxTree

def root (tree : SyntaxTree) : Element := .node .sourceFile (tree.parts.map Part.element)

def tokens (tree : SyntaxTree) : List Token := Part.tokensOf tree.parts

/-- The places of the items among parts that begin at `start`. -/
def lookaheadFrom (start : Nat) : List Part → List Lookahead
  | [] => []
  | .trivia t :: ps => lookaheadFrom (start + t.size) ps
  | .item i :: ps => ⟨.sized start i.size, start + i.reach⟩ :: lookaheadFrom (start + i.size) ps

def lookahead (tree : SyntaxTree) : List Lookahead := lookaheadFrom 0 tree.parts

/-- Whether the text was malformed anywhere. -/
def hasErrors (tree : SyntaxTree) : Bool := tree.root.hasErrors

/-- Every element of the tree, in a walk from the root. -/
def rows (tree : SyntaxTree) : List Element.Row := tree.root.rows 0 0

def dump (tree : SyntaxTree) : Text := tree.root.dump

def describe (tree : SyntaxTree) : String :=
  s!"SyntaxTree \x7b len: {tree.root.size}, children: {tree.parts.length} \x7d"

end SyntaxTree

end IncrementalSyntax
