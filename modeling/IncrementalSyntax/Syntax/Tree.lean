import IncrementalSyntax.Syntax.Token
import IncrementalSyntax.Text.Range
import IncrementalSyntax.Text.Quoted

/-!
Trees of tokens. An element is a token or a node with its children; it carries no position, so the
same element can stand anywhere in a text. Positions come from walking a tree: `Element.rows` lists
every element with its depth and range, and `dump` writes that list out.
-/
namespace IncrementalSyntax

inductive Element where
  | token (token : Token)
  | node (kind : NodeKind) (children : List Element)
  deriving Repr

namespace Element

mutual

def tokens : Element → List Token
  | .token t => [t]
  | .node _ children => tokensOf children

def tokensOf : List Element → List Token
  | [] => []
  | e :: es => e.tokens ++ tokensOf es

end

mutual

def size : Element → Nat
  | .token t => t.size
  | .node _ children => sizeOfAll children

def sizeOfAll : List Element → Nat
  | [] => 0
  | e :: es => e.size + sizeOfAll es

end

def kind : Element → SyntaxKind
  | .token t => .token t.kind
  | .node k _ => .node k

@[simp] theorem tokens_token (t : Token) : (token t).tokens = [t] := by simp [tokens]

@[simp] theorem tokens_node (k : NodeKind) (es : List Element) :
    (node k es).tokens = tokensOf es := by simp [tokens]

@[simp] theorem tokensOf_nil : tokensOf [] = [] := by simp [tokensOf]

@[simp] theorem tokensOf_cons (e : Element) (es : List Element) :
    tokensOf (e :: es) = e.tokens ++ tokensOf es := by simp [tokensOf]

@[simp] theorem tokensOf_append (es fs : List Element) :
    tokensOf (es ++ fs) = tokensOf es ++ tokensOf fs := by
  induction es with
  | nil => simp
  | cons e es ih => simp [ih]

@[simp] theorem tokensOf_map_token (ts : List Token) : tokensOf (ts.map token) = ts := by
  induction ts with
  | nil => simp
  | cons t ts ih => simp [ih]

mutual

theorem size_eq (e : Element) : e.size = Token.sizeOfAll e.tokens := by
  cases e with
  | token t => simp [size]
  | node k children => rw [size, tokens_node, sizeOfAll_eq]

theorem sizeOfAll_eq (es : List Element) : sizeOfAll es = Token.sizeOfAll (tokensOf es) := by
  cases es with
  | nil => simp [sizeOfAll]
  | cons e es => rw [sizeOfAll, tokensOf_cons, Token.sizeOfAll_append, size_eq, sizeOfAll_eq]

end

mutual

def hasErrors : Element → Bool
  | .token t => t.kind = .unknown
  | .node k children => k = .error || anyErrors children

def anyErrors : List Element → Bool
  | [] => false
  | e :: es => e.hasErrors || anyErrors es

end

/-- An element as a walk meets it: how deep, what, where and, for a token, its text. -/
structure Row where
  depth : Nat
  kind : SyntaxKind
  range : TextRange
  text : Option Text
  deriving DecidableEq, Repr

mutual

/-- The walk through an element that starts at `start`: the element, then its children. -/
def rows (depth start : Nat) : Element → List Row
  | .token t => [⟨depth, .token t.kind, .sized start t.size, some t.text⟩]
  | .node k children =>
    ⟨depth, .node k, .sized start (sizeOfAll children), none⟩ ::
      rowsOf (depth + 1) start children

/-- The walk through consecutive elements. -/
def rowsOf (depth start : Nat) : List Element → List Row
  | [] => []
  | e :: es => e.rows depth start ++ rowsOf depth (start + e.size) es

end

/-- One line of a dump: two blanks per level, kind and range, and the text of a token in quotes. -/
def Row.render (r : Row) : Text :=
  List.replicate (2 * r.depth) ' ' ++ r.kind.name.toList ++ '@' :: r.range.render.toList ++
    (match r.text with
      | some t => ' ' :: Quoted.encode t
      | none => []) ++
    ['\n']

def dump (e : Element) : Text := (e.rows 0 0).flatMap Row.render

end Element

end IncrementalSyntax
