import IncrementalSyntax.Syntax.Tree

/-!
Sentences: what a well-formed text says. A sentence is written down with all of its tokens and no
trivia; `tokens` lists them, and `tree` is the derivation of the sentence.

    item       = `func` name `(` (param (`,` param)*)? `)` (`->` name)? `{` item* `}`
               | (`let` | `var`) name (`:` name)? (`=` expr)? `;`
               | `return` expr? `;`
               | expr `;`
    param      = name (`:` name)?
    expr       = operand (operator operand)*
    operand    = int | str | name arguments* | `(` expr `)`
    arguments  = `(` (expr (`,` expr)*)? `)`

The grammar leaves the operands of an expression in a row. How they nest is said by `Chain.nest`:
runs of `*` and `/` are products, and the products are then joined by `+` and `-`, in both cases
from the left.
-/
namespace IncrementalSyntax

namespace Sentence

abbrev Leaf (kinds : List TokenKind) := { t : Token // t.kind ∈ kinds }

namespace Leaf

def element {kinds : List TokenKind} (t : Leaf kinds) : Element := .token t.val

theorem kind_eq {k : TokenKind} (t : Leaf [k]) : t.val.kind = k := List.mem_singleton.mp t.property

end Leaf

abbrev Operator := Leaf [.plus, .minus, .star, .slash]

/-- Whether an operator is one of the two that bind more tightly. -/
def Operator.isTight (op : Operator) : Bool := op.val.kind = .star || op.val.kind = .slash

namespace Chain

def join (x : Element) (op : Operator) (y : Element) : Element := .node .binExpr [x, op.element, y]

/-- The operand `x` with the tight operators right after it, and the products that follow, each
after its operator. -/
def products (x : Element) : List (Operator × Element) → Element × List (Operator × Element)
  | [] => (x, [])
  | (op, y) :: others =>
    if op.isTight then products (join x op y) others
    else (x, (op, (products y others).1) :: (products y others).2)

def sum (x : Element) (others : List (Operator × Element)) : Element :=
  others.foldl (fun x other => join x other.1 other.2) x

/-- The nesting of an operand and those that follow it, each after its operator. -/
def nest (x : Element) (others : List (Operator × Element)) : Element :=
  sum (products x others).1 (products x others).2

example (x y z u v : Element) :
    let minus : Operator := ⟨⟨.minus, ['-']⟩, by decide⟩
    let star : Operator := ⟨⟨.star, ['*']⟩, by decide⟩
    nest x [(minus, y), (star, z), (star, u), (minus, v)] =
      join (join x minus (join (join y star z) star u)) minus v := rfl

end Chain

mutual

/-- Operands with operators between them. -/
inductive Expr where
  | chain (first : Operand) (others : Others)

inductive Others where
  | none
  | more (operator : Operator) (operand : Operand) (others : Others)

inductive Operand where
  | literal (token : Leaf [.int, .str])
  | named (callee : Callee)
  | paren (left : Leaf [.lparen]) (value : Expr) (right : Leaf [.rparen])

inductive Callee where
  | name (token : Leaf [.ident])
  | call (callee : Callee) (arguments : Arguments)

inductive Arguments where
  | none (left : Leaf [.lparen]) (right : Leaf [.rparen])
  | some (left : Leaf [.lparen]) (values : Values) (right : Leaf [.rparen])

inductive Values where
  | one (value : Expr)
  | more (values : Values) (comma : Leaf [.comma]) (value : Expr)

end

abbrev Annotation := Option (Leaf [.colon] × Leaf [.ident])

structure Param where
  name : Leaf [.ident]
  type : Annotation

inductive Params where
  | one (param : Param)
  | more (params : Params) (comma : Leaf [.comma]) (param : Param)

inductive Item where
  | func (keyword : Leaf [.funcKw]) (name : Leaf [.ident])
      (left : Leaf [.lparen]) (params : Option Params) (right : Leaf [.rparen])
      (result : Option (Leaf [.arrow] × Leaf [.ident]))
      (opening : Leaf [.lbrace]) (body : List Item) (closing : Leaf [.rbrace])
  | binding (keyword : Leaf [.letKw, .varKw]) (name : Leaf [.ident]) (type : Annotation)
      (value : Option (Leaf [.equals] × Expr)) (semi : Leaf [.semi])
  | ret (keyword : Leaf [.returnKw]) (value : Option Expr) (semi : Leaf [.semi])
  | expr (value : Expr) (semi : Leaf [.semi])

/-! The tokens of a sentence. -/

mutual

def Expr.tokens : Expr → List Token
  | .chain first others => first.tokens ++ others.tokens

def Others.tokens : Others → List Token
  | .none => []
  | .more op x others => op.val :: (x.tokens ++ others.tokens)

def Operand.tokens : Operand → List Token
  | .literal t => [t.val]
  | .named callee => callee.tokens
  | .paren left value right => left.val :: (value.tokens ++ [right.val])

def Callee.tokens : Callee → List Token
  | .name t => [t.val]
  | .call callee arguments => callee.tokens ++ arguments.tokens

def Arguments.tokens : Arguments → List Token
  | .none left right => [left.val, right.val]
  | .some left values right => left.val :: (values.tokens ++ [right.val])

def Values.tokens : Values → List Token
  | .one value => value.tokens
  | .more values comma value => values.tokens ++ comma.val :: value.tokens

end

/-- Two tokens that stand together, if they are there. -/
def Pair.tokens {ks ls : List TokenKind} : Option (Leaf ks × Leaf ls) → List Token
  | none => []
  | some (first, second) => [first.val, second.val]

def Param.tokens (p : Param) : List Token := p.name.val :: Pair.tokens p.type

def Params.tokens : Params → List Token
  | .one p => p.tokens
  | .more ps comma p => ps.tokens ++ comma.val :: p.tokens

mutual

def Item.tokens : Item → List Token
  | .func keyword name left params right result opening body closing =>
    keyword.val :: name.val :: left.val :: (params.elim [] Params.tokens ++
      right.val :: (Pair.tokens result ++ opening.val :: (tokensOf body ++ [closing.val])))
  | .binding keyword name type value semi =>
    keyword.val :: name.val :: (Pair.tokens type ++
      (value.elim [] (fun v => v.1.val :: v.2.tokens) ++ [semi.val]))
  | .ret keyword value semi => keyword.val :: (value.elim [] Expr.tokens ++ [semi.val])
  | .expr value semi => value.tokens ++ [semi.val]

def Item.tokensOf : List Item → List Token
  | [] => []
  | i :: is => i.tokens ++ tokensOf is

end

/-! The derivation of a sentence. -/

mutual

def Expr.tree : Expr → Element
  | .chain first others => Chain.nest first.tree others.operands

def Others.operands : Others → List (Operator × Element)
  | .none => []
  | .more op x others => (op, x.tree) :: others.operands

def Operand.tree : Operand → Element
  | .literal t => .node .literal [t.element]
  | .named callee => callee.tree
  | .paren left value right => .node .parenExpr [left.element, value.tree, right.element]

def Callee.tree : Callee → Element
  | .name t => .node .nameRef [t.element]
  | .call callee arguments => .node .callExpr [callee.tree, arguments.tree]

def Arguments.tree : Arguments → Element
  | .none left right => .node .argList [left.element, right.element]
  | .some left values right =>
    .node .argList (left.element :: (values.elements ++ [right.element]))

def Values.elements : Values → List Element
  | .one value => [value.tree]
  | .more values comma value => values.elements ++ [comma.element, value.tree]

end

def Pair.elements {ks ls : List TokenKind} : Option (Leaf ks × Leaf ls) → List Element
  | none => []
  | some (first, second) => [first.element, second.element]

def Param.tree (p : Param) : Element := .node .param (p.name.element :: Pair.elements p.type)

def Params.elements : Params → List Element
  | .one p => [p.tree]
  | .more ps comma p => ps.elements ++ [comma.element, p.tree]

mutual

def Item.tree : Item → Element
  | .func keyword name left params right result opening body closing =>
    .node .funcDecl ([keyword.element, name.element,
        .node .paramList (left.element :: (params.elim [] Params.elements ++ [right.element]))] ++
      (result.elim [] fun r => [.node .retType [r.1.element, r.2.element]]) ++
      [.node .block (opening.element :: (treesOf body ++ [closing.element]))])
  | .binding keyword name type value semi =>
    .node .letDecl (keyword.element :: name.element :: (Pair.elements type ++
      (value.elim [] (fun v => [v.1.element, v.2.tree]) ++ [semi.element])))
  | .ret keyword value semi =>
    .node .returnStmt (keyword.element :: (value.elim [] (fun v => [v.tree]) ++ [semi.element]))
  | .expr value semi => .node .exprStmt [value.tree, semi.element]

def Item.treesOf : List Item → List Element
  | [] => []
  | i :: is => i.tree :: treesOf is

end

/-! Sentences are well-formed. -/

end Sentence

namespace Element

@[simp] theorem hasErrors_token (t : Token) : (token t).hasErrors = (t.kind = .unknown : Bool) := by
  simp [hasErrors]

@[simp] theorem hasErrors_node (k : NodeKind) (es : List Element) :
    (node k es).hasErrors = ((k = .error : Bool) || anyErrors es) := by simp [hasErrors]

@[simp] theorem anyErrors_nil : anyErrors [] = false := by simp [anyErrors]

@[simp] theorem anyErrors_cons (e : Element) (es : List Element) :
    anyErrors (e :: es) = (e.hasErrors || anyErrors es) := by simp [anyErrors]

@[simp] theorem anyErrors_append (es fs : List Element) :
    anyErrors (es ++ fs) = (anyErrors es || anyErrors fs) := by
  induction es with
  | nil => simp
  | cons e es ih => simp [ih, Bool.or_assoc]

end Element

namespace Sentence

@[simp] theorem Leaf.hasErrors_element {kinds : List TokenKind} (t : Leaf kinds)
    (h : .unknown ∉ kinds) : t.element.hasErrors = false := by
  have hkind : t.val.kind ≠ .unknown := fun hunknown => h (hunknown ▸ t.property)
  simp [element, hkind]

namespace Chain

/-- No operand after an operator is malformed. -/
def Clean (others : List (Operator × Element)) : Prop := ∀ o ∈ others, o.2.hasErrors = false

theorem hasErrors_join {x y : Element} (hx : x.hasErrors = false) (op : Operator)
    (hy : y.hasErrors = false) : (join x op y).hasErrors = false := by simp [join, hx, hy]

theorem clean_products {x : Element} (hx : x.hasErrors = false)
    {others : List (Operator × Element)} (h : Clean others) :
    (products x others).1.hasErrors = false ∧ Clean (products x others).2 := by
  induction others generalizing x with
  | nil => exact ⟨hx, by simp [products, Clean]⟩
  | cons o others ih =>
    obtain ⟨ho, hothers⟩ := List.forall_mem_cons.mp h
    rw [products]
    split
    next => exact ih (hasErrors_join hx o.1 ho) hothers
    next =>
      obtain ⟨hproduct, hrest⟩ := ih ho hothers
      exact ⟨hx, List.forall_mem_cons.mpr ⟨hproduct, hrest⟩⟩

theorem hasErrors_sum {x : Element} (hx : x.hasErrors = false) {others : List (Operator × Element)}
    (h : Clean others) : (sum x others).hasErrors = false := by
  induction others generalizing x with
  | nil => exact hx
  | cons o others ih =>
    obtain ⟨ho, hothers⟩ := List.forall_mem_cons.mp h
    exact ih (hasErrors_join hx o.1 ho) hothers

theorem hasErrors_nest {x : Element} (hx : x.hasErrors = false) {others : List (Operator × Element)}
    (h : Clean others) : (nest x others).hasErrors = false :=
  hasErrors_sum (clean_products hx h).1 (clean_products hx h).2

end Chain

mutual

theorem Expr.hasErrors_tree (e : Expr) : e.tree.hasErrors = false := by
  cases e with
  | chain first others =>
    rw [Expr.tree]
    exact Chain.hasErrors_nest first.hasErrors_tree others.clean_operands

theorem Others.clean_operands (o : Others) : Chain.Clean o.operands := by
  cases o with
  | none => simp [Others.operands, Chain.Clean]
  | more op x others =>
    rw [Others.operands]
    exact List.forall_mem_cons.mpr ⟨x.hasErrors_tree, others.clean_operands⟩

theorem Operand.hasErrors_tree (x : Operand) : x.tree.hasErrors = false := by
  cases x with
  | literal t => simp [Operand.tree]
  | named callee => rw [Operand.tree, callee.hasErrors_tree]
  | paren left value right => simp [Operand.tree, value.hasErrors_tree]

theorem Callee.hasErrors_tree (c : Callee) : c.tree.hasErrors = false := by
  cases c with
  | name t => simp [Callee.tree]
  | call callee arguments =>
    simp [Callee.tree, callee.hasErrors_tree, arguments.hasErrors_tree]

theorem Arguments.hasErrors_tree (a : Arguments) : a.tree.hasErrors = false := by
  cases a with
  | none left right => simp [Arguments.tree]
  | some left values right => simp [Arguments.tree, values.anyErrors_elements]

theorem Values.anyErrors_elements (vs : Values) : Element.anyErrors vs.elements = false := by
  cases vs with
  | one value => simp [Values.elements, value.hasErrors_tree]
  | more values comma value =>
    simp [Values.elements, values.anyErrors_elements, value.hasErrors_tree]

end

theorem Pair.anyErrors_elements {ks ls : List TokenKind} (hks : .unknown ∉ ks)
    (hls : .unknown ∉ ls) (pair : Option (Leaf ks × Leaf ls)) :
    Element.anyErrors (elements pair) = false := by
  cases pair with
  | none => rfl
  | some pair => simp [elements, hks, hls]

theorem Params.anyErrors_elements (ps : Params) : Element.anyErrors ps.elements = false := by
  have hparam : ∀ p : Param, p.tree.hasErrors = false := fun p => by
    simp [Param.tree, Pair.anyErrors_elements]
  induction ps with
  | one p => simp [elements, hparam]
  | more ps comma p ih => simp [elements, hparam, ih]

mutual

/-- No sentence is malformed. -/
theorem Item.hasErrors_tree (i : Item) : i.tree.hasErrors = false := by
  cases i with
  | func keyword name left params right result opening body closing =>
    cases params <;> cases result <;>
      simp [Item.tree, Params.anyErrors_elements, Item.anyErrors_treesOf body]
  | binding keyword name type value semi =>
    cases value <;> simp [Item.tree, Pair.anyErrors_elements, Expr.hasErrors_tree]
  | ret keyword value semi => cases value <;> simp [Item.tree, Expr.hasErrors_tree]
  | expr value semi => simp [Item.tree, value.hasErrors_tree]

theorem Item.anyErrors_treesOf (is : List Item) : Element.anyErrors (Item.treesOf is) = false := by
  cases is with
  | nil => simp [Item.treesOf]
  | cons i is => simp [Item.treesOf, i.hasErrors_tree, Item.anyErrors_treesOf is]

end

end Sentence

end IncrementalSyntax
