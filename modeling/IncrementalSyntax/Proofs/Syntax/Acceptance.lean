import IncrementalSyntax.Proofs.Syntax.Expression
import IncrementalSyntax.Proofs.Syntax.Reparse

/-!
Every sentence is accepted. An item is read as its derivation whatever comes after it, because its
last token ends it (`Item.read_tokens`); so the items of a block are read one after the other, and
so are those of a whole text. `parse_sentence` says this of texts with trivia: their trees have no
errors and are, without trivia, the derivations of their sentences.
-/
namespace IncrementalSyntax

namespace Sentence

open Stack

theorem Callee.begins (c : Callee) : ∃ t ts, c.tokens = t :: ts ∧ t.kind = .ident := by
  cases c with
  | name t => exact ⟨t.val, [], by rw [Callee.tokens], t.kind_eq⟩
  | call callee arguments =>
    obtain ⟨t, ts, h, hkind⟩ := callee.begins
    exact ⟨t, ts ++ arguments.tokens, by rw [Callee.tokens, h, List.cons_append], hkind⟩

def operandKinds : List TokenKind := [.int, .str, .ident, .lparen]

theorem Expr.begins (e : Expr) : ∃ t ts, e.tokens = t :: ts ∧ t.kind ∈ operandKinds := by
  obtain ⟨first, others⟩ := e
  rw [Expr.tokens]
  cases first with
  | literal t =>
    have hkind : t.val.kind = .int ∨ t.val.kind = .str := by simpa using t.property
    refine ⟨t.val, others.tokens, by rw [Operand.tokens, List.singleton_append], ?_⟩
    rcases hkind with h | h <;> rw [h] <;> decide
  | named callee =>
    obtain ⟨t, ts, h, hkind⟩ := callee.begins
    exact ⟨t, ts ++ others.tokens, by rw [Operand.tokens, h, List.cons_append],
      by rw [hkind]; decide⟩
  | paren left value right =>
    rw [Operand.tokens, List.cons_append]
    exact ⟨left.val, _, rfl, by rw [left.kind_eq]; decide⟩

/-- The move of the first token of an expression statement. -/
def statement (k : TokenKind) : Move := (Move.expression? .statementEnd k).getD .leave

theorem expects_statement : Move.Expects statement 1 .statementEnd := Move.expects_getD _ _ _

/-- The open nodes after the first token of an item inside the nodes `below`. -/
def firstIn (below : List Frame) (t : Token) : Stack :=
  match Move.item .ended t.kind with
  | .take _ (o :: os) kind => (openAll ⟨.start o, below⟩ os).append [leaf t kind]
  | _ => ⟨⟨.error, .ended, [.token t]⟩, below⟩

theorem firstIn_enter {t : Token} {k : TokenKind} {o : Opening} (ht : t.kind = k)
    (h : Move.item .ended k = .enter .ended o) (below : List Frame) :
    firstIn below t = ⟨⟨o.1, o.2, [.token t]⟩, below⟩ := by
  rw [firstIn, ht, h]
  rfl

/-- An operand opens an expression statement. -/
theorem read_firstIn_statement {t : Token} (ht : t.kind ∈ operandKinds)
    (below : List Frame) (ts : List Token) :
    readBare (firstIn below t) ts = readBy statement .exprStmt [] below (t :: ts) := by
  simp only [operandKinds, List.mem_cons, List.not_mem_nil, or_false] at ht
  rw [firstIn, readBy]
  rcases ht with h | h | h | h <;> rw [h] <;> rfl

def itemKinds : List TokenKind := [.funcKw, .letKw, .varKw, .returnKw] ++ operandKinds

theorem Item.begins (i : Item) : ∃ t ts, i.tokens = t :: ts ∧ t.kind ∈ itemKinds := by
  cases i with
  | func keyword =>
    rw [Item.tokens]
    exact ⟨_, _, rfl, by rw [keyword.kind_eq]; decide⟩
  | binding keyword =>
    have hkind : keyword.val.kind = .letKw ∨ keyword.val.kind = .varKw := by
      simpa using keyword.property
    rw [Item.tokens]
    exact ⟨_, _, rfl, by rcases hkind with h | h <;> rw [h] <;> decide⟩
  | ret keyword =>
    rw [Item.tokens]
    exact ⟨_, _, rfl, by rw [keyword.kind_eq]; decide⟩
  | expr value semi =>
    obtain ⟨t, ts, h, hkind⟩ := value.begins
    rw [Item.tokens, h]
    exact ⟨t, _, rfl, List.mem_append_right _ hkind⟩

/-- An item inside a block is read as an item on its own. -/
theorem read_blockItems {t : Token} (ht : t.kind ∈ itemKinds) (k : NodeKind) (es : List Element)
    (below : List Frame) (ts : List Token) :
    readBare ⟨⟨k, .blockItems, es⟩, below⟩ (t :: ts) =
      readBare (firstIn (⟨k, .blockItems, es⟩ :: below) t) ts := by
  simp only [itemKinds, operandKinds, List.cons_append, List.nil_append, List.mem_cons,
    List.not_mem_nil, or_false] at ht
  rw [read_eq_readBy, readBy, firstIn]
  rcases ht with h | h | h | h | h | h | h | h <;> rw [h] <;> rfl

theorem Param.read_tokens (p : Param) (es : List Element) (below : List Frame) {t : Token}
    (ht : Closes t) (ts : List Token) :
    readBare ⟨⟨.paramList, .params, es⟩, below⟩ (p.tokens ++ t :: ts) =
      readBare ⟨⟨.paramList, .params, es ++ [p.tree]⟩, below⟩ (t :: ts) := by
  have hleave : Place.paramColon.on t.kind = .leave := by
    simp only [Closes, List.mem_cons, List.not_mem_nil, or_false] at ht
    rcases ht with h | h | h <;> rw [h] <;> rfl
  obtain ⟨name, type⟩ := p
  rw [Param.tokens, Param.tree, List.cons_append, read_enter (p := .params) name.kind_eq rfl]
  cases type with
  | none =>
    rw [Pair.tokens, List.nil_append, read_leave (by rintro u ⟨⟩; exact hleave)]
    rfl
  | some type =>
    rw [Pair.tokens, List.cons_append, List.singleton_append,
      read_shift (p := .paramColon) type.1.kind_eq rfl,
      read_shift (p := .paramType) type.2.kind_eq rfl, read_ended]
    rfl

theorem Params.read_tokens (ps : Params) (es : List Element) (below : List Frame) {t : Token}
    (ht : Closes t) (ts : List Token) :
    readBare ⟨⟨.paramList, .params, es⟩, below⟩ (ps.tokens ++ t :: ts) =
      readBare ⟨⟨.paramList, .params, es ++ ps.elements⟩, below⟩ (t :: ts) := by
  induction ps generalizing t ts with
  | one p => rw [Params.tokens, Params.elements, p.read_tokens _ _ ht]
  | more ps comma p ih =>
    rw [Params.tokens, Params.elements, List.append_assoc, List.cons_append,
      ih (comma.closes (by decide)), read_shift (p := .params) comma.kind_eq rfl,
      p.read_tokens _ _ ht]
    simp [Leaf.element]

/-- The parameters of a function, if there are any, and the end of their list. -/
theorem read_parameters (params : Option Params) (right : Leaf [.rparen]) (es : List Element)
    (f : Frame) (below : List Frame) (ts : List Token) :
    readBare ⟨⟨.paramList, .params, es⟩, f :: below⟩
        (params.elim [] Params.tokens ++ right.val :: ts) =
      readBare ⟨f.append [.node .paramList (es ++ (params.elim [] Params.elements ++
        [right.element]))], below⟩ ts := by
  cases params with
  | none => rw [Option.elim, List.nil_append, read_shift right.kind_eq rfl, read_ended]; rfl
  | some params =>
    rw [Option.elim, params.read_tokens _ _ (right.closes (by decide)),
      read_shift right.kind_eq rfl, read_ended, List.append_assoc]
    rfl

/-- The result of a function, if it has one, and the beginning of its block. -/
theorem read_result (result : Option (Leaf [.arrow] × Leaf [.ident])) (opening : Leaf [.lbrace])
    (es : List Element) (below : List Frame) (ts : List Token) :
    readBare ⟨⟨.funcDecl, .funcResult, es⟩, below⟩ (Pair.tokens result ++ opening.val :: ts) =
      readBare ⟨⟨.block, .blockItems, [opening.element]⟩, ⟨.funcDecl, .ended, es ++
        result.elim [] fun r => [.node .retType [r.1.element, r.2.element]]⟩ :: below⟩ ts := by
  cases result with
  | none =>
    rw [Pair.tokens, List.nil_append, read_enter opening.kind_eq rfl, Option.elim, List.append_nil]
    rfl
  | some result =>
    rw [Pair.tokens, List.cons_append, List.singleton_append,
      read_enter (p := .funcResult) result.1.kind_eq rfl,
      read_shift (p := .resultName) result.2.kind_eq rfl, read_ended, readOn_cons, Frame.append,
      read_enter (p := .funcBody) opening.kind_eq rfl]
    rfl

theorem read_annotation (type : Annotation) (es : List Element) (below : List Frame)
    {ts : List Token} (hts : ∀ t ∈ ts.head?, t.kind ≠ .colon) :
    readBare ⟨⟨.letDecl, .letColon, es⟩, below⟩ (Pair.tokens type ++ ts) =
      readBare ⟨⟨.letDecl, .letEquals, es ++ Pair.elements type⟩, below⟩ ts := by
  cases type with
  | none =>
    rw [Pair.tokens, Pair.elements, List.nil_append, List.append_nil]
    refine read_congr fun t ht => ?_
    have hcolon := hts t ht
    cases hk : t.kind <;> simp_all [Place.on, Place.on.onLetColon]
  | some type =>
    rw [Pair.tokens, Pair.elements, List.cons_append, List.singleton_append,
      read_shift (p := .letColon) type.1.kind_eq rfl,
      read_shift (p := .letType) type.2.kind_eq rfl]
    simp [Leaf.element]

/-- A value after its sign, if there is one, and the end of the declaration. -/
theorem read_initializer (value : Option (Leaf [.equals] × Expr)) (semi : Leaf [.semi])
    (es : List Element) (below : List Frame) (ts : List Token) :
    readBare ⟨⟨.letDecl, .letEquals, es⟩, below⟩
        (value.elim [] (fun v => v.1.val :: v.2.tokens) ++ semi.val :: ts) =
      readOn (.node .letDecl (es ++ (value.elim [] (fun v => [v.1.element, v.2.tree]) ++
        [semi.element]))) below ts := by
  cases value with
  | none => rw [Option.elim, List.nil_append, read_shift semi.kind_eq rfl, read_ended]; rfl
  | some value =>
    rw [Option.elim, List.cons_append, read_shift (p := .letEquals) value.1.kind_eq rfl,
      read_eq_readBy, value.2.read_tokens Move.expects_letValue _ _ _
        (semi.closes (by decide)),
      read_shift (p := .letEnd) semi.kind_eq rfl, read_ended]
    simp [Leaf.element]

/-- The value of a return statement, if there is one, and the end of the statement. -/
theorem read_returned (value : Option Expr) (semi : Leaf [.semi]) (es : List Element)
    (below : List Frame) (ts : List Token) :
    readBare ⟨⟨.returnStmt, .returnValue, es⟩, below⟩
        (value.elim [] Expr.tokens ++ semi.val :: ts) =
      readOn (.node .returnStmt (es ++ (value.elim [] (fun v => [v.tree]) ++ [semi.element])))
        below ts := by
  cases value with
  | none => rw [Option.elim, List.nil_append, read_shift semi.kind_eq rfl, read_ended]; rfl
  | some value =>
    rw [Option.elim, read_eq_readBy, value.read_tokens Move.expects_returnValue _ _ _
        (semi.closes (by decide)),
      read_shift (p := .returnEnd) semi.kind_eq rfl, read_ended]
    simp [Leaf.element]

mutual

/-- The item lemma: an item is read as its derivation, whatever comes after it. -/
theorem Item.read_tokens (i : Item) (below : List Frame) {t : Token} {ts rest : List Token}
    (h : i.tokens ++ rest = t :: ts) :
    readBare (firstIn below t) ts = readOn i.tree below rest := by
  cases i with
  | func keyword name left params right result opening body closing =>
    rw [Item.tokens, List.cons_append] at h
    obtain ⟨rfl, rfl⟩ := List.cons.inj h
    simp only [List.cons_append, List.append_assoc, List.nil_append]
    rw [firstIn_enter keyword.kind_eq rfl, read_shift (p := .funcName) name.kind_eq rfl,
      read_enter (p := .funcParams) left.kind_eq rfl, read_parameters, Frame.append, read_result,
      Item.read_tokensOf body, read_shift (p := .blockItems) closing.kind_eq rfl, read_ended,
      readOn_cons, Frame.append, read_ended, Item.tree]
    simp [Leaf.element]
  | binding keyword name type value semi =>
    rw [Item.tokens, List.cons_append] at h
    obtain ⟨rfl, rfl⟩ := List.cons.inj h
    have hfirst : Move.item .ended keyword.val.kind = .enter .ended (.letDecl, .letName) := by
      have hkind : keyword.val.kind = .letKw ∨ keyword.val.kind = .varKw := by
        simpa using keyword.property
      rcases hkind with h | h <;> rw [h] <;> rfl
    have hvalue : ∀ t ∈ (value.elim [] (fun v => v.1.val :: v.2.tokens) ++ semi.val :: rest).head?,
        t.kind ≠ .colon := by
      cases value with
      | none => rintro t ⟨⟩; simp [semi.kind_eq]
      | some value => rintro t ⟨⟩; simp [value.1.kind_eq]
    simp only [List.cons_append, List.append_assoc, List.nil_append]
    rw [firstIn_enter rfl hfirst, read_shift (p := .letName) name.kind_eq rfl,
      read_annotation _ _ _ hvalue, read_initializer, Item.tree]
    simp [Leaf.element]
  | ret keyword value semi =>
    rw [Item.tokens, List.cons_append] at h
    obtain ⟨rfl, rfl⟩ := List.cons.inj h
    rw [firstIn_enter keyword.kind_eq rfl, List.append_assoc, List.singleton_append, read_returned,
      Item.tree]
    rfl
  | expr value semi =>
    -- the first token of the expression is also the one that opens the statement
    obtain ⟨u, us, hvalue, hkind⟩ := value.begins
    rw [Item.tokens, List.append_assoc, List.singleton_append] at h
    obtain ⟨rfl, -⟩ : u = t ∧ us ++ semi.val :: rest = ts := by simpa [hvalue] using h
    rw [read_firstIn_statement hkind, ← h, value.read_tokens expects_statement _ _ _
        (semi.closes (by decide)),
      read_shift (p := .statementEnd) semi.kind_eq rfl, read_ended, Item.tree]
    rfl

theorem Item.read_tokensOf (is : List Item) (es : List Element) (below : List Frame)
    (ts : List Token) :
    readBare ⟨⟨.block, .blockItems, es⟩, below⟩ (Item.tokensOf is ++ ts) =
      readBare ⟨⟨.block, .blockItems, es ++ Item.treesOf is⟩, below⟩ ts := by
  cases is with
  | nil => simp [Item.tokensOf, Item.treesOf]
  | cons i is =>
    obtain ⟨t, us, hi, hkind⟩ := i.begins
    rw [Item.tokensOf, Item.treesOf, hi, List.append_assoc, List.cons_append,
      read_blockItems hkind, i.read_tokens _ (by rw [hi, List.cons_append]), readOn_cons,
      Frame.append, Item.read_tokensOf is]
    simp

end

/-- The parts that are read from the tokens of items, with trivia between them, are the derivations
of the items. -/
theorem Item.bare_readParts (start : Nat) (ts : List Token) (is : List Item)
    (h : Token.bare ts = Item.tokensOf is) :
    Element.bareOf (((readParts .none start ts).map Prod.fst).map Part.element) =
      Item.treesOf is := by
  induction start, ts using readParts.induct .none generalizing is with
  | case1 start =>
    cases is with
    | nil => simp [readParts, Item.treesOf]
    | cons i is =>
      obtain ⟨t, us, hi, -⟩ := i.begins
      simp [Item.tokensOf, hi] at h
  | case2 start t ts htrivia ih =>
    rw [Token.bare_cons_of_trivia htrivia] at h
    rw [readParts, if_pos htrivia]
    simpa [Element.bareOf, Part.element, Element.kind, SyntaxKind.isTrivia, htrivia] using ih is h
  | case3 start t ts htrivia old hold ih => simp at hold
  | case4 start t ts htrivia hold reading ih =>
    replace htrivia : t.kind.isTrivia = false := by simpa using htrivia
    rw [Token.bare_cons htrivia] at h
    cases is with
    | nil => simp [Item.tokensOf] at h
    | cons i is =>
      -- the first item ends where its tokens do, so the other items are read from the others
      rw [Item.tokensOf] at h
      have hreading : reading.bare = (i.tree, Item.tokensOf is) := by
        rw [Reading.bare_ofTokens htrivia]
        exact i.read_tokens [] h.symm
      obtain ⟨htree, hrest⟩ := Prod.mk.inj hreading
      rw [readParts, if_neg (by simp [htrivia]), hold, List.map_cons, List.map_cons,
        Element.bareOf_cons rfl, ih is hrest, Item.treesOf]
      exact congrArg (· :: Item.treesOf is) htree

end Sentence

/-- Every sentence is accepted: a text whose tokens, trivia left out, are those of a sentence has a
tree without errors, and the tree without trivia is the derivation of the sentence. -/
theorem parse_sentence (text : Text) (items : List Sentence.Item)
    (h : Token.bare (tokenize text) = Sentence.Item.tokensOf items) :
    (parse text).hasErrors = false ∧
      (parse text).root.bare = .node .sourceFile (Sentence.Item.treesOf items) := by
  have htree : (parse text).root.bare = .node .sourceFile (Sentence.Item.treesOf items) := by
    rw [SyntaxTree.root, Element.bare_node]
    exact congrArg _ (Sentence.Item.bare_readParts 0 (tokenize text) items h)
  refine ⟨?_, htree⟩
  rw [SyntaxTree.hasErrors, ← Element.hasErrors_bare, htree, Element.hasErrors_node,
    Sentence.Item.anyErrors_treesOf]
  rfl

/-- A function with parameters, a result and a block, in which a call of a call and a sum in
parentheses are the sides of a product on the right of a difference; and trivia between them. -/
theorem parse_sentence_function :
    let text : Text :=
      "func f(a, b: t) -> t \x7b // é\n return a - g(b)(1) * (2 + a);\n\x7d\n".toList
    let leaf (k : TokenKind) (text : String) : Sentence.Leaf [k] := ⟨⟨k, text.toList⟩, by simp⟩
    let name (text : String) : Sentence.Operand := .named (.name (leaf .ident text))
    let int (text : String) : Sentence.Operand := .literal ⟨⟨.int, text.toList⟩, by simp⟩
    let call (callee : Sentence.Callee) (x : Sentence.Operand) : Sentence.Callee :=
      .call callee (.some (leaf .lparen "(") (.one (.chain x .none)) (leaf .rparen ")"))
    let sum : Sentence.Expr :=
      .chain (int "2") (.more ⟨⟨.plus, "+".toList⟩, by simp⟩ (name "a") .none)
    let value : Sentence.Expr := .chain (name "a")
      (.more ⟨⟨.minus, "-".toList⟩, by simp⟩
        (.named (call (call (.name (leaf .ident "g")) (name "b")) (int "1")))
        (.more ⟨⟨.star, "*".toList⟩, by simp⟩
          (.paren (leaf .lparen "(") sum (leaf .rparen ")")) .none))
    let function : Sentence.Item := .func (leaf .funcKw "func") (leaf .ident "f")
      (leaf .lparen "(")
      (some (.more (.one ⟨leaf .ident "a", none⟩) (leaf .comma ",")
        ⟨leaf .ident "b", some (leaf .colon ":", leaf .ident "t")⟩))
      (leaf .rparen ")") (some (leaf .arrow "->", leaf .ident "t"))
      (leaf .lbrace "\x7b") [.ret (leaf .returnKw "return") (some value) (leaf .semi ";")]
      (leaf .rbrace "\x7d")
    Token.bare (tokenize text) = Sentence.Item.tokensOf [function] ∧
      (parse text).hasErrors = false ∧
      (parse text).root.bare = .node .sourceFile (Sentence.Item.treesOf [function]) := by
  intro text leaf name int call sum value function
  have htokens : Token.bare (tokenize text) = Sentence.Item.tokensOf [function] := by
    decide +kernel
  exact ⟨htokens, parse_sentence text [function] htokens⟩

end IncrementalSyntax
