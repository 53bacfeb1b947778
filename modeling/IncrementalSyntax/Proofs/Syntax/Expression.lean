import IncrementalSyntax.Proofs.Syntax.Sentence
import IncrementalSyntax.Proofs.Syntax.Trivia

/-!
Expressions are read as their derivations. `Stack.readBy` says what one token does to the innermost
open node, given the move that the table has for it. Every phrase then has a lemma of one form:
reading its tokens, and whatever comes after them, is reading what comes after with the derivation
of the phrase as one more child. Only an expression has to know what comes after it, because the
reader learns from the next token that it has ended.

Between operands the reader is in one of two states. Either everything so far is one operand, and
any operator may take it (`Others.read_tokens`); or a weak operator has its right side, and only a
tight operator may take that side (`Others.read_summand`). A tight operator is done with after its
right side, so that it leads back to the state before it.
-/
namespace IncrementalSyntax

namespace Stack

/-- Reads on when the node `e` has ended inside the nodes `below`. -/
def readOn (e : Element) (below : List Frame) (ts : List Token) : Element × List Token :=
  match below with
  | [] => (e, ts)
  | f :: below => readBare ⟨f.append [e], below⟩ ts

/-- Reads on in a node in which a token makes the move that `move` has for it. -/
def readBy (move : TokenKind → Move) (k : NodeKind) (es : List Element) (below : List Frame) :
    List Token → Element × List Token
  | [] => readOn (.node k es) below []
  | t :: ts =>
    match move t.kind with
    | .take stay opened kind =>
      readBare ((openAll ⟨⟨k, stay, es⟩, below⟩ opened).append [leaf t kind]) ts
    | .wrap stay around opened =>
      let inner : Frame := ⟨around.1, around.2, es.getLast?.toList⟩
      readBare ((openAll ⟨inner, ⟨k, stay, es.dropLast⟩ :: below⟩ opened).append [.token t]) ts
    | .leave => readOn (.node k es) below (t :: ts)

variable {k : NodeKind} {p q : Place} {es : List Element} {below : List Frame} {t : Token}
  {ts : List Token} {κ : TokenKind} {move : TokenKind → Move}

/-- In an open node, tokens make the moves of its place. -/
theorem read_eq_readBy (k : NodeKind) (p : Place) (es : List Element) (below : List Frame)
    (ts : List Token) : readBare ⟨⟨k, p, es⟩, below⟩ ts = readBy p.on k es below ts := by
  cases ts with
  | nil => cases below <;> rfl
  | cons t ts =>
    cases below with
    | nil =>
      rw [readBare, feed, accept, readBy]
      cases p.on t.kind <;> simp [readOn, collapse, Frame.element]
    | cons f below =>
      rw [readBare, feed, accept, readBy]
      cases p.on t.kind with
      | take stay opened kind => simp
      | wrap stay around opened => simp
      | leave => simp [readOn, readBare, collapse, Frame.element]

/-- Two places at which the next token does the same are the same. -/
theorem read_congr (h : ∀ t ∈ ts.head?, p.on t.kind = q.on t.kind) :
    readBare ⟨⟨k, p, es⟩, below⟩ ts = readBare ⟨⟨k, q, es⟩, below⟩ ts := by
  rw [read_eq_readBy, read_eq_readBy]
  cases ts with
  | nil => rfl
  | cons t ts => rw [readBy, readBy, h t rfl]

theorem readBy_take {stay : Place} {opened : List Opening} {kind : Option NodeKind}
    (ht : t.kind = κ) (h : move κ = .take stay opened kind) :
    readBy move k es below (t :: ts) =
      readBare ((openAll ⟨⟨k, stay, es⟩, below⟩ opened).append [leaf t kind]) ts := by
  rw [readBy, ht, h]

theorem read_shift (ht : t.kind = κ) (h : p.on κ = .shift q) :
    readBare ⟨⟨k, p, es⟩, below⟩ (t :: ts) = readBare ⟨⟨k, q, es ++ [.token t]⟩, below⟩ ts := by
  rw [read_eq_readBy, readBy_take ht h]
  rfl

theorem read_enter {o : Opening} (ht : t.kind = κ) (h : p.on κ = .enter q o) :
    readBare ⟨⟨k, p, es⟩, below⟩ (t :: ts) =
      readBare ⟨⟨o.1, o.2, [.token t]⟩, ⟨k, q, es⟩ :: below⟩ ts := by
  rw [read_eq_readBy, readBy_take ht h]
  rfl

theorem read_wrap {x : Element} {around : Opening} {opened : List Opening} (ht : t.kind = κ)
    (h : p.on κ = .wrap q around opened) :
    readBare ⟨⟨k, p, es ++ [x]⟩, below⟩ (t :: ts) =
      readBare ((openAll ⟨⟨around.1, around.2, [x]⟩, ⟨k, q, es⟩ :: below⟩ opened).append
        [.token t]) ts := by
  rw [read_eq_readBy, readBy, ht, h]
  simp

/-- A node ends at a token that leaves it, and at the end of the tokens. -/
theorem read_leave (h : ∀ t ∈ ts.head?, p.on t.kind = .leave) :
    readBare ⟨⟨k, p, es⟩, below⟩ ts = readOn (.node k es) below ts := by
  rw [read_eq_readBy]
  cases ts with
  | nil => rfl
  | cons t ts => rw [readBy, h t rfl]

theorem read_ended : readBare ⟨⟨k, .ended, es⟩, below⟩ ts = readOn (.node k es) below ts :=
  read_leave fun _ _ => rfl

@[simp] theorem readOn_cons (e : Element) (f : Frame) (ts : List Token) :
    readOn e (f :: below) ts = readBare ⟨f.append [e], below⟩ ts := rfl

end Stack

namespace Move

/-- The moves read an operand, after which the node goes on at a place. -/
def Expects (move : TokenKind → Move) (least : Nat) (after : Place) : Prop :=
  ∀ k m, operand? least after k = some m → move k = m

/-- Moves that try an operand first read operands. -/
theorem expects_getD (least : Nat) (after : Place) (other : TokenKind → Move) :
    Expects (fun k => (operand? least after k).getD (other k)) least after := by
  intro k m h
  simp [h]

theorem expects_letValue : Expects Place.letValue.on 1 .letEnd := expects_getD _ _ _

theorem expects_returnValue : Expects Place.returnValue.on 1 .returnEnd := expects_getD _ _ _

theorem expects_parenValue : Expects Place.parenValue.on 1 .parenEnd := expects_getD _ _ _

theorem expects_rightOperand (n : Nat) : Expects (Place.rightOperand n).on (n + 1) .ended :=
  expects_getD _ _ _

theorem expects_arguments : Expects Place.arguments.on 1 .arguments := by
  intro k m h
  cases k <;> simp_all [Place.on, expression?, operand?]

end Move

namespace Sentence

open Stack

/-- Whether a call can follow an operand: it can follow a name, and a call. -/
def Operand.callable : Operand → Bool
  | .named _ => true
  | _ => false

section Moves

variable {least : Nat} {c : Bool} {after : Place} {k : NodeKind} {es : List Element}
  {below : List Frame} {ts us : List Token} {p : Place}

def Operator.precedence (op : Operator) : Nat := if op.isTight then 2 else 1

theorem Operator.precedence?_eq (op : Operator) :
    op.val.kind.precedence? = some op.precedence ∧ op.val.kind ≠ .lparen := by
  obtain ⟨⟨k, text⟩, h⟩ := op
  simp only [List.mem_cons, List.not_mem_nil, or_false] at h
  rcases h with rfl | rfl | rfl | rfl <;> exact ⟨rfl, by simp⟩

/-- An operator that binds tightly enough takes the operand before it. -/
theorem Operator.on_operand (op : Operator) (h : least ≤ op.precedence) :
    (Place.operand least c after).on op.val.kind =
      .wrap (.operand least false after) (.binExpr, .rightOperand op.precedence) [] := by
  obtain ⟨hprecedence, hparen⟩ := op.precedence?_eq
  simp [Place.on, hprecedence, hparen, h]

/-- Any other operator is for the place after the operand. -/
theorem Operator.on_operand_of_lt (op : Operator) (h : op.precedence < least) :
    (Place.operand least c after).on op.val.kind = after.on op.val.kind := by
  obtain ⟨hprecedence, hparen⟩ := op.precedence?_eq
  simp [Place.on, hprecedence, hparen, Nat.not_le.mpr h]

/-- The tokens that can come after an expression. -/
def Closes (t : Token) : Prop := t.kind ∈ [.semi, .comma, .rparen]

theorem Leaf.closes {k : TokenKind} (t : Leaf [k]) (h : k ∈ [.semi, .comma, .rparen]) :
    Closes t.val := by
  rwa [Closes, t.kind_eq]

/-- So is a token that closes an expression. -/
theorem Closes.on_operand {t : Token} (h : Closes t) :
    (Place.operand least c after).on t.kind = after.on t.kind := by
  simp only [Closes, List.mem_cons, List.not_mem_nil, or_false] at h
  rcases h with h | h | h <;> simp [Place.on, h, TokenKind.precedence?]

theorem read_closing {t : Token} (ht : Closes t) :
    readBare ⟨⟨k, .operand least c after, es⟩, below⟩ (t :: ts) =
      readBare ⟨⟨k, after, es⟩, below⟩ (t :: ts) :=
  read_congr (by rintro u ⟨⟩; exact ht.on_operand)

def Unopened (ts : List Token) : Prop := ∀ t ∈ ts.head?, t.kind ≠ .lparen

theorem Others.tokens_more_append (op : Operator) (x : Operand) (o : Others) (ts : List Token) :
    (Others.more op x o).tokens ++ ts = op.val :: (x.tokens ++ (o.tokens ++ ts)) := by
  simp [Others.tokens]

theorem Others.unopened (o : Others) {t : Token} (ht : Closes t) (ts : List Token) :
    Unopened (o.tokens ++ t :: ts) := by
  cases o with
  | none =>
    rintro u ⟨⟩ hparen
    simp [Closes, hparen] at ht
  | more op x others =>
    rw [Others.tokens]
    rintro u ⟨⟩
    exact op.precedence?_eq.2

/-- After the right side of a tight operator the node of the operator ends. -/
theorem on_operand_three {k : TokenKind} (h : k ≠ .lparen) :
    (Place.operand 3 c .ended).on k = .leave := by
  cases k <;> simp_all [Place.on, TokenKind.precedence?]

/-- Wherever an operand is due, the tokens `us` are read as the operand `y`. -/
def ReadsAs (us : List Token) (y : Element) (callable : Bool) : Prop :=
  ∀ {move : TokenKind → Move} {least : Nat} {after : Place}, Move.Expects move least after →
    ∀ k es below ts, readBy move k es below (us ++ ts) =
      readBare ⟨⟨k, .operand least callable after, es ++ [y]⟩, below⟩ ts

variable {op : Operator} {x y : Element} {d : Bool} {move : TokenKind → Move}

theorem read_literal (hmove : Move.Expects move least after) (t : Leaf [.int, .str]) :
    readBy move k es below (t.val :: ts) =
      readBare ⟨⟨k, .operand least false after, es ++ [.node .literal [t.element]]⟩, below⟩ ts := by
  have hkind : t.val.kind = .int ∨ t.val.kind = .str := by simpa using t.property
  have htake : Move.operand? least after t.val.kind =
      some (.take (.operand least false after) [] (some .literal)) := by
    rcases hkind with h | h <;> rw [h] <;> rfl
  rw [readBy_take rfl (hmove _ _ htake)]
  rfl

theorem read_name (hmove : Move.Expects move least after) (t : Leaf [.ident]) :
    readBy move k es below (t.val :: ts) =
      readBare ⟨⟨k, .operand least true after, es ++ [.node .nameRef [t.element]]⟩, below⟩ ts := by
  rw [readBy_take t.kind_eq (hmove .ident _ rfl)]
  rfl

theorem read_paren (hmove : Move.Expects move least after) (left : Leaf [.lparen]) :
    readBy move k es below (left.val :: ts) =
      readBare ⟨⟨.parenExpr, .parenValue, [left.element]⟩,
        ⟨k, .operand least false after, es⟩ :: below⟩ ts := by
  rw [readBy_take left.kind_eq (hmove .lparen _ rfl)]
  rfl

theorem read_call (left : Leaf [.lparen]) :
    readBare ⟨⟨k, .operand least true after, es ++ [x]⟩, below⟩ (left.val :: ts) =
      readBare ⟨⟨.argList, .arguments, [left.element]⟩,
        ⟨.callExpr, .ended, [x]⟩ :: ⟨k, .operand least true after, es⟩ :: below⟩ ts := by
  rw [read_wrap left.kind_eq rfl]
  rfl

/-- The call ends with its arguments. -/
theorem read_called {fs : List Element} (right : Leaf [.rparen]) :
    readBare ⟨⟨.argList, .arguments, fs⟩, ⟨.callExpr, .ended, [x]⟩ :: ⟨k, p, es⟩ :: below⟩
        (right.val :: ts) =
      readBare ⟨⟨k, p, es ++ [.node .callExpr [x, .node .argList (fs ++ [right.element])]]⟩,
        below⟩ ts := by
  rw [read_shift right.kind_eq rfl, read_ended, readOn_cons, Frame.append, read_ended]
  rfl

/-- An operator takes the operand before it as its left side and the one after it as its right
side, which operators that bind more tightly may still take from it. -/
theorem read_operator (h : least ≤ op.precedence) (hy : ReadsAs us y d) :
    readBare ⟨⟨k, .operand least c after, es ++ [x]⟩, below⟩ (op.val :: (us ++ ts)) =
      readBare ⟨⟨.binExpr, .operand (op.precedence + 1) d .ended, [x, op.element, y]⟩,
        ⟨k, .operand least false after, es⟩ :: below⟩ ts := by
  have hright := hy (Move.expects_rightOperand op.precedence) .binExpr [x, op.element]
    (⟨k, .operand least false after, es⟩ :: below) ts
  rw [read_wrap rfl (op.on_operand h)]
  rw [← read_eq_readBy] at hright
  exact hright

/-- No operator takes the right side of a tight operator from it. -/
theorem read_factor (htight : op.isTight = true) (hleast : least ≤ 2) (hy : ReadsAs us y d)
    (hts : Unopened ts) :
    readBare ⟨⟨k, .operand least c after, es ++ [x]⟩, below⟩ (op.val :: (us ++ ts)) =
      readBare ⟨⟨k, .operand least false after, es ++ [Chain.join x op y]⟩, below⟩ ts := by
  have hprecedence : op.precedence = 2 := by simp [Operator.precedence, htight]
  rw [read_operator (hprecedence ▸ hleast) hy, hprecedence,
    read_leave fun t ht => on_operand_three (hts t ht)]
  rfl

/-- A weak operator takes any operand before it; a tight one may still take its right side. -/
theorem read_weak (hweak : ¬op.isTight = true) (hy : ReadsAs us y d) :
    readBare ⟨⟨k, .operand 1 c after, es ++ [x]⟩, below⟩ (op.val :: (us ++ ts)) =
      readBare ⟨⟨.binExpr, .operand 2 d .ended, [x, op.element] ++ [y]⟩,
        ⟨k, .operand 1 false after, es⟩ :: below⟩ ts := by
  have hprecedence : op.precedence = 1 := by simp [Operator.precedence, hweak]
  rw [read_operator (Nat.le_of_eq hprecedence.symm) hy, hprecedence]
  rfl

theorem on_operand_two (hweak : ¬op.isTight = true) :
    (Place.operand 2 c .ended).on op.val.kind = .leave :=
  op.on_operand_of_lt (by simp [Operator.precedence, hweak])

/-- The right side of a weak operator ends at a token that no tight operator is. -/
theorem read_term (h : ∀ t ∈ ts.head?, (Place.operand 2 d .ended).on t.kind = .leave) :
    readBare ⟨⟨.binExpr, .operand 2 d .ended, [x, op.element] ++ [y]⟩, ⟨k, p, es⟩ :: below⟩ ts =
      readBare ⟨⟨k, p, es ++ [Chain.join x op y]⟩, below⟩ ts := by
  rw [read_leave h]
  rfl

end Moves

mutual

theorem Expr.read_tokens {move : TokenKind → Move} {after : Place} (e : Expr)
    (hmove : Move.Expects move 1 after) (k : NodeKind) (es : List Element) (below : List Frame)
    {t : Token} (ht : Closes t) (ts : List Token) :
    readBy move k es below (e.tokens ++ t :: ts) =
      readBare ⟨⟨k, after, es ++ [e.tree]⟩, below⟩ (t :: ts) := by
  cases e with
  | chain first others =>
    rw [Expr.tokens, List.append_assoc, first.readsAs hmove, others.read_tokens _ _ _ _ _ ht,
      Expr.tree]

/-- Operands after the first, or after a sum that any operator may still take. -/
theorem Others.read_tokens {after : Place} (o : Others) (x : Element) (c : Bool) (k : NodeKind)
    (es : List Element) (below : List Frame) {t : Token} (ht : Closes t) (ts : List Token) :
    readBare ⟨⟨k, .operand 1 c after, es ++ [x]⟩, below⟩ (o.tokens ++ t :: ts) =
      readBare ⟨⟨k, after, es ++ [Chain.nest x o.operands]⟩, below⟩ (t :: ts) := by
  cases o with
  | none => exact read_closing ht
  | more op y others =>
    rw [Others.tokens_more_append, Others.operands, Chain.nest, Chain.products]
    split
    next htight =>
      rw [read_factor htight (by decide) y.readsAs (others.unopened ht ts)]
      exact others.read_tokens _ _ _ _ _ ht ts
    next hweak =>
      rw [read_weak hweak y.readsAs]
      exact others.read_summand _ _ _ _ _ _ _ ht ts

/-- Operands after the right side of a weak operator, which only a tight one may still take. -/
theorem Others.read_summand {after : Place} (o : Others) (x : Element) (op : Operator)
    (y : Element) (c : Bool) (k : NodeKind) (es : List Element) (below : List Frame) {t : Token}
    (ht : Closes t) (ts : List Token) :
    readBare ⟨⟨.binExpr, .operand 2 c .ended, [x, op.element] ++ [y]⟩,
        ⟨k, .operand 1 false after, es⟩ :: below⟩ (o.tokens ++ t :: ts) =
      readBare ⟨⟨k, after, es ++ [Chain.sum (Chain.join x op (Chain.products y o.operands).1)
        (Chain.products y o.operands).2]⟩, below⟩ (t :: ts) := by
  cases o with
  | none =>
    rw [Others.tokens, List.nil_append, read_term (by rintro u ⟨⟩; exact ht.on_operand)]
    exact read_closing ht
  | more op' z others =>
    rw [Others.tokens_more_append, Others.operands, Chain.products]
    split
    next htight =>
      rw [read_factor htight (Nat.le_refl 2) z.readsAs (others.unopened ht ts)]
      exact others.read_summand _ _ _ _ _ _ _ ht ts
    next hweak =>
      -- the weak operator before has its right side, and this one takes both
      rw [read_term (by rintro u ⟨⟩; exact on_operand_two hweak), read_weak hweak z.readsAs]
      exact others.read_summand _ _ _ _ _ _ _ ht ts

theorem Operand.readsAs (x : Operand) : ReadsAs x.tokens x.tree x.callable := by
  intro move least after hmove k es below ts
  cases x with
  | literal t =>
    rw [Operand.tokens, Operand.tree, List.singleton_append]
    exact read_literal hmove t
  | named callee => rw [Operand.tokens, Operand.tree, callee.readsAs hmove, Operand.callable]
  | paren left value right =>
    rw [Operand.tokens, Operand.tree, List.cons_append, List.append_assoc, List.singleton_append,
      read_paren hmove left, read_eq_readBy,
      value.read_tokens Move.expects_parenValue _ _ _ (right.closes (by decide)),
      read_shift (p := .parenEnd) right.kind_eq rfl, read_ended]
    rfl

theorem Callee.readsAs (c : Callee) : ReadsAs c.tokens c.tree true := by
  intro move least after hmove k es below ts
  cases c with
  | name t =>
    rw [Callee.tokens, Callee.tree, List.singleton_append]
    exact read_name hmove t
  | call callee arguments =>
    rw [Callee.tokens, Callee.tree, List.append_assoc, callee.readsAs hmove,
      arguments.read_tokens]

theorem Arguments.read_tokens {least : Nat} {after : Place} (a : Arguments) (k : NodeKind)
    (es : List Element) (x : Element) (below : List Frame) (ts : List Token) :
    readBare ⟨⟨k, .operand least true after, es ++ [x]⟩, below⟩ (a.tokens ++ ts) =
      readBare ⟨⟨k, .operand least true after, es ++ [.node .callExpr [x, a.tree]]⟩, below⟩ ts := by
  cases a with
  | none left right =>
    rw [Arguments.tokens, Arguments.tree, List.cons_append, List.singleton_append, read_call left,
      read_called right]
    rfl
  | some left values right =>
    rw [Arguments.tokens, Arguments.tree, List.cons_append, List.append_assoc,
      List.singleton_append, read_call left,
      values.read_tokens _ _ (right.closes (by decide)), read_called right]
    rfl

theorem Values.read_tokens (vs : Values) (es : List Element) (below : List Frame) {t : Token}
    (ht : Closes t) (ts : List Token) :
    readBare ⟨⟨.argList, .arguments, es⟩, below⟩ (vs.tokens ++ t :: ts) =
      readBare ⟨⟨.argList, .arguments, es ++ vs.elements⟩, below⟩ (t :: ts) := by
  cases vs with
  | one value =>
    rw [Values.tokens, Values.elements, read_eq_readBy,
      value.read_tokens Move.expects_arguments _ _ _ ht]
  | more values comma value =>
    rw [Values.tokens, Values.elements, List.append_assoc, List.cons_append,
      values.read_tokens _ _ (comma.closes (by decide)),
      read_shift (p := .arguments) comma.kind_eq rfl, read_eq_readBy,
      value.read_tokens Move.expects_arguments _ _ _ ht]
    simp [Leaf.element]

end

end Sentence

end IncrementalSyntax
