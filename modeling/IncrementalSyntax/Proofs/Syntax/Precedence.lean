import IncrementalSyntax.Proofs.Syntax.Shape

/-!
Operators nest by precedence. In a binary expression the right operand binds more tightly than the
expression itself, and the left one at least as tightly, unless it lacks its right operand: an
operator that finds nothing to its right is followed by any other one. The reader takes an operand
away from a node only for an operator that the place of the node allows, so a right operand is never
taken for an operator as loose as the one before it (`Frame.Takes`). A left operand that is complete
has ended because the operator is not tighter than its own (`nested_feed`).
-/
namespace IncrementalSyntax

namespace Element

def significant (es : List Element) : List Element := es.filter fun e => !e.kind.isTrivia

@[simp] theorem significant_append (es fs : List Element) :
    significant (es ++ fs) = significant es ++ significant fs := List.filter_append ..

theorem significant_singleton {e : Element} (h : e.kind.isTrivia = false) :
    significant [e] = [e] := by
  simp [significant, h]

theorem significant_map_token {ts : List Token} (h : Token.allTrivia ts = true) :
    significant (ts.map token) = [] := by
  simpa [significant, kind, SyntaxKind.isTrivia, Token.allTrivia] using h

/-- How tightly a binary expression binds: as its operator does, which follows its left operand. -/
def precedence? : Element → Option Nat
  | .node .binExpr children =>
    match significant children with
    | _ :: .token op :: _ => op.kind.precedence?
    | _ => none
  | _ => none

def hasRight : Element → Bool
  | .node .binExpr children => 2 < (significant children).length
  | _ => false

/-- An operand may stand on the left of an operator: it binds at least as tightly, or it lacks its
right operand. -/
def FitsLeft (p : Nat) (left : Element) : Prop :=
  ∀ q, left.precedence? = some q → left.hasRight = true → p ≤ q

/-- The children of a binary expression: two operands that its operator may stand between, of which
the right one may be missing. -/
def Nests (children : List Element) : Prop :=
  ∃ left op right p, significant children = left :: .token op :: Option.toList right ∧
    op.kind.precedence? = some p ∧ left.FitsLeft p ∧
    ∀ r ∈ right, ∀ q, r.precedence? = some q → p < q

def NestedAll (es : List Element) : Prop := ∀ n ∈ nodesOf es, n.1 = .binExpr → Nests n.2

theorem nestedAll_nil : NestedAll [] := by simp [NestedAll]

theorem NestedAll.append {es fs : List Element} (h : NestedAll es) (h' : NestedAll fs) :
    NestedAll (es ++ fs) := by
  intro n hn
  rw [nodesOf_append, List.mem_append] at hn
  exact hn.elim (h n) (h' n)

theorem nestedAll_map_token (ts : List Token) : NestedAll (ts.map token) := by
  simp [NestedAll]

theorem NestedAll.node {k : NodeKind} {es : List Element} (h : NestedAll es)
    (hroot : k = .binExpr → Nests es) : NestedAll [.node k es] := by
  intro n hn
  rw [nodesOf_cons, nodesOf_nil, List.append_nil, nodes_node, List.mem_cons] at hn
  rcases hn with rfl | hn
  · exact hroot
  · exact h n hn

theorem precedence?_of_ne {k : NodeKind} (h : k ≠ .binExpr) (es : List Element) :
    (node k es).precedence? = none := by
  cases k <;> first | rfl | exact absurd rfl h

/-- Trivia does not count. -/
theorem precedence?_congr {es fs : List Element} (h : significant es = significant fs)
    (k : NodeKind) : (node k es).precedence? = (node k fs).precedence? := by
  by_cases hk : k = .binExpr
  · subst hk
    rw [precedence?, precedence?, h]
  · rw [precedence?_of_ne hk, precedence?_of_ne hk]

theorem precedence?_of_operator {es rest : List Element} {left : Element} {op : Token}
    (h : significant es = left :: .token op :: rest) :
    (node .binExpr es).precedence? = op.kind.precedence? := by
  rw [precedence?, h]

theorem Nests.exists_precedence? {es : List Element} (h : Nests es) :
    ∃ p, (node .binExpr es).precedence? = some p := by
  obtain ⟨left, op, right, p, hchildren, hop, -⟩ := h
  exact ⟨p, (precedence?_of_operator hchildren).trans hop⟩

theorem mem_nodesOf_of_mem {n : NodeKind × List Element} {e : Element} {es : List Element}
    (hn : n ∈ e.nodes) (he : e ∈ es) : n ∈ nodesOf es := by
  induction es with
  | nil => simp at he
  | cons f es ih =>
    rw [nodesOf_cons, List.mem_append]
    rcases List.mem_cons.mp he with rfl | he
    · exact .inl hn
    · exact .inr (ih he)

mutual

theorem nodesOf_subset_nodes {n : NodeKind × List Element} (e : Element) (hn : n ∈ e.nodes) :
    nodesOf n.2 ⊆ e.nodes := by
  cases e with
  | token t => simp at hn
  | node k es =>
    rw [nodes_node, List.mem_cons] at hn
    rw [nodes_node]
    rcases hn with rfl | hn
    · exact List.subset_cons_self _ _
    · exact List.subset_cons_of_subset _ (nodesOf_subset_nodesOf es hn)

theorem nodesOf_subset_nodesOf {n : NodeKind × List Element} (es : List Element)
    (hn : n ∈ nodesOf es) : nodesOf n.2 ⊆ nodesOf es := by
  cases es with
  | nil => simp at hn
  | cons e es =>
    rw [nodesOf_cons, List.mem_append] at hn
    rw [nodesOf_cons]
    rcases hn with hn | hn
    · exact List.subset_append_of_subset_left _ (nodesOf_subset_nodes e hn)
    · exact List.subset_append_of_subset_right _ (nodesOf_subset_nodesOf es hn)

end

end Element

open Element

namespace Move

/-- A move opens no binary expression, apart from an operator that takes the last child for its
left operand. -/
def Plain (k : TokenKind) : Move → Prop
  | take _ opened leaf => (∀ o ∈ opened, o.1 ≠ .binExpr) ∧ leaf ≠ some .binExpr
  | wrap _ around opened =>
    match k.precedence? with
    | some q => around = (.binExpr, .rightOperand q) ∧ opened = []
    | none => around.1 ≠ .binExpr ∧ ∀ o ∈ opened, o.1 ≠ .binExpr
  | leave => True

theorem item_plain (stay : Place) (k : TokenKind) : (item stay k).Plain k := by
  cases k <;> exact ⟨by decide, by decide⟩

end Move

namespace Place

theorem on_plain (p : Place) (k : TokenKind) : (p.on k).Plain k := by
  induction p with
  | operand least callable after ih =>
    rw [on]
    split
    next hcall =>
      obtain ⟨-, rfl⟩ : callable = true ∧ k = .lparen := by simpa using hcall
      exact ⟨by decide, by decide⟩
    next =>
      split
      next q hq =>
        split
        next => simp [Move.Plain, hq]
        next => exact ih
      next => exact ih
  | _ => cases k <;> trivial

/-- Behind an operator only an operand is taken, up to the next operator that binds no more
tightly. -/
theorem on_rightOperand (p : Nat) (k : TokenKind) :
    (∃ c opened leaf, (rightOperand p).on k = .take (.operand (p + 1) c .ended) opened leaf) ∨
      (rightOperand p).on k = .leave := by
  cases k <;> first | exact .inr rfl | exact .inl ⟨_, _, _, rfl⟩

/-- Behind a right operand only what binds more tightly takes it away; anything else ends the
expression. -/
theorem on_operand_ended (p : Nat) (c : Bool) (k : TokenKind) :
    (∃ c' around opened,
      (operand (p + 1) c ended).on k = .wrap (.operand (p + 1) c' ended) around opened ∧
        ∀ q, k.precedence? = some q → p < q) ∨
      (operand (p + 1) c ended).on k = .leave ∧ ∀ q, k.precedence? = some q → q ≤ p := by
  rw [on]
  split
  next hcall =>
    obtain ⟨-, rfl⟩ : c = true ∧ k = .lparen := by simpa using hcall
    exact .inl ⟨_, _, _, rfl, by simp [TokenKind.precedence?]⟩
  next =>
    split
    next q hq =>
      split
      next hle => exact .inl ⟨_, _, _, rfl, by simp [hq]; omega⟩
      next hlt => exact .inr ⟨rfl, by simp [hq]; omega⟩
    next hnone => exact .inr ⟨rfl, by simp [hnone]⟩

end Place

namespace Frame

/-- A binary expression that has its left operand and its operator, of precedence `p`. -/
def Operating (f : Frame) (p : Nat) : Prop :=
  ∃ left op, significant f.children = [left, .token op] ∧ op.kind.precedence? = some p ∧
    left.FitsLeft p

/-- A child that binds as tightly as `q?` says may be the next one: it is not in a binary
expression, or it is the right operand there and binds more tightly. -/
def Takes (f : Frame) (q? : Option Nat) : Prop :=
  f.kind = .binExpr → ∃ p c, f.Operating p ∧ f.place = .operand (p + 1) c .ended ∧
    ∀ q, q? = some q → p < q

/-- The next child is the operator of a binary expression. -/
def TakesOperator (f : Frame) (e : Element) : Prop :=
  f.kind = .binExpr ∧ ∃ left op p, significant f.children = [left] ∧ e = .token op ∧
    op.kind.precedence? = some p ∧ left.FitsLeft p ∧ f.place = .rightOperand p

variable {f : Frame} {e : Element}

theorem Takes.precedence?_append {q? : Option Nat} (h : f.Takes q?) (es : List Element) :
    (f.append es).element.precedence? = f.element.precedence? := by
  by_cases hk : f.kind = .binExpr
  · obtain ⟨p, c, ⟨left, op, hchildren, -⟩, -⟩ := h hk
    have hmore : significant (f.append es).children = left :: .token op :: significant es := by
      simp [hchildren]
    rw [element, element, append_kind, hk, precedence?_of_operator hmore,
      precedence?_of_operator hchildren]
  · rw [element, element, append_kind, precedence?_of_ne hk, precedence?_of_ne hk]

end Frame

namespace Stack

/-- Open nodes, from the inside out, of which the first may take a child that binds as tightly as
`q?` says, and each other one the node inside it. -/
def AwaitNested (q? : Option Nat) : List Frame → Prop
  | [] => True
  | f :: below => NestedAll f.children ∧ f.Takes q? ∧ AwaitNested f.element.precedence? below

/-- The innermost node `f` has a last child `e`, as its operator or as what it may take. -/
structure Holds (f : Frame) (e : Element) (below : List Frame) : Prop where
  child : NestedAll [e]
  significant : e.kind.isTrivia = false
  children : NestedAll f.children
  takes : f.TakesOperator e ∨ f.Takes e.precedence?
  below : AwaitNested (f.append [e]).element.precedence? below

variable {f : Frame} {e : Element} {below : List Frame}

/-- A node ends with its binary expressions nested. -/
theorem Holds.element (h : Holds f e below) : NestedAll [(f.append [e]).element] := by
  refine NestedAll.node (h.children.append h.child) fun hk => ?_
  rcases h.takes with ⟨-, left, op, p, hleft, rfl, hop, hfits, -⟩ | htakes
  · refine ⟨left, op, none, p, ?_, hop, hfits, by simp⟩
    rw [Frame.append_children, significant_append, hleft, significant_singleton h.significant]
    rfl
  · obtain ⟨p, c, ⟨left, op, hchildren, hop, hfits⟩, -, hright⟩ := htakes hk
    refine ⟨left, op, some e, p, ?_, hop, hfits, by simpa using hright⟩
    rw [Frame.append_children, significant_append, hchildren, significant_singleton h.significant]
    rfl

variable {k : TokenKind} {stay : Place} {opened : List Opening}

/-- A node that takes a token may take anything that is no binary expression next. -/
theorem Holds.takes_of_take (h : Holds f e below) {leaf : Option NodeKind}
    (hon : f.place.on k = .take stay opened leaf) {gap : List Token}
    (hgap : Token.allTrivia gap = true) :
    Frame.Takes ⟨f.kind, stay, f.children ++ [e] ++ gap.map .token⟩ none := by
  intro hk
  rcases h.takes with ⟨-, left, op, p, hchildren, he, hop, hfits, hplace⟩ | htakes
  · rw [hplace] at hon
    rcases Place.on_rightOperand p k with ⟨c, opened', leaf', hon'⟩ | hon'
    · obtain ⟨rfl, -⟩ := Move.take.inj (hon'.symm.trans hon)
      refine ⟨p, c, ⟨left, op, ?_, hop, hfits⟩, rfl, by simp⟩
      rw [significant_append, significant_append, hchildren, significant_singleton h.significant,
        significant_map_token hgap, he]
      rfl
    · cases hon'.symm.trans hon
  · obtain ⟨p, c, -, hplace, -⟩ := htakes hk
    rw [hplace] at hon
    rcases Place.on_operand_ended p c k with ⟨c', around, opened', hon', -⟩ | ⟨hon', -⟩
    · cases hon'.symm.trans hon
    · cases hon'.symm.trans hon

/-- A node whose last child is taken away by an operator may take what the operator makes of it. -/
theorem Holds.takes_of_wrap (h : Holds f e below) {around : Opening}
    (hon : f.place.on k = .wrap stay around opened) :
    f.Takes e.precedence? ∧ Frame.Takes ⟨f.kind, stay, f.children⟩ k.precedence? := by
  rcases h.takes with ⟨-, left, op, p, -, -, -, -, hplace⟩ | htakes
  · rw [hplace] at hon
    rcases Place.on_rightOperand p k with ⟨c, opened', leaf', hon'⟩ | hon'
    · cases hon'.symm.trans hon
    · cases hon'.symm.trans hon
  · refine ⟨htakes, fun hk => ?_⟩
    obtain ⟨p, c, hoperating, hplace, -⟩ := htakes hk
    rw [hplace] at hon
    rcases Place.on_operand_ended p c k with ⟨c', around', opened', hon', hlt⟩ | ⟨hon', -⟩
    · obtain ⟨rfl, -⟩ := Move.wrap.inj (hon'.symm.trans hon)
      exact ⟨p, c', hoperating, rfl, hlt⟩
    · cases hon'.symm.trans hon

/-- A node that an operator ends may stand on the left of that operator. -/
theorem Holds.fitsLeft_of_leave (h : Holds f e below) (hon : f.place.on k = .leave) {q : Nat}
    (hq : k.precedence? = some q) : (f.append [e]).element.FitsLeft q := by
  intro r hr hright
  by_cases hk : f.kind = .binExpr
  · rcases h.takes with ⟨-, left, op, p, hchildren, -⟩ | htakes
    · simp [Frame.element, hk, hasRight, hchildren, significant_singleton h.significant] at hright
    · obtain ⟨p, c, ⟨left, op, hchildren, hop, -⟩, hplace, -⟩ := htakes hk
      rw [htakes.precedence?_append, Frame.element, hk, precedence?_of_operator hchildren, hop,
        Option.some.injEq] at hr
      rw [hplace] at hon
      rcases Place.on_operand_ended p c k with ⟨c', around', opened', hon', -⟩ | ⟨-, hle⟩
      · cases hon'.symm.trans hon
      · exact hr ▸ hle q hq
  · rw [Frame.element, Frame.append_kind, precedence?_of_ne hk] at hr
    cases hr

/-- Between two tokens the last child of the innermost node is no binary expression. -/
def Nested (s : Stack) : Prop :=
  ∃ f e, s.top = f.append [e] ∧ Holds f e s.below ∧ e.precedence? = none

/-- Nodes other than binary expressions may be opened, and a child put into the last of them. -/
theorem nested_openAll {opened : List Opening} (hopened : ∀ o ∈ opened, o.1 ≠ .binExpr)
    (hchildren : NestedAll f.children) (htakes : f.Takes none)
    (hbelow : AwaitNested f.element.precedence? below) (he : NestedAll [e])
    (hsignificant : e.kind.isTrivia = false) (hnone : e.precedence? = none) :
    ((openAll ⟨f, below⟩ opened).append [e]).Nested := by
  induction opened generalizing f below with
  | nil =>
    rw [← htakes.precedence?_append [e]] at hbelow
    exact ⟨f, e, rfl, ⟨he, hsignificant, hchildren, .inr (hnone ▸ htakes), hbelow⟩, hnone⟩
  | cons o os ih =>
    have ho := hopened o (List.mem_cons_self ..)
    refine ih (fun o' ho' => hopened o' (List.mem_cons_of_mem _ ho')) nestedAll_nil
      (fun hk => absurd hk ho) ?_
    rw [Frame.element, Frame.start, precedence?_of_ne ho]
    exact ⟨hchildren, htakes, hbelow⟩

theorem nestedAll_leaf {t : Token} {kind : Option NodeKind} (h : kind ≠ some .binExpr) :
    NestedAll [leaf t kind] ∧ (leaf t kind).precedence? = none := by
  cases kind with
  | none => exact ⟨nestedAll_map_token [t], rfl⟩
  | some k =>
    have hk : k ≠ .binExpr := fun hk => h (congrArg some hk)
    exact ⟨(nestedAll_map_token [t]).node fun hk' => absurd hk' hk, precedence?_of_ne hk _⟩

theorem isTrivia_leaf {t : Token} (h : t.kind.isTrivia = false) (kind : Option NodeKind) :
    (leaf t kind).kind.isTrivia = false := by
  cases kind with
  | none => exact h
  | some k => rfl

variable {gap : List Token} {t : Token} {s : Stack}

theorem nested_take (hgap : Token.allTrivia gap = true) (ht : t.kind.isTrivia = false)
    (h : Holds f e below) {kind : Option NodeKind}
    (hon : f.place.on t.kind = .take stay opened kind) :
    ((openAll ⟨⟨f.kind, stay, f.children ++ [e] ++ gap.map .token⟩, below⟩ opened).append
      [leaf t kind]).Nested := by
  obtain ⟨hopened, hkind⟩ : (Move.take stay opened kind).Plain t.kind :=
    hon ▸ Place.on_plain f.place t.kind
  obtain ⟨hleaf, hnone⟩ := nestedAll_leaf (t := t) hkind
  have hsame : significant (f.children ++ [e] ++ gap.map .token) =
      significant (f.children ++ [e]) := by
    rw [significant_append, significant_map_token hgap, List.append_nil]
  refine nested_openAll hopened ((h.children.append h.child).append (nestedAll_map_token gap))
    (h.takes_of_take hon hgap) ?_ hleaf (isTrivia_leaf ht kind) hnone
  rw [Frame.element, precedence?_congr hsame]
  exact h.below

/-- The last child of the innermost node is what a token calls, or the left operand of the token. -/
theorem nested_wrap (hgap : Token.allTrivia gap = true) (ht : t.kind.isTrivia = false)
    (h : Holds f e below) (hleft : ∀ q, t.kind.precedence? = some q → e.FitsLeft q)
    {around : Opening} (hon : f.place.on t.kind = .wrap stay around opened) :
    ((openAll ⟨⟨around.1, around.2, [e] ++ gap.map .token⟩, ⟨f.kind, stay, f.children⟩ :: below⟩
      opened).append [.token t]).Nested := by
  have hplain : (Move.wrap stay around opened).Plain t.kind := hon ▸ Place.on_plain f.place t.kind
  obtain ⟨htakes, hstay⟩ := h.takes_of_wrap hon
  have hbelow := h.below
  rw [htakes.precedence?_append] at hbelow
  have htoken : NestedAll [token t] := nestedAll_map_token [t]
  have hchildren : NestedAll ([e] ++ gap.map token) := h.child.append (nestedAll_map_token gap)
  cases hq : t.kind.precedence? with
  | none =>
    simp only [Move.Plain, hq] at hplain
    obtain ⟨haround, hopened⟩ := hplain
    refine nested_openAll hopened hchildren (fun hk => absurd hk haround) ?_ htoken ht rfl
    rw [Frame.element, precedence?_of_ne haround, ← hq]
    exact ⟨h.children, hstay, hbelow⟩
  | some q =>
    simp only [Move.Plain, hq] at hplain
    obtain ⟨rfl, rfl⟩ := hplain
    have hleftOnly : significant ([e] ++ gap.map token) = [e] := by
      rw [significant_append, significant_map_token hgap, significant_singleton h.significant,
        List.append_nil]
    have hoperator : significant ([e] ++ gap.map token ++ [token t]) = [e, token t] := by
      rw [significant_append, hleftOnly, significant_singleton (e := token t) ht]
      rfl
    have hawait : AwaitNested (node .binExpr ([e] ++ gap.map token ++ [token t])).precedence?
        (⟨f.kind, stay, f.children⟩ :: below) := by
      rw [precedence?_of_operator hoperator]
      exact ⟨h.children, hstay, hbelow⟩
    exact ⟨⟨.binExpr, .rightOperand q, [e] ++ gap.map token⟩, token t, rfl, ⟨htoken, ht, hchildren,
      .inl ⟨rfl, e, t, q, hleftOnly, rfl, hq, hleft q hq, rfl⟩, hawait⟩, rfl⟩

/-- The innermost node takes a token. What it holds may stand on the left of the token, if that is
an operator. -/
theorem nested_accept (hgap : Token.allTrivia gap = true) (ht : t.kind.isTrivia = false)
    (h : Holds f e below) (hleft : ∀ q, t.kind.precedence? = some q → e.FitsLeft q)
    (haccept : accept gap t (f.append [e]) below = some s) : s.Nested := by
  rw [accept, Frame.append_place] at haccept
  split at haccept
  next stay opened kind hon =>
    obtain rfl := Option.some.inj haccept
    exact nested_take hgap ht h hon
  next stay around opened hon =>
    obtain rfl := Option.some.inj haccept
    simpa using nested_wrap hgap ht h hleft hon
  next => simp at haccept

theorem on_eq_leave_of_accept {top : Frame}
    (h : accept gap t top below = none) : top.place.on t.kind = .leave := by
  rw [accept] at h
  split at h
  next => simp at h
  next => simp at h
  next hon => exact hon

/-- The step lemma: a token keeps binary expressions nested. An expression that the token ends may
stand on its left if it is an operator. -/
theorem nested_feed (hgap : Token.allTrivia gap = true) (ht : t.kind.isTrivia = false)
    (h : Holds f e below) (hleft : ∀ q, t.kind.precedence? = some q → e.FitsLeft q)
    (hfeed : feed gap t (f.append [e]) below = some s) : s.Nested := by
  induction below generalizing f e with
  | nil => exact nested_accept hgap ht h hleft hfeed
  | cons g below ih =>
    rw [feed] at hfeed
    split at hfeed
    next s' haccept =>
      obtain rfl := Option.some.inj hfeed
      exact nested_accept hgap ht h hleft haccept
    next hnone =>
      obtain ⟨hchildren, htakes, hbelow⟩ := h.below
      have hon := on_eq_leave_of_accept hnone
      refine ih ⟨h.element, rfl, hchildren, .inr htakes, ?_⟩
        (fun q => h.fitsLeft_of_leave hon) hfeed
      rwa [htakes.precedence?_append]

/-- When all open nodes end, the binary expressions in the outermost are nested. -/
theorem nested_collapse (h : Holds f e below) :
    NestedAll [(collapse (f.append [e]) below).element] := by
  induction below generalizing f e with
  | nil => exact h.element
  | cons g below ih =>
    obtain ⟨hchildren, htakes, hbelow⟩ := h.below
    refine ih ⟨h.element, rfl, hchildren, .inr htakes, ?_⟩
    rwa [htakes.precedence?_append]

end Stack

namespace Reading

theorem nested_ofStack {s : Stack} (h : s.Nested) (rest : List Token) (peeked : Bool) :
    NestedAll [(ofStack s rest peeked).element] := by
  obtain ⟨f, e, htop, hholds, -⟩ := h
  have := Stack.nested_collapse hholds
  rwa [← htop] at this

theorem nested_run {s : Stack} {gap ts : List Token} (hs : s.Nested)
    (hgap : Token.allTrivia gap = true) : NestedAll [(run s gap ts).element] := by
  induction ts generalizing s gap with
  | nil => exact nested_ofStack hs _ _
  | cons t ts ih =>
    rw [run]
    split
    next ht => exact ih hs (by simp [hgap, ht])
    next ht =>
      split
      next => exact nested_ofStack hs _ _
      next s' hfeed =>
        have hs' : s'.Nested := by
          obtain ⟨f, e, htop, hholds, hnone⟩ := hs
          rw [htop] at hfeed
          refine Stack.nested_feed hgap (by simpa using ht) hholds ?_ hfeed
          intro q _ r hr
          simp [hnone] at hr
        split
        next => exact nested_ofStack hs' _ _
        next => exact ih hs' rfl

theorem nested_first {t : Token} (ht : t.kind.isTrivia = false) : (first t).Nested := by
  have hplain := Move.item_plain .ended t.kind
  rw [first]
  split
  next stay o os kind hitem =>
    rw [hitem] at hplain
    obtain ⟨hopened, hkind⟩ := hplain
    obtain ⟨hleaf, hnone⟩ := Stack.nestedAll_leaf (t := t) hkind
    have ho := hopened o (List.mem_cons_self ..)
    exact Stack.nested_openAll (fun o' ho' => hopened o' (List.mem_cons_of_mem _ ho')) nestedAll_nil
      (fun hk => absurd hk ho) trivial hleaf (Stack.isTrivia_leaf ht kind) hnone
  next =>
    refine ⟨.start (.error, .ended), .token t, rfl, ⟨nestedAll_map_token [t], ht, nestedAll_nil,
      .inr fun hk => ?_, trivial⟩, rfl⟩
    cases hk

theorem nested_ofTokens {t : Token} (ht : t.kind.isTrivia = false) (ts : List Token) :
    NestedAll [(ofTokens t ts).element] := by
  rw [ofTokens]
  split
  next => exact nested_ofStack (nested_first ht) _ _
  next => exact nested_run (nested_first ht) rfl

end Reading

/-- The binary expressions of everything that the reader takes out of tokens are nested. -/
theorem Part.nested_readParts_none (start : Nat) (ts : List Token) :
    NestedAll (((readParts .none start ts).map Prod.fst).map Part.element) := by
  induction start, ts using readParts.induct .none with
  | case1 start => simpa [readParts] using nestedAll_nil
  | case2 start t ts htrivia ih =>
    rw [readParts, if_pos htrivia, List.map_cons, List.map_cons]
    exact (nestedAll_map_token [t]).append ih
  | case3 start t ts htrivia old hold ih => simp at hold
  | case4 start t ts htrivia hold reading ih =>
    rw [readParts, if_neg htrivia, hold, List.map_cons, List.map_cons]
    exact (Reading.nested_ofTokens (by simpa using htrivia) ts).append ih

theorem parse_nests {text : Text} {children : List Element}
    (h : (.binExpr, children) ∈ (parse text).root.nodes) : Nests children := by
  have hparts := Part.nested_readParts_none 0 (tokenize text)
  have hroot : NestedAll [(parse text).root] := hparts.node fun hk => by cases hk
  exact hroot (.binExpr, children) (by simpa using h) rfl

/-- Operators nest by precedence, and to the left among equals. A binary expression anywhere in the
tree of a text is a left operand, an operator and, unless it is missing, a right operand. If that
one is a binary expression it binds more tightly; if the left one is, it binds at least as tightly
or lacks its own right operand. -/
theorem parse_nests_operators (text : Text) (children : List Element)
    (h : (.binExpr, children) ∈ (parse text).root.nodes) :
    ∃ left op right p, significant children = left :: .token op :: Option.toList right ∧
      op.kind.precedence? = some p ∧
      (∀ r ∈ right, r.kind = .node .binExpr → ∃ q, r.precedence? = some q ∧ p < q) ∧
      (left.kind = .node .binExpr →
        ∃ q, left.precedence? = some q ∧ (p ≤ q ∨ left.hasRight = false)) := by
  obtain ⟨left, op, right, p, hchildren, hop, hleft, hright⟩ := parse_nests h
  have hoperand (e : Element) (he : e ∈ significant children) (hkind : e.kind = .node .binExpr) :
      ∃ q, e.precedence? = some q := by
    cases e with
    | token t => simp [kind] at hkind
    | node k es =>
      obtain rfl : k = .binExpr := by simpa [kind] using hkind
      have hmem : (.binExpr, es) ∈ nodesOf children :=
        mem_nodesOf_of_mem (by simp) (List.mem_filter.mp he).1
      exact (parse_nests (nodesOf_subset_nodes _ h hmem)).exists_precedence?
  refine ⟨left, op, right, p, hchildren, hop, ?_, ?_⟩
  · intro r hr hkind
    obtain ⟨q, hq⟩ := hoperand r (by simp [hchildren, Option.mem_def.mp hr]) hkind
    exact ⟨q, hq, hright r hr q hq⟩
  · intro hkind
    obtain ⟨q, hq⟩ := hoperand left (by simp [hchildren]) hkind
    refine ⟨q, hq, ?_⟩
    cases hmore : left.hasRight with
    | true => exact .inl (hleft q hq hmore)
    | false => exact .inr rfl

/-- A chain in which an operator lacks its right operand. Its nodes from the outside in are the
product, which has that operator on its left, the sum without its right operand, two differences and
a product. -/
theorem parse_nests_operators_chain :
    let nodes := (parse "1 - 2 * 3 - 4 + * 5".toList).root.nodes
    (nodes.filter fun n => n.1 = .binExpr).map
        (fun n => ((node n.1 n.2).precedence?, (node n.1 n.2).hasRight)) =
        [(some 2, true), (some 1, false), (some 1, true), (some 1, true), (some 2, true)] ∧
      ∃ children, (.binExpr, children) ∈ nodes ∧
        ∃ left op right p, significant children = left :: .token op :: Option.toList right ∧
          op.kind.precedence? = some p ∧
          (∀ r ∈ right, r.kind = .node .binExpr → ∃ q, r.precedence? = some q ∧ p < q) ∧
          (left.kind = .node .binExpr →
            ∃ q, left.precedence? = some q ∧ (p ≤ q ∨ left.hasRight = false)) := by
  intro nodes
  have hany : nodes.any (fun n => n.1 = .binExpr) = true := by decide +kernel
  obtain ⟨⟨k, children⟩, hmem, hk⟩ := List.any_eq_true.mp hany
  obtain rfl : k = .binExpr := by simpa using hk
  exact ⟨by decide +kernel, children, hmem, parse_nests_operators _ children hmem⟩

end IncrementalSyntax
