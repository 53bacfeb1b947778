import IncrementalSyntax.Proofs.Syntax.Production
import IncrementalSyntax.Proofs.Syntax.Reparse

/-!
Every tree has the shape of the grammar. The invariant of the reader is that each open node holds
children that its production allows to go on as its place says, that the node begins with no trivia,
and that everything inside it is finished and has its shape (`Stack.Sound`). A token keeps the
invariant because every move of the table does; a node that ends has its shape because every part
that is still to come may be missing. `parse_shaped` is the statement about whole texts.
-/
namespace IncrementalSyntax

open Production

/-- There are tokens, and neither the first nor the last is trivia. -/
structure Token.Tight (ts : List Token) : Prop where
  first : ∃ t, ts.head? = some t ∧ t.kind.isTrivia = false
  last : ∃ t, ts.getLast? = some t ∧ t.kind.isTrivia = false

theorem Token.Tight.append {ts us : List Token} (h : Tight us)
    (hfirst : ∀ t, ts.head? = some t → t.kind.isTrivia = false) : Tight (ts ++ us) := by
  obtain ⟨u, hu, hlast⟩ := h.last
  refine ⟨?_, u, by simp [List.getLast?_append, hu], hlast⟩
  cases ts with
  | nil => exact h.first
  | cons t ts => exact ⟨t, rfl, hfirst t rfl⟩

namespace Element

mutual

def nodes : Element → List (NodeKind × List Element)
  | .token _ => []
  | .node k children => (k, children) :: nodesOf children

def nodesOf : List Element → List (NodeKind × List Element)
  | [] => []
  | e :: es => e.nodes ++ nodesOf es

end

@[simp] theorem nodes_token (t : Token) : (token t).nodes = [] := by simp [nodes]

@[simp] theorem nodes_node (k : NodeKind) (es : List Element) :
    (node k es).nodes = (k, es) :: nodesOf es := by simp [nodes]

@[simp] theorem nodesOf_nil : nodesOf [] = [] := by simp [nodesOf]

@[simp] theorem nodesOf_cons (e : Element) (es : List Element) :
    nodesOf (e :: es) = e.nodes ++ nodesOf es := by simp [nodesOf]

@[simp] theorem nodesOf_append (es fs : List Element) :
    nodesOf (es ++ fs) = nodesOf es ++ nodesOf fs := by
  induction es with
  | nil => simp
  | cons e es ih => simp [ih]

@[simp] theorem nodesOf_map_token (ts : List Token) : nodesOf (ts.map token) = [] := by
  induction ts with
  | nil => simp
  | cons t ts ih => simp [ih]

def kindsOf (es : List Element) : List SyntaxKind := (es.map kind).filter fun k => !k.isTrivia

@[simp] theorem kindsOf_nil : kindsOf [] = [] := rfl

@[simp] theorem kindsOf_append (es fs : List Element) :
    kindsOf (es ++ fs) = kindsOf es ++ kindsOf fs := by simp [kindsOf]

theorem kindsOf_map_token {ts : List Token} (h : Token.allTrivia ts = true) :
    kindsOf (ts.map token) = [] := by
  simpa [kindsOf, kind, SyntaxKind.isTrivia, Token.allTrivia] using h

structure Shaped (k : NodeKind) (children : List Element) : Prop where
  produced : kindsOf children ∈ k.production.matches'
  tight : Token.Tight (tokensOf children)

theorem eq_token_of_isTrivia {e : Element} (h : e.kind.isTrivia = true) :
    ∃ t, e = .token t ∧ t.kind.isTrivia = true := by
  cases e with
  | token t => exact ⟨t, rfl, h⟩
  | node k es => simp [kind, SyntaxKind.isTrivia] at h

/-- Children of which all but one token are trivia, and that begin and end with none, are that
token. -/
theorem eq_singleton_of_kindsOf {es : List Element} {k : TokenKind}
    (hkinds : kindsOf es = [.token k]) (htight : Token.Tight (tokensOf es)) :
    ∃ t, es = [.token t] := by
  rw [kindsOf, List.filter_map, List.map_eq_singleton_iff] at hkinds
  obtain ⟨e, hfilter, hkind⟩ := hkinds
  obtain ⟨before, after, rfl, hbefore, -, hafter⟩ := List.filter_eq_cons_iff.mp hfilter
  obtain ⟨t, rfl⟩ : ∃ t, e = .token t := by
    cases e with
    | token t => exact ⟨t, rfl⟩
    | node k es => simp [kind] at hkind
  obtain rfl : before = [] := by
    cases before with
    | nil => rfl
    | cons x xs =>
      obtain ⟨u, rfl, hu⟩ := eq_token_of_isTrivia (by simpa using hbefore x)
      obtain ⟨v, hv, hfirst⟩ := htight.first
      obtain rfl : u = v := by simpa using hv
      simp [hu] at hfirst
  obtain rfl : after = [] := by
    rcases List.eq_nil_or_concat after with hnil | ⟨xs, x, rfl⟩
    · exact hnil
    · have hx : x.kind.isTrivia = true := by simpa using List.filter_eq_nil_iff.mp hafter x
      obtain ⟨u, rfl, hu⟩ := eq_token_of_isTrivia hx
      obtain ⟨v, hv, hlast⟩ := htight.last
      obtain rfl : u = v := by simpa [List.getLast?_cons] using hv
      simp [hu] at hlast
  exact ⟨t, rfl⟩

/-- Characters that start no token can be in no node but an error node. -/
theorem eq_error_of_unknown {k : NodeKind} {es : List Element} {t : Token}
    (h : kindsOf es ∈ k.production.matches') (ht : .token t ∈ es) (hunknown : t.kind = .unknown) :
    k = .error := by
  have hword : .token .unknown ∈ kindsOf es :=
    List.mem_filter.mpr ⟨List.mem_map.mpr ⟨.token t, ht, by rw [kind, hunknown]⟩, rfl⟩
  have hsymbol := mem_symbols h hword
  have honly : ∀ k ∈ NodeKind.all, .token .unknown ∈ k.production.symbols → k = .error := by
    decide
  exact honly k k.mem_all hsymbol

/-- An element that is finished: it begins and ends with no trivia, and all nodes in it have their
shape. -/
structure Sound (e : Element) : Prop where
  tight : Token.Tight e.tokens
  shaped : ∀ n ∈ e.nodes, Shaped n.1 n.2

theorem sound_token {t : Token} (h : t.kind.isTrivia = false) : (token t).Sound where
  tight := ⟨⟨t, by simp, h⟩, ⟨t, by simp, h⟩⟩
  shaped := by simp

theorem Sound.kindsOf_eq {e : Element} (h : e.Sound) : kindsOf [e] = [e.kind] := by
  cases e with
  | token t =>
    obtain ⟨u, hu, htrivia⟩ := h.tight.first
    obtain rfl : t = u := by simpa using hu
    simp [kindsOf, kind, SyntaxKind.isTrivia, htrivia]
  | node k es => simp [kindsOf, kind, SyntaxKind.isTrivia]

/-- The children of a node that is open: it begins with no trivia, and all nodes in it have their
shape. -/
structure Begun (es : List Element) : Prop where
  first : ∀ t, (tokensOf es).head? = some t → t.kind.isTrivia = false
  shaped : ∀ n ∈ nodesOf es, Shaped n.1 n.2

theorem begun_nil : Begun [] := ⟨by simp, by simp⟩

theorem Begun.concat {es : List Element} {e : Element} (h : Begun es) (he : e.Sound)
    (gap : List Token) : Begun (es ++ [e] ++ gap.map token) where
  first := by
    intro t ht
    obtain ⟨u, hu, htrivia⟩ := (he.tight.append h.first).first
    have hfirst : (tokensOf (es ++ [e] ++ gap.map token)).head? = some u := by
      rw [tokensOf_append, tokensOf_append, tokensOf_cons, tokensOf_nil, List.append_nil,
        List.head?_append, hu, Option.some_or]
    obtain rfl : u = t := Option.some.inj (hfirst.symm.trans ht)
    exact htrivia
  shaped := by
    intro n hn
    rcases (by simpa using hn : n ∈ nodesOf es ∨ n ∈ e.nodes) with hn | hn
    · exact h.shaped n hn
    · exact he.shaped n hn

/-- The words that children to come can be, after those of a node of kind `k`. -/
def wordsAfter (k : NodeKind) (es : List Element) : Language SyntaxKind :=
  k.production.matches'.leftQuotient (kindsOf es)

theorem Sound.wordsAfter_concat {e : Element} (he : e.Sound) {gap : List Token}
    (hgap : Token.allTrivia gap = true) (k : NodeKind) (es : List Element) :
    wordsAfter k (es ++ [e] ++ gap.map token) = (wordsAfter k es).leftQuotient [e.kind] := by
  rw [wordsAfter, kindsOf_append, kindsOf_append, kindsOf_map_token hgap, he.kindsOf_eq,
    List.append_nil, Language.leftQuotient_append, wordsAfter]

end Element

namespace Frame

open Element

/-- A child of kind `s` may be the next one, and the node then goes on at its place. -/
def Awaits (f : Frame) (s : SyntaxKind) : Prop := f.place.Fits (wordsAfter f.kind f.children) s

/-- A node ends with its shape after any child that it awaits. -/
theorem Awaits.element {f : Frame} {e : Element} (h : f.Awaits e.kind) (hf : Begun f.children)
    (he : e.Sound) : (f.append [e]).element.Sound := by
  have htight : Token.Tight (tokensOf (f.append [e]).children) := by
    simpa using he.tight.append hf.first
  have hproduced : kindsOf (f.append [e]).children ∈ f.kind.production.matches' := by
    rw [append_children, kindsOf_append, he.kindsOf_eq]
    exact h.cons_mem [] f.place.nil_mem_rest
  have hbegun : Begun (f.append [e]).children := by simpa using hf.concat he []
  refine ⟨by simpa [Frame.element] using htight, ?_⟩
  intro n hn
  rcases List.mem_cons.mp (by simpa only [Frame.element, nodes_node] using hn) with rfl | hn
  · exact ⟨hproduced, htight⟩
  · exact hbegun.shaped n hn

end Frame

namespace Stack

open Element

/-- Open nodes, from the inside out, of which the first awaits a child of kind `s` and each other
one the node inside it; the outermost is an item. -/
def Await (s : SyntaxKind) : List Frame → Prop
  | [] => [s] ∈ Production.item.matches'
  | f :: below => Begun f.children ∧ f.Awaits s ∧ Await (.node f.kind) below

/-- The innermost node has a last child that it awaited, and the other nodes await the ones inside
them. -/
def Sound (s : Stack) : Prop :=
  ∃ (f : Frame) (e : Element), s.top = f.append [e] ∧ e.Sound ∧ Await e.kind (f :: s.below)

theorem sound_leaf {t : Token} (ht : t.kind.isTrivia = false) {kind : Option NodeKind}
    (h : ∀ k ∈ kind, [.token t.kind] ∈ k.production.matches') :
    (leaf t kind).Sound ∧ (leaf t kind).kind = Move.childKind t.kind kind := by
  have htoken := sound_token ht
  cases kind with
  | none => exact ⟨htoken, rfl⟩
  | some k =>
    refine ⟨⟨by simpa [leaf] using htoken.tight, ?_⟩, rfl⟩
    intro n hn
    obtain rfl : n = (k, [.token t]) := by simpa [leaf] using hn
    refine ⟨?_, by simpa using htoken.tight⟩
    rw [htoken.kindsOf_eq]
    exact h k rfl

/-- Nodes may be opened, and a child put into the last of them, as the table allows. -/
theorem sound_openAll {f : Frame} {below : List Frame} {opened : List Opening} {e : Element}
    (hf : Begun f.children) (he : e.Sound)
    (hopens : Place.Opens (wordsAfter f.kind f.children) f.place opened e.kind)
    (hbelow : Await (.node f.kind) below) :
    ((openAll ⟨f, below⟩ opened).append [e]).Sound := by
  induction opened generalizing f below with
  | nil => exact ⟨f, e, rfl, he, hf, hopens, hbelow⟩
  | cons o os ih => exact ih begun_nil hopens.2 ⟨hf, hopens.1, hbelow⟩

theorem sound_accept {gap : List Token} {t : Token} {f : Frame} {e : Element} {below : List Frame}
    {s : Stack} (hgap : Token.allTrivia gap = true) (ht : t.kind.isTrivia = false)
    (he : e.Sound) (hawait : Await e.kind (f :: below))
    (h : accept gap t (f.append [e]) below = some s) : s.Sound := by
  obtain ⟨hf, hawaits, hbelow⟩ := hawait
  have hmove := Place.on_continues hawaits t.kind
  rw [accept] at h
  split at h
  next stay opened kind hon =>
    obtain rfl := Option.some.inj h
    rw [Frame.append_place] at hon
    rw [hon] at hmove
    obtain ⟨hopens, hleaf⟩ := hmove
    obtain ⟨hsound, hkind⟩ := sound_leaf ht hleaf
    refine sound_openAll (hf.concat he gap) hsound ?_ hbelow
    rw [hkind]
    simpa only [Frame.append_kind, Frame.append_children, he.wordsAfter_concat hgap] using hopens
  next stay around opened hon =>
    obtain rfl := Option.some.inj h
    rw [Frame.append_place] at hon
    rw [hon] at hmove
    obtain ⟨hstay, hopens⟩ := hmove
    simp only [Frame.append_children, List.dropLast_concat, List.getLast?_concat,
      Option.toList_some]
    refine sound_openAll (begun_nil.concat he gap) (sound_token ht) ?_ ⟨hf, hstay, hbelow⟩
    have hwords := he.wordsAfter_concat hgap around.1 []
    exact hwords ▸ hopens
  next => simp at h

theorem sound_feed {gap : List Token} {t : Token} {top : Frame} {below : List Frame} {s : Stack}
    (hgap : Token.allTrivia gap = true) (ht : t.kind.isTrivia = false)
    (hsound : Sound ⟨top, below⟩) (h : feed gap t top below = some s) : s.Sound := by
  induction below generalizing top with
  | nil =>
    obtain ⟨f, e, rfl, he, hawait⟩ := hsound
    exact sound_accept hgap ht he hawait h
  | cons g below ih =>
    obtain ⟨f, e, rfl, he, hawait⟩ := hsound
    rw [feed] at h
    split at h
    next s' haccept =>
      obtain rfl := Option.some.inj h
      exact sound_accept hgap ht he hawait haccept
    next =>
      -- the innermost node ends, and the next one gets the child that it awaited
      obtain ⟨hf, hawaits, hbelow⟩ := hawait
      exact ih ⟨g, _, rfl, hawaits.element hf he, hbelow⟩ h

/-- When all open nodes end, the outermost is an item that has its shape. -/
theorem sound_collapse {top : Frame} {below : List Frame} (hsound : Sound ⟨top, below⟩) :
    (collapse top below).element.Sound ∧
      [(collapse top below).element.kind] ∈ Production.item.matches' := by
  induction below generalizing top with
  | nil =>
    obtain ⟨f, e, rfl, he, hf, hawaits, hitem⟩ := hsound
    exact ⟨hawaits.element hf he, hitem⟩
  | cons g below ih =>
    obtain ⟨f, e, rfl, he, hf, hawaits, hbelow⟩ := hsound
    exact ih ⟨g, _, rfl, hawaits.element hf he, hbelow⟩

end Stack

namespace Reading

def element (r : Reading) : Element := .node r.kind r.children

/-- The run lemma: what is read from sound open nodes is an item that has its shape. -/
theorem sound_run {s : Stack} {gap ts : List Token} (hs : s.Sound)
    (hgap : Token.allTrivia gap = true) :
    (run s gap ts).element.Sound ∧ [(run s gap ts).element.kind] ∈ Production.item.matches' := by
  induction ts generalizing s gap with
  | nil => exact Stack.sound_collapse hs
  | cons t ts ih =>
    rw [run]
    split
    next ht => exact ih hs (by simp [hgap, ht])
    next ht =>
      split
      next => exact Stack.sound_collapse hs
      next s' hfeed =>
        have hs' := Stack.sound_feed hgap (by simpa using ht) hs hfeed
        split
        next => exact Stack.sound_collapse hs'
        next => exact ih hs' rfl

theorem sound_first {t : Token} (ht : t.kind.isTrivia = false) : (first t).Sound := by
  have hfits : ∀ i, [i] ∈ Production.item.matches' →
      Place.Fits Production.item.matches' i .ended := by
    rintro i hi w rfl
    exact hi
  have hmove := Move.keeps_item hfits t.kind
  rw [first]
  split
  next stay o os kind hitem =>
    rw [hitem] at hmove
    obtain ⟨⟨hkind, hopens⟩, hleaf⟩ := hmove
    obtain ⟨hsound, hleafKind⟩ := Stack.sound_leaf ht hleaf
    refine Stack.sound_openAll Element.begun_nil hsound ?_ (hkind.cons_mem [] stay.nil_mem_rest)
    rw [hleafKind]
    exact hopens
  next =>
    have herror : [.node .error] ∈ Production.item.matches' := by decide
    refine ⟨.start (.error, .ended), .token t, rfl, Element.sound_token ht, Element.begun_nil, ?_,
      herror⟩
    rintro w rfl
    exact Move.mem_error_production t.kind

theorem sound_ofTokens {t : Token} (ht : t.kind.isTrivia = false) (ts : List Token) :
    (ofTokens t ts).element.Sound ∧
      [(ofTokens t ts).element.kind] ∈ Production.item.matches' := by
  rw [ofTokens]
  split
  next => exact Stack.sound_collapse (sound_first ht)
  next => exact sound_run (sound_first ht) rfl

end Reading

namespace Part

open Element

/-- What the reader takes out of tokens are items that have their shape, and trivia between them. -/
theorem sound_readParts_none (start : Nat) (ts : List Token) :
    (∀ n ∈ nodesOf (((readParts .none start ts).map Prod.fst).map element), Shaped n.1 n.2) ∧
      kindsOf (((readParts .none start ts).map Prod.fst).map element) ∈
        NodeKind.sourceFile.production.matches' := by
  induction start, ts using readParts.induct .none with
  | case1 start =>
    have hnil : [] ∈ NodeKind.sourceFile.production.matches' := Language.nil_mem_kstar _
    simpa [readParts] using hnil
  | case2 start t ts htrivia ih =>
    have hkinds : kindsOf ([t].map .token) = [] := kindsOf_map_token (by simp [htrivia])
    rw [readParts, if_pos htrivia, List.map_cons, List.map_cons, ← List.singleton_append,
      nodesOf_append, kindsOf_append, element, ← List.map_singleton, hkinds]
    simpa using ih
  | case3 start t ts htrivia old hold ih => simp at hold
  | case4 start t ts htrivia hold reading ih =>
    obtain ⟨hsound, hitem⟩ := Reading.sound_ofTokens (by simpa using htrivia) ts
    rw [readParts, if_neg htrivia, hold, List.map_cons, List.map_cons, nodesOf_cons,
      ← List.singleton_append, kindsOf_append]
    refine ⟨fun n hn => (List.mem_append.mp hn).elim (hsound.shaped n) (ih.1 n), ?_⟩
    rw [show element (.item reading.item) = reading.element from rfl, hsound.kindsOf_eq]
    exact cons_mem_many hitem ih.2

end Part

/-- Every tree has the shape of the grammar. The children of each node, trivia left out, are a word
of its production; below the root no node is empty or begins or ends with trivia; an error node
holds one token, and characters that start no token stand alone in one. -/
theorem parse_shaped (text : Text) :
    (∀ n ∈ (parse text).root.nodes, Element.kindsOf n.2 ∈ n.1.production.matches') ∧
      (∀ n ∈ Element.nodesOf ((parse text).parts.map Part.element),
        Token.Tight (Element.tokensOf n.2)) ∧
      (∀ n ∈ (parse text).root.nodes, n.1 = .error → ∃ t, n.2 = [.token t]) ∧
      ∀ n ∈ (parse text).root.nodes, ∀ t, .token t ∈ n.2 → t.kind = .unknown →
        n.1 = .error ∧ n.2 = [.token t] := by
  obtain ⟨hshaped, hroot⟩ := Part.sound_readParts_none 0 (tokenize text)
  have hnodes : ∀ n ∈ (parse text).root.nodes,
      n = (.sourceFile, (parse text).parts.map Part.element) ∨ Element.Shaped n.1 n.2 := by
    intro n hn
    rw [SyntaxTree.root, Element.nodes_node, List.mem_cons] at hn
    exact hn.imp_right (hshaped n)
  have hproduced : ∀ n ∈ (parse text).root.nodes,
      Element.kindsOf n.2 ∈ n.1.production.matches' := by
    intro n hn
    rcases hnodes n hn with rfl | h
    · exact hroot
    · exact h.produced
  have herror : ∀ n ∈ (parse text).root.nodes, n.1 = .error → ∃ t, n.2 = [.token t] := by
    intro n hn hkind
    rcases hnodes n hn with rfl | h
    · simp at hkind
    · obtain ⟨k, hk⟩ := eq_of_mem_oneOf_token (hkind ▸ h.produced)
      exact Element.eq_singleton_of_kindsOf hk h.tight
  refine ⟨hproduced, fun n hn => (hshaped n hn).tight, herror, ?_⟩
  intro n hn t ht hunknown
  have hkind := Element.eq_error_of_unknown (hproduced n hn) ht hunknown
  obtain ⟨u, hu⟩ := herror n hn hkind
  obtain rfl : t = u := by simpa [hu] using ht
  exact ⟨hkind, hu⟩

/-- A text with a stray character, an operator without its right side and a declaration without its
name. -/
theorem parse_shaped_malformed :
    let nodes := (parse "f(1 # , ) + // é\nlet".toList).root.nodes
    nodes.map Prod.fst =
        [.sourceFile, .exprStmt, .binExpr, .callExpr, .nameRef, .argList, .literal, .error,
          .letDecl] ∧
      ∀ n ∈ nodes, Element.kindsOf n.2 ∈ n.1.production.matches' :=
  ⟨by decide +kernel, (parse_shaped _).1⟩

end IncrementalSyntax
