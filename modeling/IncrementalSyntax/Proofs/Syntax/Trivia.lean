import IncrementalSyntax.Proofs.Syntax.Reading

/-!
Trivia means nothing. `Stack.readBare` is the reader for tokens of which none is trivia: no trivia
has to wait, and nothing depends on when the reader notices that an item has ended. A reading of
any tokens, with the trivia taken out of what it gives, is `readBare` on the tokens without trivia
(`bare_ofTokens`). The reason is that trivia never is the last child of the innermost node, so that
the child which an operator takes over is the same with trivia and without.
-/
namespace IncrementalSyntax

def Token.bare (ts : List Token) : List Token := ts.filter fun t => !t.kind.isTrivia

namespace Token

@[simp] theorem bare_nil : bare [] = [] := rfl

theorem bare_cons_of_trivia {t : Token} (h : t.kind.isTrivia = true) (ts : List Token) :
    bare (t :: ts) = bare ts := by simp [bare, h]

theorem bare_cons {t : Token} (h : t.kind.isTrivia = false) (ts : List Token) :
    bare (t :: ts) = t :: bare ts := by simp [bare, h]

@[simp] theorem bare_append (ts us : List Token) : bare (ts ++ us) = bare ts ++ bare us := by
  simp [bare]

theorem bare_of_allTrivia {ts : List Token} (h : allTrivia ts = true) : bare ts = [] := by
  simpa [bare, allTrivia] using h

end Token

namespace Element

mutual

def bare : Element → Element
  | .token t => .token t
  | .node k children => .node k (bareOf children)

def bareOf : List Element → List Element
  | [] => []
  | e :: es => if e.kind.isTrivia then bareOf es else e.bare :: bareOf es

end

@[simp] theorem bare_token (t : Token) : (token t).bare = token t := by simp [bare]

@[simp] theorem bare_node (k : NodeKind) (es : List Element) :
    (node k es).bare = node k (bareOf es) := by simp [bare]

@[simp] theorem bareOf_nil : bareOf [] = [] := by simp [bareOf]

theorem bareOf_cons {e : Element} (h : e.kind.isTrivia = false) (es : List Element) :
    bareOf (e :: es) = e.bare :: bareOf es := by simp [bareOf, h]

@[simp] theorem bareOf_append (es fs : List Element) :
    bareOf (es ++ fs) = bareOf es ++ bareOf fs := by
  induction es with
  | nil => simp
  | cons e es ih =>
    rw [List.cons_append, bareOf, bareOf, ih]
    split <;> simp

theorem bareOf_map_token {ts : List Token} (h : Token.allTrivia ts = true) :
    bareOf (ts.map token) = [] := by
  induction ts with
  | nil => simp
  | cons t ts ih =>
    rw [Token.allTrivia_cons, Bool.and_eq_true] at h
    simp [bareOf, kind, SyntaxKind.isTrivia, h.1, ih h.2]

theorem isTrivia_kind_token (t : Token) : (token t).kind.isTrivia = t.kind.isTrivia := rfl

theorem isTrivia_kind_node (k : NodeKind) (es : List Element) :
    (node k es).kind.isTrivia = false := rfl

mutual

theorem hasErrors_bare (e : Element) : e.bare.hasErrors = e.hasErrors := by
  cases e with
  | token t => rw [bare_token]
  | node k es => rw [bare_node, hasErrors, hasErrors, anyErrors_bareOf]

theorem anyErrors_bareOf (es : List Element) : anyErrors (bareOf es) = anyErrors es := by
  cases es with
  | nil => rw [bareOf_nil]
  | cons e es =>
    rw [bareOf, anyErrors]
    split
    next htrivia =>
      cases e with
      | token t =>
        have hknown : t.kind ≠ .unknown := by
          rintro hunknown
          simp [isTrivia_kind_token, hunknown, TokenKind.isTrivia] at htrivia
        simp [anyErrors_bareOf es, hasErrors, hknown]
      | node k es => simp [isTrivia_kind_node] at htrivia
    next => rw [anyErrors, hasErrors_bare e, anyErrors_bareOf es]

end

end Element

namespace Frame

def bare (f : Frame) : Frame := ⟨f.kind, f.place, Element.bareOf f.children⟩

@[simp] theorem bare_kind (f : Frame) : f.bare.kind = f.kind := rfl
@[simp] theorem bare_place (f : Frame) : f.bare.place = f.place := rfl
@[simp] theorem bare_children (f : Frame) : f.bare.children = Element.bareOf f.children := rfl

@[simp] theorem isEnded_bare (f : Frame) : f.bare.isEnded = f.isEnded := rfl

@[simp] theorem isEnded_append (f : Frame) (es : List Element) :
    (f.append es).isEnded = f.isEnded := rfl

@[simp] theorem bare_start (o : Opening) : (start o).bare = start o := by simp [bare, start]

@[simp] theorem bare_element (f : Frame) : f.element.bare = f.bare.element := by
  simp [element, bare]

theorem bare_append (f : Frame) {e : Element} (h : e.kind.isTrivia = false) :
    (f.append [e]).bare = f.bare.append [e.bare] := by
  simp [bare, append, Element.bareOf_cons h]

end Frame

namespace Stack

open Element

def bare (s : Stack) : Stack := ⟨s.top.bare, s.below.map Frame.bare⟩

/-- The last child of the innermost node is not trivia. -/
def Solid (s : Stack) : Prop :=
  ∃ (f : Frame) (e : Element), s.top = f.append [e] ∧ e.kind.isTrivia = false

/-- Reads on from open nodes, when no token is trivia: the node that has been read, and the tokens
after it. -/
def readBare (s : Stack) : List Token → Element × List Token
  | [] => ((collapse s.top s.below).element, [])
  | t :: ts =>
    match feed [] t s.top s.below with
    | none => ((collapse s.top s.below).element, t :: ts)
    | some s' => readBare s' ts

theorem bare_openAll (s : Stack) (os : List Opening) : (s.openAll os).bare = s.bare.openAll os := by
  induction os generalizing s with
  | nil => rfl
  | cons o os ih =>
    rw [openAll, ih, openAll]
    simp [bare]

theorem bare_append (s : Stack) {e : Element} (h : e.kind.isTrivia = false) :
    (s.append [e]).bare = s.bare.append [e.bare] := by
  rw [bare, append, Frame.bare_append s.top h]
  rfl

theorem isTrivia_kind_leaf {t : Token} (ht : t.kind.isTrivia = false) (kind : Option NodeKind) :
    (leaf t kind).kind.isTrivia = false := by
  cases kind with
  | none => exact ht
  | some k => rfl

theorem bare_leaf {t : Token} (ht : t.kind.isTrivia = false) (kind : Option NodeKind) :
    (leaf t kind).bare = leaf t kind := by
  cases kind with
  | none => exact bare_token t
  | some k => simp [leaf, bareOf_cons (e := .token t) ht]

/-- Trivia before a token does not change what the token does to the innermost node. -/
theorem bare_accept {gap : List Token} {t : Token} {top : Frame} {below : List Frame}
    (hgap : Token.allTrivia gap = true) (ht : t.kind.isTrivia = false)
    (hsolid : Solid ⟨top, below⟩) :
    (accept gap t top below).map bare = accept [] t top.bare (below.map Frame.bare) := by
  obtain ⟨f, e, htop, he⟩ := hsolid
  obtain rfl : top = f.append [e] := htop
  rw [accept, accept, Frame.bare_place]
  split
  next stay opened kind _ =>
    rw [Option.map_some, bare_append _ (isTrivia_kind_leaf ht kind), bare_openAll, bare_leaf ht]
    simp [bare, Frame.bare, bareOf_map_token hgap, bareOf_cons he]
  next stay around opened _ =>
    rw [Option.map_some, bare_append (e := .token t) _ ht, bare_openAll, bare_token]
    simp [bare, Frame.bare, bareOf_map_token hgap, bareOf_cons he]
  next => rfl

theorem solid_accept {gap : List Token} {t : Token} {top : Frame} {below : List Frame} {s : Stack}
    (ht : t.kind.isTrivia = false) (h : accept gap t top below = some s) : s.Solid := by
  rw [accept] at h
  split at h
  next stay opened kind _ =>
    obtain rfl := Option.some.inj h
    exact ⟨_, _, rfl, isTrivia_kind_leaf ht kind⟩
  next stay around opened _ =>
    obtain rfl := Option.some.inj h
    exact ⟨_, _, rfl, ht⟩
  next => simp at h

/-- The step lemma: trivia before a token does not change what the token does. -/
theorem bare_feed {gap : List Token} {t : Token} {top : Frame} {below : List Frame}
    (hgap : Token.allTrivia gap = true) (ht : t.kind.isTrivia = false)
    (hsolid : Solid ⟨top, below⟩) :
    (feed gap t top below).map bare = feed [] t top.bare (below.map Frame.bare) := by
  induction below generalizing top with
  | nil => exact bare_accept hgap ht hsolid
  | cons f below ih =>
    have haccept := bare_accept hgap ht hsolid
    rw [List.map_cons] at haccept ⊢
    rw [feed, feed, ← haccept]
    cases accept gap t top (f :: below) with
    | some s => rfl
    | none =>
      have helement : top.element.kind.isTrivia = false := rfl
      have hsolid' : Solid ⟨f.append [top.element], below⟩ := ⟨f, _, rfl, helement⟩
      have hnext := ih hsolid'
      rwa [Frame.bare_append f helement, Frame.bare_element] at hnext

theorem solid_feed {gap : List Token} {t : Token} {top : Frame} {below : List Frame} {s : Stack}
    (ht : t.kind.isTrivia = false) (h : feed gap t top below = some s) : s.Solid := by
  induction below generalizing top with
  | nil => exact solid_accept ht h
  | cons f below ih =>
    rw [feed] at h
    split at h
    next s' haccept =>
      obtain rfl := Option.some.inj h
      exact solid_accept ht haccept
    next => exact ih h

theorem bare_collapse (top : Frame) (below : List Frame) :
    (collapse top below).bare = collapse top.bare (below.map Frame.bare) := by
  induction below generalizing top with
  | nil => rfl
  | cons f below ih =>
    rw [collapse, ih, Frame.bare_append f rfl, Frame.bare_element]
    rfl

theorem feed_of_isEnded {top : Frame} {below : List Frame} (h : isEnded ⟨top, below⟩ = true)
    (gap : List Token) (t : Token) : feed gap t top below = none := by
  have hleave : ∀ (f : Frame) (below : List Frame), f.isEnded = true →
      accept gap t f below = none := by
    intro f below hf
    have hplace : f.place = .ended := by simpa [Frame.isEnded] using hf
    rw [accept, hplace]
    rfl
  induction below generalizing top with
  | nil => exact hleave top [] (by simpa [isEnded] using h)
  | cons f below ih =>
    obtain ⟨htop, hbelow⟩ :
        top.isEnded = true ∧ isEnded ⟨f.append [top.element], below⟩ = true := by
      simpa [isEnded] using h
    rw [feed, hleave top _ htop]
    exact ih hbelow

theorem readBare_of_isEnded {s : Stack} (h : s.isEnded = true) (ts : List Token) :
    s.readBare ts = ((collapse s.top s.below).element, ts) := by
  cases ts with
  | nil => rfl
  | cons t ts => rw [readBare, feed_of_isEnded h]

theorem isEnded_bare (s : Stack) : s.bare.isEnded = s.isEnded := by
  simp [isEnded, bare, Function.comp_def]

end Stack

namespace Reading

def bare (r : Reading) : Element × List Token :=
  ((Element.node r.kind r.children).bare, Token.bare r.rest)

theorem bare_ofStack (s : Stack) (rest : List Token) (peeked : Bool) :
    (ofStack s rest peeked).bare =
      ((Stack.collapse s.bare.top s.bare.below).element, Token.bare rest) := by
  rw [Stack.bare, ← Stack.bare_collapse, ← Frame.bare_element]
  rfl

theorem bare_run {s : Stack} {gap : List Token} (hs : s.Solid)
    (hgap : Token.allTrivia gap = true) (ts : List Token) :
    (run s gap ts).bare = s.bare.readBare (Token.bare ts) := by
  induction ts generalizing s gap with
  | nil =>
    rw [run, bare_ofStack, Token.bare_of_allTrivia hgap]
    rfl
  | cons t ts ih =>
    rw [run]
    split
    next ht =>
      rw [Token.bare_cons_of_trivia ht]
      exact ih hs (by simp [hgap, ht])
    next ht =>
      replace ht : t.kind.isTrivia = false := by simpa using ht
      have hfeed : (Stack.feed gap t s.top s.below).map Stack.bare =
          Stack.feed [] t s.bare.top s.bare.below := Stack.bare_feed hgap ht hs
      rw [Token.bare_cons ht, Stack.readBare, ← hfeed]
      cases hnext : Stack.feed gap t s.top s.below with
      | none => simp [bare_ofStack, Token.bare_of_allTrivia hgap, Token.bare_cons ht]
      | some s' =>
        dsimp only [Option.map_some]
        split
        next hended =>
          rw [bare_ofStack, Stack.readBare_of_isEnded (s'.isEnded_bare.trans hended)]
        next => exact ih (Stack.solid_feed ht hnext) rfl


theorem solid_first {t : Token} (ht : t.kind.isTrivia = false) : (first t).Solid := by
  rw [first]
  split
  next o os kind _ => exact ⟨_, _, rfl, Stack.isTrivia_kind_leaf ht kind⟩
  next => exact ⟨.start (.error, .ended), .token t, rfl, ht⟩

theorem bare_first {t : Token} (ht : t.kind.isTrivia = false) : (first t).bare = first t := by
  rw [first]
  split
  next o os kind _ =>
    rw [Stack.bare_append _ (Stack.isTrivia_kind_leaf ht kind), Stack.bare_openAll,
      Stack.bare_leaf ht]
    simp [Stack.bare]
  next => simp [Stack.bare, Frame.bare, Element.bareOf_cons (e := .token t) ht]

/-- An item and the tokens after it, without trivia, are what is read from the tokens without
trivia. -/
theorem bare_ofTokens {t : Token} (ht : t.kind.isTrivia = false) (ts : List Token) :
    (ofTokens t ts).bare = (first t).readBare (Token.bare ts) := by
  rw [ofTokens]
  split
  next hended => rw [bare_ofStack, bare_first ht, Stack.readBare_of_isEnded hended]
  next => rw [bare_run (solid_first ht) rfl, bare_first ht]

end Reading

end IncrementalSyntax
