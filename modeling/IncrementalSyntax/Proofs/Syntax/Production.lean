import Mathlib.Computability.MyhillNerode
import Mathlib.Computability.RegularExpressions
import IncrementalSyntax.Syntax.Grammar

/-!
The productions of the grammar, and why the table of moves keeps to them. The children of a node,
trivia left out, are a word over kinds, and the production of its kind is a regular expression for
these words. `Place.rest` is the part of a production that is still to come at a place. `Fits` says
that a child may stand where it does and the node go on at a place; at a place after an operand, any
other expression could stand there too, which is what allows an operator to take the operand away.
`on_continues` says that every move of the table leads from fitting children to fitting children.
-/
namespace IncrementalSyntax

abbrev Production := RegularExpression SyntaxKind

namespace Production

open RegularExpression

def token (k : TokenKind) : Production := char (.token k)

def node (k : NodeKind) : Production := char (.node k)

def oneOf (ps : List Production) : Production := ps.foldr (· + ·) 0

def sequence (ps : List Production) : Production := ps.foldr (· * ·) 1

def maybe (p : Production) : Production := 1 + p

def many (p : Production) : Production := star p

def item : Production :=
  oneOf [node .funcDecl, node .letDecl, node .returnStmt, node .exprStmt, node .error]

def expression : Production :=
  oneOf [node .literal, node .nameRef, node .callExpr, node .parenExpr, node .binExpr]

def callee : Production := oneOf [node .nameRef, node .callExpr]

def operator : Production := oneOf [token .plus, token .minus, token .star, token .slash]

def annotation : Production := sequence [token .colon, maybe (token .ident)]

def initializer : Production := sequence [token .equals, maybe expression]

end Production

open Production

def NodeKind.production : NodeKind → Production
  | sourceFile => many item
  | funcDecl => sequence [token .funcKw, maybe (token .ident), maybe (node .paramList),
      maybe (node .retType), maybe (node .block)]
  | paramList => sequence [token .lparen, many (oneOf [node .param, token .comma, node .error]),
      maybe (token .rparen)]
  | param => sequence [token .ident, maybe annotation]
  | retType => sequence [token .arrow, maybe (token .ident)]
  | block => sequence [token .lbrace, many item, maybe (token .rbrace)]
  | letDecl => sequence [oneOf [token .letKw, token .varKw], maybe (token .ident),
      maybe annotation, maybe initializer, maybe (token .semi)]
  | returnStmt => sequence [token .returnKw, maybe expression, maybe (token .semi)]
  | exprStmt => sequence [expression, maybe (token .semi)]
  | literal => oneOf [token .int, token .str]
  | nameRef => token .ident
  | callExpr => sequence [callee, node .argList]
  | argList => sequence [token .lparen, many (oneOf [expression, token .comma, node .error]),
      maybe (token .rparen)]
  | parenExpr => sequence [token .lparen, maybe expression, maybe (token .rparen)]
  | binExpr => sequence [expression, operator, maybe expression]
  | error => oneOf (TokenKind.all.map token)

namespace Place

/-- What may still come in a node at a place. -/
def rest : Place → Production
  | ended => 1
  | funcName => sequence [maybe (token .ident), maybe (node .paramList), maybe (node .retType),
      maybe (node .block)]
  | funcParams => sequence [maybe (node .paramList), maybe (node .retType), maybe (node .block)]
  | funcResult => sequence [maybe (node .retType), maybe (node .block)]
  | funcBody => sequence [maybe (node .block)]
  | params => sequence [many (oneOf [node .param, token .comma, node .error]),
      maybe (token .rparen)]
  | paramColon => sequence [maybe annotation]
  | paramType | resultName => sequence [maybe (token .ident)]
  | blockItems => sequence [many item, maybe (token .rbrace)]
  | letName => sequence [maybe (token .ident), maybe annotation, maybe initializer,
      maybe (token .semi)]
  | letColon => sequence [maybe annotation, maybe initializer, maybe (token .semi)]
  | letType => sequence [maybe (token .ident), maybe initializer, maybe (token .semi)]
  | letEquals => sequence [maybe initializer, maybe (token .semi)]
  | letValue | returnValue => sequence [maybe expression, maybe (token .semi)]
  | letEnd | returnEnd | statementEnd => sequence [maybe (token .semi)]
  | rightOperand _ => sequence [maybe expression]
  | arguments => sequence [many (oneOf [expression, token .comma, node .error]),
      maybe (token .rparen)]
  | parenValue => sequence [maybe expression, maybe (token .rparen)]
  | parenEnd => sequence [maybe (token .rparen)]
  | operand _ _ after => after.rest

/-- The child `s` may stand at the beginning of a word of `L` if the node goes on at the place. -/
def Fits (L : Language SyntaxKind) (s : SyntaxKind) : Place → Prop
  | operand _ callable after =>
    [s] ∈ expression.matches' ∧ (callable = true → [s] ∈ callee.matches') ∧
      ∀ e, [e] ∈ expression.matches' → Fits L e after
  | p => ∀ w ∈ p.rest.matches', s :: w ∈ L

end Place

namespace Production

variable {p : Production} {ps qs : List Production} {s : SyntaxKind} {w : List SyntaxKind}

theorem matches'_sequence_append (ps qs : List Production) :
    (sequence (ps ++ qs)).matches' = (sequence ps).matches' * (sequence qs).matches' := by
  induction ps with
  | nil => exact (one_mul _).symm
  | cons p ps ih =>
    calc (sequence (p :: ps ++ qs)).matches'
        = p.matches' * (sequence (ps ++ qs)).matches' := rfl
      _ = p.matches' * (sequence ps).matches' * (sequence qs).matches' := by rw [ih, mul_assoc]
      _ = (sequence (p :: ps)).matches' * (sequence qs).matches' := rfl

/-- A child that is the next part of a sequence is followed by the other parts. -/
theorem cons_mem_sequence (h : [s] ∈ p.matches') (hw : w ∈ (sequence ps).matches') :
    s :: w ∈ (sequence (p :: ps)).matches' :=
  Language.append_mem_mul h hw

/-- A child that begins the next part of a sequence, which may be missing, is followed by the rest
of that part and the other parts. -/
theorem cons_mem_sequence_maybe (h : [s] ∈ p.matches')
    (hw : w ∈ (sequence (qs ++ ps)).matches') :
    s :: w ∈ (sequence (maybe (sequence (p :: qs)) :: ps)).matches' := by
  rw [matches'_sequence_append] at hw
  obtain ⟨u, hu, v, hv, rfl⟩ := Language.mem_mul.mp hw
  have hpart : s :: u ∈ (maybe (sequence (p :: qs))).matches' := Or.inr (cons_mem_sequence h hu)
  exact Language.append_mem_mul hpart hv

theorem cons_mem_many (h : [s] ∈ p.matches') (hw : w ∈ (many p).matches') :
    s :: w ∈ (many p).matches' := by
  obtain ⟨words, rfl, hwords⟩ := Language.mem_kstar.mp hw
  exact Language.mem_kstar.mpr ⟨[s] :: words, rfl, List.forall_mem_cons.mpr ⟨h, hwords⟩⟩

/-- A child that may stand many times is followed by more of them and the other parts. -/
theorem cons_mem_sequence_many (h : [s] ∈ p.matches')
    (hw : w ∈ (sequence (many p :: ps)).matches') :
    s :: w ∈ (sequence (many p :: ps)).matches' := by
  obtain ⟨u, hu, v, hv, rfl⟩ := Language.mem_mul.mp hw
  exact Language.append_mem_mul (cons_mem_many h hu) hv

def symbols : Production → List SyntaxKind
  | .zero | .epsilon => []
  | .char s => [s]
  | .plus p q | .comp p q => symbols p ++ symbols q
  | .star p => symbols p

theorem mem_symbols (hw : w ∈ p.matches') (hs : s ∈ w) : s ∈ symbols p := by
  induction p generalizing w with
  | zero => exact absurd hw (Language.notMem_zero w)
  | epsilon =>
    obtain rfl : w = [] := hw
    exact hs
  | char a =>
    obtain rfl : w = [a] := hw
    exact hs
  | plus p q hp hq =>
    rcases hw with hw | hw
    · exact List.mem_append_left _ (hp hw hs)
    · exact List.mem_append_right _ (hq hw hs)
  | comp p q hp hq =>
    obtain ⟨u, hu, v, hv, rfl⟩ := Language.mem_mul.mp hw
    rcases List.mem_append.mp hs with hs | hs
    · exact List.mem_append_left _ (hp hu hs)
    · exact List.mem_append_right _ (hq hv hs)
  | star p hp =>
    obtain ⟨words, rfl, hwords⟩ := Language.mem_kstar.mp hw
    obtain ⟨u, hu, hs⟩ := List.mem_flatten.mp hs
    exact hp (hwords u hu) hs

/-- A word of one of some tokens is that token. -/
theorem eq_of_mem_oneOf_token {kinds : List TokenKind}
    (hw : w ∈ (oneOf (kinds.map token)).matches') : ∃ k, w = [.token k] := by
  induction kinds with
  | nil => exact absurd hw (Language.notMem_zero w)
  | cons k kinds ih =>
    rcases hw with hw | hw
    · exact ⟨k, hw⟩
    · exact ih hw

theorem mem_sequence_maybe (p : Production) (hw : w ∈ (sequence ps).matches') :
    w ∈ (sequence (maybe p :: ps)).matches' := by
  have hnil : [] ∈ (maybe p).matches' := Or.inl rfl
  exact Language.append_mem_mul hnil hw

theorem mem_sequence_many (p : Production) (hw : w ∈ (sequence ps).matches') :
    w ∈ (sequence (many p :: ps)).matches' :=
  Language.append_mem_mul (Language.nil_mem_kstar _) hw

end Production

namespace Place

variable {L M : Language SyntaxKind} {s : SyntaxKind}

/-- Every part that is still to come at a place may be missing. -/
theorem nil_mem_rest (p : Place) : [] ∈ p.rest.matches' := by
  induction p with
  | operand least callable after ih => exact ih
  | rightOperand n => exact (by decide : [] ∈ (sequence [maybe expression]).matches')
  | _ => decide

/-- What may come at a place completes a word that goes on there. -/
theorem Fits.cons_mem {p : Place} (h : Fits L s p) : ∀ w ∈ p.rest.matches', s :: w ∈ L := by
  induction p generalizing s with
  | operand least callable after ih => exact ih (h.2.2 s h.1)
  | _ => exact h

theorem Fits.mono (hLM : ∀ w ∈ L, w ∈ M) {p : Place} (h : Fits L s p) : Fits M s p := by
  induction p generalizing s with
  | operand least callable after ih => exact ⟨h.1, h.2.1, fun e he => ih (h.2.2 e he)⟩
  | _ => exact fun w hw => hLM _ (h w hw)

/-- The child `s` may stand in the last of the nodes that are opened, each in the one before, and
each node may stand where it does. -/
def Opens (L : Language SyntaxKind) (stay : Place) : List Opening → SyntaxKind → Prop
  | [], s => Fits L s stay
  | o :: os, s => Fits L (.node o.1) stay ∧ Opens o.1.production.matches' o.2 os s

theorem Opens.mono (hLM : ∀ w ∈ L, w ∈ M) {stay : Place} {opened : List Opening}
    (h : Opens L stay opened s) : Opens M stay opened s := by
  cases opened with
  | nil => exact Fits.mono hLM h
  | cons o os => exact ⟨Fits.mono hLM h.1, h.2⟩

end Place

namespace Move

open Place

/-- What a token becomes a child as: itself, or the node in which it stands alone. -/
def childKind (k : TokenKind) : Option NodeKind → SyntaxKind
  | none => .token k
  | some kind => .node kind

/-- The move of a token at a place where the words of `L` may come: it puts the token where it may
stand, or leaves it to another node. -/
def Keeps (L : Language SyntaxKind) (k : TokenKind) : Move → Prop
  | take stay opened leaf => Opens L stay opened (childKind k leaf) ∧
      ∀ kind ∈ leaf, [.token k] ∈ kind.production.matches'
  | wrap _ _ _ => False
  | leave => True

variable {L M : Language SyntaxKind} {k : TokenKind}

theorem Keeps.mono (hLM : ∀ w ∈ L, w ∈ M) {m : Move} (h : m.Keeps L k) : m.Keeps M k := by
  cases m with
  | take stay opened leaf => exact ⟨Opens.mono hLM h.1, h.2⟩
  | wrap stay around opened => exact h
  | leave => trivial

theorem keeps_shift {stay : Place} (h : Fits L (.token k) stay) : (shift stay).Keeps L k :=
  ⟨h, by simp⟩

theorem keeps_enter {stay : Place} {o : Opening} (h : Fits L (.node o.1) stay)
    (ho : Fits o.1.production.matches' (.token k) o.2) : (enter stay o).Keeps L k :=
  ⟨⟨h, ho⟩, by simp⟩

theorem mem_error_production (k : TokenKind) : [.token k] ∈ NodeKind.error.production.matches' := by
  cases k <;> decide

theorem keeps_refuse {stay : Place} (h : Fits L (.node .error) stay) : (refuse stay).Keeps L k := by
  refine ⟨h, fun kind hkind => ?_⟩
  obtain rfl := Option.some.inj hkind
  exact mem_error_production k

theorem keeps_operand? {least : Nat} {after : Place} {m : Move}
    (h : operand? least after k = some m)
    (hL : ∀ e, [e] ∈ expression.matches' → Fits L e after) : m.Keeps L k := by
  unfold operand? at h
  split at h
  all_goals cases h
  · exact ⟨⟨by decide, by simp, hL⟩, by rintro kind ⟨⟩; decide⟩
  · exact ⟨⟨by decide, by simp, hL⟩, by rintro kind ⟨⟩; decide⟩
  · exact ⟨⟨by decide, fun _ => by decide, hL⟩, by rintro kind ⟨⟩; decide⟩
  · exact ⟨⟨⟨by decide, by simp, hL⟩, fun w hw => cons_mem_sequence (by decide) hw⟩, by simp⟩

theorem keeps_getD_operand? {least : Nat} {after : Place} {m : Move} (hm : m.Keeps L k)
    (hL : ∀ e, [e] ∈ expression.matches' → Fits L e after) :
    ((operand? least after k).getD m).Keeps L k := by
  cases h : operand? least after k with
  | none => exact hm
  | some m' => exact keeps_operand? h hL

theorem keeps_item {stay : Place} (hL : ∀ i, [i] ∈ Production.item.matches' → Fits L i stay)
    (k : TokenKind) : (Move.item stay k).Keeps L k := by
  unfold Move.item
  split
  · exact keeps_enter (hL _ (by decide)) fun w hw => cons_mem_sequence (by decide) hw
  · exact keeps_enter (hL _ (by decide)) fun w hw => cons_mem_sequence (by decide) hw
  · exact keeps_enter (hL _ (by decide)) fun w hw => cons_mem_sequence (by decide) hw
  · exact keeps_enter (hL _ (by decide)) fun w hw => cons_mem_sequence (by decide) hw
  · split
    next place opened leaf h =>
      -- the operand stands at the beginning of an expression statement
      have hstatement : (take place opened leaf).Keeps NodeKind.exprStmt.production.matches' _ :=
        keeps_operand? h fun e he w hw => cons_mem_sequence he hw
      exact ⟨⟨hL (.node .exprStmt) (by decide), hstatement.1⟩, hstatement.2⟩
    next => exact keeps_refuse (hL _ (by decide))

end Move

namespace Place

open Move

variable {k : TokenKind}

theorem keeps_onFuncBody (k : TokenKind) : (on.onFuncBody k).Keeps funcBody.rest.matches' k := by
  unfold on.onFuncBody
  split
  · exact keeps_enter (fun w hw => cons_mem_sequence (by decide) hw)
      fun w hw => cons_mem_sequence (by decide) hw
  · trivial

theorem keeps_onFuncResult (k : TokenKind) :
    (on.onFuncResult k).Keeps funcResult.rest.matches' k := by
  unfold on.onFuncResult
  split
  · exact keeps_enter (fun w hw => cons_mem_sequence (by decide) hw)
      fun w hw => cons_mem_sequence (by decide) hw
  · exact (keeps_onFuncBody k).mono fun _ => mem_sequence_maybe _

theorem keeps_onFuncParams (k : TokenKind) :
    (on.onFuncParams k).Keeps funcParams.rest.matches' k := by
  unfold on.onFuncParams
  split
  · exact keeps_enter (fun w hw => cons_mem_sequence (by decide) hw)
      fun w hw => cons_mem_sequence (by decide) hw
  · exact (keeps_onFuncResult k).mono fun _ => mem_sequence_maybe _

theorem keeps_onLastName (k : TokenKind) :
    (on.onLastName k).Keeps (sequence [maybe (token .ident)]).matches' k := by
  unfold on.onLastName
  split
  · exact keeps_shift fun w hw => cons_mem_sequence (by decide) hw
  · trivial

theorem keeps_onSemi (k : TokenKind) :
    (on.onSemi k).Keeps (sequence [maybe (token .semi)]).matches' k := by
  unfold on.onSemi
  split
  · exact keeps_shift fun w hw => cons_mem_sequence (by decide) hw
  · trivial

theorem keeps_onParen (k : TokenKind) : (on.onParen k).Keeps parenEnd.rest.matches' k := by
  unfold on.onParen
  split
  · exact keeps_shift fun w hw => cons_mem_sequence (by decide) hw
  · trivial

theorem keeps_onLetEquals (k : TokenKind) :
    (on.onLetEquals k).Keeps letEquals.rest.matches' k := by
  unfold on.onLetEquals
  split
  · exact keeps_shift fun w hw => cons_mem_sequence_maybe (by decide) hw
  · exact (keeps_onSemi k).mono fun _ => mem_sequence_maybe _

theorem keeps_onLetColon (k : TokenKind) :
    (on.onLetColon k).Keeps letColon.rest.matches' k := by
  unfold on.onLetColon
  split
  · exact keeps_shift fun w hw => cons_mem_sequence_maybe (by decide) hw
  · exact (keeps_onLetEquals k).mono fun _ => mem_sequence_maybe _

theorem keeps_on {p : Place} (hp : ∀ least callable after, p ≠ operand least callable after)
    (k : TokenKind) : (p.on k).Keeps p.rest.matches' k := by
  cases p with
  | ended => trivial
  | funcName =>
    unfold on
    split
    · exact keeps_shift fun w hw => cons_mem_sequence (by decide) hw
    · exact (keeps_onFuncParams k).mono fun _ => mem_sequence_maybe _
  | funcParams => exact keeps_onFuncParams k
  | funcResult => exact keeps_onFuncResult k
  | funcBody => exact keeps_onFuncBody k
  | params =>
    unfold on
    split
    · exact keeps_shift fun w hw => mem_sequence_many _ (cons_mem_sequence (by decide) hw)
    · exact keeps_enter (fun w hw => cons_mem_sequence_many (by decide) hw)
        fun w hw => cons_mem_sequence (by decide) hw
    · exact keeps_shift fun w hw => cons_mem_sequence_many (by decide) hw
    · trivial
    · split
      · trivial
      · exact keeps_refuse fun w hw => cons_mem_sequence_many (by decide) hw
  | paramColon =>
    unfold on
    split
    · exact keeps_shift fun w hw => cons_mem_sequence_maybe (by decide) hw
    · trivial
  | paramType => exact keeps_onLastName k
  | resultName => exact keeps_onLastName k
  | blockItems =>
    unfold on
    split
    · exact keeps_shift fun w hw => mem_sequence_many _ (cons_mem_sequence (by decide) hw)
    · refine keeps_item ?_ k
      exact fun i hi w hw => cons_mem_sequence_many hi hw
  | letName =>
    unfold on
    split
    · exact keeps_shift fun w hw => cons_mem_sequence (by decide) hw
    · exact (keeps_onLetColon k).mono fun _ => mem_sequence_maybe _
  | letColon => exact keeps_onLetColon k
  | letType =>
    unfold on
    split
    · exact keeps_shift fun w hw => cons_mem_sequence (by decide) hw
    · exact (keeps_onLetEquals k).mono fun _ => mem_sequence_maybe _
  | letEquals => exact keeps_onLetEquals k
  | letValue | returnValue =>
    exact keeps_getD_operand? ((keeps_onSemi k).mono fun _ => mem_sequence_maybe _)
      fun e he w hw => cons_mem_sequence (.inr he) hw
  | letEnd => exact keeps_onSemi k
  | returnEnd => exact keeps_onSemi k
  | statementEnd => exact keeps_onSemi k
  | rightOperand precedence =>
    exact keeps_getD_operand? (m := .leave) trivial fun e he w hw => cons_mem_sequence (.inr he) hw
  | arguments =>
    unfold on
    split
    · exact keeps_shift fun w hw => mem_sequence_many _ (cons_mem_sequence (by decide) hw)
    · exact keeps_shift fun w hw => cons_mem_sequence_many (by decide) hw
    · trivial
    · refine keeps_getD_operand? ?_ fun e he w hw => cons_mem_sequence_many (.inl he) hw
      split
      · trivial
      · exact keeps_refuse fun w hw => cons_mem_sequence_many (by decide) hw
  | parenValue =>
    exact keeps_getD_operand? ((keeps_onParen k).mono fun _ => mem_sequence_maybe _)
      fun e he w hw => cons_mem_sequence (.inr he) hw
  | parenEnd => exact keeps_onParen k
  | operand least callable after => exact absurd rfl (hp least callable after)

/-- The move of a token at a place, given the last child `s`: the words that it began in `L` go on
with the token, or with a new node that takes `s` as its first child. -/
def Continues (L : Language SyntaxKind) (s : SyntaxKind) (k : TokenKind) : Move → Prop
  | .wrap stay around opened => Fits L (.node around.1) stay ∧
      Opens (around.1.production.matches'.leftQuotient [s]) around.2 opened (.token k)
  | m => m.Keeps (L.leftQuotient [s]) k

theorem continues_of_keeps {L : Language SyntaxKind} {s : SyntaxKind} {m : Move}
    (h : m.Keeps (L.leftQuotient [s]) k) : Continues L s k m := by
  cases m with
  | take stay opened leaf => exact h
  | wrap stay around opened => exact h.elim
  | leave => trivial

theorem mem_operator_of_precedence? {n : Nat} (h : k.precedence? = some n) :
    [.token k] ∈ operator.matches' := by
  unfold TokenKind.precedence? at h
  split at h
  · decide
  · decide
  · decide
  · decide
  · simp at h

/-- Every move of the table keeps to the productions. -/
theorem on_continues {L : Language SyntaxKind} {s : SyntaxKind} {p : Place} (h : Fits L s p)
    (k : TokenKind) : Continues L s k (p.on k) := by
  induction p with
  | operand least callable after ih =>
    obtain ⟨hs, hcallee, hafter⟩ := h
    rw [on]
    split
    next hcall =>
      obtain ⟨rfl, rfl⟩ : callable = true ∧ k = .lparen := by simpa using hcall
      refine ⟨⟨by decide, fun _ => by decide, hafter⟩, ?_, ?_⟩
      · exact fun w hw => cons_mem_sequence (hcallee rfl) (cons_mem_sequence (by decide) hw)
      · exact fun w hw => cons_mem_sequence (by decide) hw
    next =>
      split
      next n hn =>
        split
        next =>
          have hbinary : [.node .binExpr] ∈ expression.matches' := by decide
          refine ⟨⟨hbinary, by simp, hafter⟩, ?_⟩
          exact fun w hw =>
            cons_mem_sequence hs (cons_mem_sequence (mem_operator_of_precedence? hn) hw)
        next => exact ih (hafter s hs)
      next => exact ih (hafter s hs)
  | _ => exact continues_of_keeps ((keeps_on (by simp) k).mono h.cons_mem)

end Place

end IncrementalSyntax
