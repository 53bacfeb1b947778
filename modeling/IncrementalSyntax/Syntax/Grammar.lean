import IncrementalSyntax.Syntax.Kind

/-!
The grammar, as a table. An item is read from left to right with one open node per level of
nesting; the `Place` of an open node says which parts of its production are still to come, and
`Place.on` says what the next token that is not trivia does there. Every part may be missing: a
token that does not fit ends the node instead of failing.

    item        = func | let | return | expr statement | one token in an error node
    func        = `func` name? params? result? block?
    params      = `(` (param | `,`)* `)`?          param  = name (`:` name?)?
    result      = `->` name?                       block  = `{` item* `}`?
    let         = (`let` | `var`) name? (`:` name?)? (`=` expr?)? `;`?
    return      = `return` expr? `;`?              expr statement = expr `;`?
    expr        = operand (operator expr?)*        operator = `+` `-` (1), `*` `/` (2)
    operand     = literal | name arguments* | `(` expr? `)`?
    arguments   = `(` (expr | `,`)* `)`?
-/
namespace IncrementalSyntax

/-- How tightly an operator binds. -/
def TokenKind.precedence? : TokenKind → Option Nat
  | plus | minus => some 1
  | star | slash => some 2
  | _ => none

/-- Where the reader stands in an open node: what may come next in it. -/
inductive Place where
  /-- Nothing more: the node ends here. -/
  | ended
  | funcName | funcParams | funcResult | funcBody
  | params
  | paramColon | paramType
  | resultName
  | blockItems
  | letName | letColon | letType | letEquals | letValue | letEnd
  | returnValue | returnEnd
  | statementEnd
  | rightOperand (precedence : Nat)
  | arguments
  | parenValue | parenEnd
  /-- The last child is an operand, which an operator that binds at least as tightly as `least`
  may still take as its left side and, if it is `callable`, a parenthesis as what it calls;
  otherwise the node goes on at `after`. -/
  | operand (least : Nat) (callable : Bool) (after : Place)
  deriving DecidableEq, Repr

abbrev Opening := NodeKind × Place

/-- What a token does at a place. -/
inductive Move where
  /-- The node goes on at `stay`; inside it the nodes `opened` are opened, each in the one before,
  and the token goes into the last of them, alone in a node of kind `leaf` if there is one. -/
  | take (stay : Place) (opened : List Opening) (leaf : Option NodeKind)
  /-- The last child of the node becomes the first child of a new node `around`; in that one the
  nodes `opened` are opened, and the token goes into the last of them. The node goes on at `stay`
  when the new one has ended. -/
  | wrap (stay : Place) (around : Opening) (opened : List Opening)
  /-- The node ends, and the token is for the node around it. -/
  | leave
  deriving DecidableEq, Repr

namespace Move

/-- The token is the next child, and the node goes on at `stay`. -/
def shift (stay : Place) : Move := .take stay [] none

/-- The token begins an inner node. -/
def enter (stay : Place) (opened : Opening) : Move := .take stay [opened] none

/-- The token is out of place and stands alone in an error node. -/
def refuse (stay : Place) : Move := .take stay [] (some .error)

/-- An operand, if the token begins one: a literal, a name or a parenthesis. The node goes on at
`after`, once operators that bind at least as tightly as `least` have been given the operand. -/
def operand? (least : Nat) (after : Place) : TokenKind → Option Move
  | .int | .str => some (.take (.operand least false after) [] (some .literal))
  | .ident => some (.take (.operand least true after) [] (some .nameRef))
  | .lparen => some (.take (.operand least false after) [(.parenExpr, .parenValue)] none)
  | _ => none

def expression? (after : Place) (k : TokenKind) : Option Move := operand? 1 after k

/-- An item. The token says which one: a declaration by its keyword, an expression statement by
its first operand, and any other token is an item of its own, in an error node. -/
def item (stay : Place) : TokenKind → Move
  | .funcKw => enter stay (.funcDecl, .funcName)
  | .letKw | .varKw => enter stay (.letDecl, .letName)
  | .returnKw => enter stay (.returnStmt, .returnValue)
  | k =>
    match expression? .statementEnd k with
    | some (.take place opened leaf) => .take stay ((.exprStmt, place) :: opened) leaf
    | _ => refuse stay

end Move

namespace Place

open Move

/-- What a token that is not trivia does at a place. -/
def on : Place → TokenKind → Move
  | ended, _ => .leave
  | funcName, k =>
    match k with
    | .ident => shift funcParams
    | k => onFuncParams k
  | funcParams, k => onFuncParams k
  | funcResult, k => onFuncResult k
  | funcBody, k => onFuncBody k
  | params, k =>
    match k with
    | .rparen => shift ended
    | .ident => enter params (.param, paramColon)
    | .comma => shift params
    | .arrow => .leave
    | k => if k.isRecovery then .leave else refuse params
  | paramColon, k =>
    match k with
    | .colon => shift paramType
    | _ => .leave
  | paramType, k => onLastName k
  | resultName, k => onLastName k
  | blockItems, k =>
    match k with
    | .rbrace => shift ended
    | k => item blockItems k
  | letName, k =>
    match k with
    | .ident => shift letColon
    | k => onLetColon k
  | letColon, k => onLetColon k
  | letType, k =>
    match k with
    | .ident => shift letEquals
    | k => onLetEquals k
  | letEquals, k => onLetEquals k
  | letValue, k => (expression? letEnd k).getD (onSemi k)
  | letEnd, k => onSemi k
  | returnValue, k => (expression? returnEnd k).getD (onSemi k)
  | returnEnd, k => onSemi k
  | statementEnd, k => onSemi k
  | rightOperand p, k => (operand? (p + 1) ended k).getD .leave
  | arguments, k =>
    match k with
    | .rparen => shift ended
    | .comma => shift arguments
    | .semi => .leave
    | k =>
      (expression? arguments k).getD (if k.isRecovery then .leave else refuse arguments)
  | parenValue, k => (expression? parenEnd k).getD (onParen k)
  | parenEnd, k => onParen k
  | operand least callable after, k =>
    if callable && k = .lparen then
      .wrap (operand least true after) (.callExpr, ended) [(.argList, arguments)]
    else
      match k.precedence? with
      | some p =>
        if least ≤ p then .wrap (operand least false after) (.binExpr, rightOperand p) []
        else after.on k
      | none => after.on k
where
  onFuncBody : TokenKind → Move
    | .lbrace => enter ended (.block, blockItems)
    | _ => .leave
  onFuncResult : TokenKind → Move
    | .arrow => enter funcBody (.retType, resultName)
    | k => onFuncBody k
  onFuncParams : TokenKind → Move
    | .lparen => enter funcResult (.paramList, params)
    | k => onFuncResult k
  onLastName : TokenKind → Move
    | .ident => shift ended
    | _ => .leave
  onSemi : TokenKind → Move
    | .semi => shift ended
    | _ => .leave
  onLetEquals : TokenKind → Move
    | .equals => shift letValue
    | k => onSemi k
  onLetColon : TokenKind → Move
    | .colon => shift letType
    | k => onLetEquals k
  onParen : TokenKind → Move
    | .rparen => shift ended
    | _ => .leave

end Place

end IncrementalSyntax
