/-!
Kinds of tokens and nodes. Every kind has a name, used when a tree is written out, and a code, its
place in the list of all kinds: tokens first, then the end of the text, then nodes.
-/
namespace IncrementalSyntax

inductive TokenKind where
  | whitespace | newline | comment
  | funcKw | letKw | varKw | returnKw
  | ident | int | str
  | lparen | rparen | lbrace | rbrace | comma | colon | semi | equals | arrow
  | plus | minus | star | slash
  /-- Characters that start no token. -/
  | unknown
  deriving DecidableEq, Repr

inductive NodeKind where
  | sourceFile
  | funcDecl | paramList | param | retType | block
  | letDecl | returnStmt | exprStmt
  | literal | nameRef | callExpr | argList | binExpr | parenExpr
  | error
  deriving DecidableEq, Repr

/-- What an element of a tree is; `endOfText` labels no element. -/
inductive SyntaxKind where
  | token (kind : TokenKind)
  | endOfText
  | node (kind : NodeKind)
  deriving DecidableEq, Repr

namespace TokenKind

/-- Blanks, newlines and comments: they may stand anywhere and mean nothing. -/
def isTrivia : TokenKind → Bool
  | whitespace | newline | comment => true
  | _ => false

def isKeyword : TokenKind → Bool
  | funcKw | letKw | varKw | returnKw => true
  | _ => false

/-- Tokens that begin a declaration or bound a block; a list stops at them. -/
def isRecovery : TokenKind → Bool
  | lbrace | rbrace => true
  | k => k.isKeyword

def name : TokenKind → String
  | whitespace => "Whitespace"
  | newline => "Newline"
  | comment => "Comment"
  | funcKw => "FuncKw"
  | letKw => "LetKw"
  | varKw => "VarKw"
  | returnKw => "ReturnKw"
  | ident => "Ident"
  | int => "Int"
  | str => "Str"
  | lparen => "LParen"
  | rparen => "RParen"
  | lbrace => "LBrace"
  | rbrace => "RBrace"
  | comma => "Comma"
  | colon => "Colon"
  | semi => "Semi"
  | equals => "Eq"
  | arrow => "Arrow"
  | plus => "Plus"
  | minus => "Minus"
  | star => "Star"
  | slash => "Slash"
  | unknown => "ErrorToken"

def all : List TokenKind :=
  [whitespace, newline, comment, funcKw, letKw, varKw, returnKw, ident, int, str,
    lparen, rparen, lbrace, rbrace, comma, colon, semi, equals, arrow, plus, minus, star, slash,
    unknown]

theorem mem_all (k : TokenKind) : k ∈ all := by cases k <;> decide

end TokenKind

namespace NodeKind

def name : NodeKind → String
  | sourceFile => "SourceFile"
  | funcDecl => "FuncDecl"
  | paramList => "ParamList"
  | param => "Param"
  | retType => "RetType"
  | block => "Block"
  | letDecl => "LetDecl"
  | returnStmt => "ReturnStmt"
  | exprStmt => "ExprStmt"
  | literal => "Literal"
  | nameRef => "NameRef"
  | callExpr => "CallExpr"
  | argList => "ArgList"
  | binExpr => "BinExpr"
  | parenExpr => "ParenExpr"
  | error => "Error"

def all : List NodeKind :=
  [sourceFile, funcDecl, paramList, param, retType, block, letDecl, returnStmt, exprStmt,
    literal, nameRef, callExpr, argList, binExpr, parenExpr, error]

theorem mem_all (k : NodeKind) : k ∈ all := by cases k <;> decide

end NodeKind

namespace SyntaxKind

def name : SyntaxKind → String
  | token k => k.name
  | endOfText => "Eof"
  | node k => k.name

def isTrivia : SyntaxKind → Bool
  | token k => k.isTrivia
  | _ => false

def isKeyword : SyntaxKind → Bool
  | token k => k.isKeyword
  | _ => false

def isToken : SyntaxKind → Bool
  | token _ => true
  | _ => false

def all : List SyntaxKind := TokenKind.all.map token ++ endOfText :: NodeKind.all.map node

/-- The number of a kind: its place in the list of all kinds. -/
def code (k : SyntaxKind) : Nat := all.idxOf k

/-- The kind with a number; numbers that stand for none are read as an error node. -/
def ofCode (n : Nat) : SyntaxKind := all.getD n (node .error)

theorem mem_all (k : SyntaxKind) : k ∈ all := by
  cases k with
  | token k => simp [all, TokenKind.mem_all]
  | endOfText => simp [all]
  | node k => simp [all, NodeKind.mem_all]

theorem ofCode_code (k : SyntaxKind) : ofCode k.code = k := by
  have h : all.idxOf k < all.length := List.idxOf_lt_length_of_mem (mem_all k)
  simp [ofCode, code, List.getD_eq_getElem?_getD, List.getElem?_eq_getElem h]

end SyntaxKind

end IncrementalSyntax
