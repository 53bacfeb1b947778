import IncrementalSyntax.Text.Basic
import IncrementalSyntax.Syntax.Kind

/-!
Tokens. The first character of a text decides what the first token is, and `lexeme` says how many
more characters belong to it: as many as its pattern can take. Characters that start no token are
collected in runs, so that no character is lost and the texts of the tokens, put together, are the
text again.
-/
namespace IncrementalSyntax

structure Token where
  kind : TokenKind
  text : Text
  deriving DecidableEq, Repr

namespace Token

def size (t : Token) : Nat := t.text.size

def sizeOfAll : List Token → Nat
  | [] => 0
  | t :: ts => t.size + sizeOfAll ts

def textOfAll (ts : List Token) : Text := ts.flatMap text

@[simp] theorem sizeOfAll_nil : sizeOfAll [] = 0 := rfl

@[simp] theorem sizeOfAll_cons (t : Token) (ts : List Token) :
    sizeOfAll (t :: ts) = t.size + sizeOfAll ts := rfl

@[simp] theorem sizeOfAll_append (ts us : List Token) :
    sizeOfAll (ts ++ us) = sizeOfAll ts + sizeOfAll us := by
  induction ts with
  | nil => simp
  | cons t ts ih => simp [ih, Nat.add_assoc]

def isBlank (c : Char) : Bool := c = ' ' || c = '\t' || c = '\r'

def isNameStart (c : Char) : Bool := c.isAlpha || c = '_'

def isNamePart (c : Char) : Bool := c.isAlphanum || c = '_'

/-- The kind of a word: one of the four keywords, or a name. -/
def wordKind (word : Text) : TokenKind :=
  if word = "func".toList then .funcKw
  else if word = "let".toList then .letKw
  else if word = "var".toList then .varKw
  else if word = "return".toList then .returnKw
  else .ident

/-- The tokens that are one character and begin no longer token. -/
def punctuation? (c : Char) : Option TokenKind :=
  if c = '(' then some .lparen
  else if c = ')' then some .rparen
  else if c = '\x7b' then some .lbrace
  else if c = '\x7d' then some .rbrace
  else if c = ',' then some .comma
  else if c = ':' then some .colon
  else if c = ';' then some .semi
  else if c = '=' then some .equals
  else if c = '+' then some .plus
  else if c = '*' then some .star
  else none

/-- Whether no token begins with the character. -/
def isUnknown (c : Char) : Bool :=
  !(isBlank c || c = '\n' || c = '/' || isNameStart c || c.isDigit || c = '"' || c = '-' ||
    (punctuation? c).isSome)

/-- How many leading characters satisfy `p`. -/
def run (p : Char → Bool) (t : Text) : Nat := (t.takeWhile p).length

/-- How many characters after an opening quote belong to the string. A backslash takes the next
character with it, unless that is a newline or missing: then the string stops before the
backslash. Without a closing quote the string stops at the end of its line. -/
def stringTail : Text → Nat
  | [] => 0
  | c :: t =>
    if c = '"' then 1
    else if c = '\n' then 0
    else if c = '\\' then
      match t with
      | [] => 0
      | d :: t => if d = '\n' then 0 else stringTail t + 2
    else stringTail t + 1

/-- The kind of the token that begins with `c`, and how many of the characters after `c` belong to
it. -/
def lexeme (c : Char) (rest : Text) : TokenKind × Nat :=
  if isBlank c then (.whitespace, run isBlank rest)
  else if c = '\n' then (.newline, 0)
  else if c = '/' then
    if rest.head? = some '/' then (.comment, run (· ≠ '\n') rest) else (.slash, 0)
  else if isNameStart c then
    (wordKind (c :: rest.takeWhile isNamePart), run isNamePart rest)
  else if c.isDigit then (.int, run Char.isDigit rest)
  else if c = '"' then (.str, stringTail rest)
  else if c = '-' then
    if rest.head? = some '>' then (.arrow, 1) else (.minus, 0)
  else
    match punctuation? c with
    | some kind => (kind, 0)
    | none => (.unknown, run isUnknown rest)

end Token

def tokenize : Text → List Token
  | [] => []
  | c :: rest =>
    let (kind, n) := Token.lexeme c rest
    ⟨kind, c :: rest.take n⟩ :: tokenize (rest.drop n)
termination_by t => t.length
decreasing_by
  rw [List.length_drop, List.length_cons]
  omega

@[simp] theorem tokenize_nil : tokenize [] = [] := by rw [tokenize]

theorem tokenize_cons (c : Char) (rest : Text) :
    tokenize (c :: rest) =
      ⟨(Token.lexeme c rest).1, c :: rest.take (Token.lexeme c rest).2⟩ ::
        tokenize (rest.drop (Token.lexeme c rest).2) := by
  rw [tokenize]

theorem textOfAll_tokenize (t : Text) : Token.textOfAll (tokenize t) = t := by
  induction h : t.length using Nat.strongRecOn generalizing t with
  | ind n ih =>
    cases t with
    | nil => simp [Token.textOfAll]
    | cons c rest =>
      have hlt : (rest.drop (Token.lexeme c rest).2).length < n := by
        rw [List.length_cons] at h
        rw [List.length_drop]
        omega
      have := ih _ hlt _ rfl
      simp only [Token.textOfAll] at this
      simp [tokenize_cons, Token.textOfAll, this]

end IncrementalSyntax
