import Mathlib.Computability.Language
import IncrementalSyntax.Proofs.Syntax.Places

/-!
The lexicon of the language. Every kind of tokens has a pattern, the language of the texts that such
a token may have. The first token of a text is the longest beginning that any pattern matches, and
where a keyword and a name are equally long it is the keyword (`yields_of_match`). A character where
no pattern matches is one that starts no token (`unmatched_iff`), and such characters are collected
until a pattern matches again (`unmatchedRun_of_tokenize`). The tokens of a text tile it, and from
the start of any of them on they are the tokens of the text that is left (`tokenize_longest_match`).
-/
namespace IncrementalSyntax

open scoped Computability

/-- The texts that a token may have. -/
abbrev Pattern := Language Char

namespace Pattern

def one (P : Char → Prop) : Pattern := {w | ∃ c, P c ∧ w = [c]}

def oneOf (cs : List Char) : Pattern := one (· ∈ cs)

def noneOf (cs : List Char) : Pattern := one (· ∉ cs)

def oneFrom (first last : Char) : Pattern := one fun c => first ≤ c ∧ c ≤ last

def exactly (s : String) : Pattern := {s.toList}

def many (p : Pattern) : Pattern := p∗

def several (p : Pattern) : Pattern := p * many p

def maybe (p : Pattern) : Pattern := 1 + p

/-- What may follow the opening quote of a string. -/
def stringRest : Pattern :=
  many (noneOf ['"', '\\', '\n'] + exactly "\\" * noneOf ['\n']) * maybe (exactly "\"")

variable {P Q : Char → Prop} {p : Pattern} {w : Text}

theorem mem_one_mul : w ∈ one P * p ↔ ∃ c v, P c ∧ v ∈ p ∧ w = c :: v := by
  rw [Language.mem_mul]
  constructor
  · rintro ⟨-, ⟨c, hc, rfl⟩, v, hv, rfl⟩
    exact ⟨c, v, hc, hv, rfl⟩
  · rintro ⟨c, v, hc, hv, rfl⟩
    exact ⟨[c], ⟨c, hc, rfl⟩, v, hv, rfl⟩

theorem mem_many_one : w ∈ many (one P) ↔ ∀ c ∈ w, P c := by
  rw [many, Language.mem_kstar]
  constructor
  · rintro ⟨ws, rfl, hws⟩ c hc
    obtain ⟨v, hv, hc⟩ := List.mem_flatten.mp hc
    obtain ⟨d, hd, rfl⟩ := hws v hv
    rwa [List.mem_singleton.mp hc]
  · intro h
    refine ⟨w.map fun c => [c], (List.flatMap_singleton' w).symm, ?_⟩
    intro v hv
    obtain ⟨c, hc, rfl⟩ := List.mem_map.mp hv
    exact ⟨c, h c hc, rfl⟩

theorem one_add_one (P Q : Char → Prop) : one P + one Q = one fun c => P c ∨ Q c := by
  ext w
  rw [Language.mem_add]
  constructor
  · rintro (⟨c, hc, rfl⟩ | ⟨c, hc, rfl⟩)
    · exact ⟨c, .inl hc, rfl⟩
    · exact ⟨c, .inr hc, rfl⟩
  · rintro ⟨c, hc | hc, rfl⟩
    · exact .inl ⟨c, hc, rfl⟩
    · exact .inr ⟨c, hc, rfl⟩

theorem mem_exactly {s : String} : w ∈ exactly s ↔ w = s.toList := Iff.rfl

theorem exactly_eq_one (c : Char) : exactly (String.ofList [c]) = one (· = c) := by
  ext w
  rw [mem_exactly, String.toList_ofList]
  exact ⟨fun h => ⟨c, rfl, h⟩, by rintro ⟨d, rfl, h⟩; exact h⟩

/-- A string goes on by a plain character or by a backslash and the character after it. -/
theorem mem_stringRest : w ∈ stringRest ↔
    w = [] ∨ w = ['"'] ∨ (∃ c v, c ∉ ['"', '\\', '\n'] ∧ v ∈ stringRest ∧ w = c :: v) ∨
      ∃ d v, d ≠ '\n' ∧ v ∈ stringRest ∧ w = '\\' :: d :: v := by
  have hunroll : stringRest = maybe (exactly "\"") +
      (noneOf ['"', '\\', '\n'] * stringRest + exactly "\\" * (noneOf ['\n'] * stringRest)) := by
    conv_lhs => rw [stringRest, many, ← Language.one_add_self_mul_kstar_eq_kstar]
    rw [add_mul, one_mul, mul_assoc, add_mul, mul_assoc (exactly "\\")]
    rfl
  have hbackslash : exactly "\\" = one (· = '\\') := exactly_eq_one '\\'
  conv_lhs => rw [hunroll, hbackslash]
  rw [Language.mem_add, Language.mem_add, maybe, Language.mem_add, noneOf, noneOf, mem_one_mul,
    mem_one_mul, Language.mem_one, mem_exactly, or_assoc]
  refine or_congr Iff.rfl (or_congr Iff.rfl (or_congr Iff.rfl ?_))
  constructor
  · rintro ⟨c, v, rfl, hv, rfl⟩
    obtain ⟨d, u, hd, hu, rfl⟩ := mem_one_mul.mp hv
    exact ⟨d, u, by simpa using hd, hu, rfl⟩
  · rintro ⟨d, u, hd, hu, rfl⟩
    exact ⟨'\\', d :: u, rfl, mem_one_mul.mpr ⟨d, u, by simpa using hd, hu, rfl⟩, rfl⟩

end Pattern

open Pattern

def TokenKind.pattern : TokenKind → Pattern
  | whitespace => several (oneOf [' ', '\t', '\r'])
  | newline => exactly "\n"
  | comment => exactly "//" * many (noneOf ['\n'])
  | funcKw => exactly "func"
  | letKw => exactly "let"
  | varKw => exactly "var"
  | returnKw => exactly "return"
  | ident => (oneFrom 'A' 'Z' + oneFrom 'a' 'z' + oneOf ['_']) *
      many (oneFrom 'A' 'Z' + oneFrom 'a' 'z' + oneFrom '0' '9' + oneOf ['_'])
  | int => several (oneFrom '0' '9')
  | str => exactly "\"" * many (noneOf ['"', '\\', '\n'] + exactly "\\" * noneOf ['\n']) *
      maybe (exactly "\"")
  | lparen => exactly "("
  | rparen => exactly ")"
  | lbrace => exactly "\x7b"
  | rbrace => exactly "\x7d"
  | comma => exactly ","
  | colon => exactly ":"
  | semi => exactly ";"
  | equals => exactly "="
  | arrow => exactly "->"
  | plus => exactly "+"
  | minus => exactly "-"
  | star => exactly "*"
  | slash => exactly "/"
  | unknown => 0

namespace Token

/-- A span: a first character with a property and more characters with another. -/
def span (p q : Char → Bool) : Pattern := one (p · = true) * many (one (q · = true))

theorem pattern_whitespace : TokenKind.whitespace.pattern = span isBlank isBlank := by
  have hblank : oneOf [' ', '\t', '\r'] = one (isBlank · = true) :=
    congrArg one (funext fun c => by simp [isBlank, or_assoc])
  rw [TokenKind.pattern, several, hblank, span]

theorem isDigit_iff {c : Char} : c.isDigit = true ↔ '0' ≤ c ∧ c ≤ '9' := by
  simp [Char.isDigit, Char.le_def]

theorem isAlpha_iff {c : Char} : c.isAlpha = true ↔ ('A' ≤ c ∧ c ≤ 'Z') ∨ ('a' ≤ c ∧ c ≤ 'z') := by
  have hupper : c.isUpper = decide ('A' ≤ c ∧ c ≤ 'Z') := rfl
  have hlower : c.isLower = (decide ('a' ≤ c) && decide (c ≤ 'z')) := rfl
  have halpha : c.isAlpha = (c.isUpper || c.isLower) := rfl
  rw [halpha, hupper, hlower, Bool.or_eq_true, Bool.and_eq_true, decide_eq_true_iff,
    decide_eq_true_iff, decide_eq_true_iff]

theorem pattern_int : TokenKind.int.pattern = span Char.isDigit Char.isDigit := by
  have hdigit : oneFrom '0' '9' = one (Char.isDigit · = true) :=
    congrArg one (funext fun c => propext isDigit_iff.symm)
  rw [TokenKind.pattern, several, hdigit, span]

theorem pattern_ident : TokenKind.ident.pattern = span isNameStart isNamePart := by
  have hstart : oneFrom 'A' 'Z' + oneFrom 'a' 'z' + oneOf ['_'] = one (isNameStart · = true) := by
    rw [oneFrom, oneFrom, oneOf, one_add_one, one_add_one]
    exact congrArg one (funext fun c => by simp [isNameStart, isAlpha_iff])
  have hpart : oneFrom 'A' 'Z' + oneFrom 'a' 'z' + oneFrom '0' '9' + oneOf ['_'] =
      one (isNamePart · = true) := by
    rw [oneFrom, oneFrom, oneFrom, oneOf, one_add_one, one_add_one, one_add_one]
    exact congrArg one (funext fun c => by
      simp [isNamePart, Char.isAlphanum, isAlpha_iff, isDigit_iff])
  rw [TokenKind.pattern, hstart, hpart, span]

variable {p q : Char → Bool} {c : Char} {rest w : Text}

theorem take_run (q : Char → Bool) (rest : Text) : rest.take (run q rest) = rest.takeWhile q :=
  (List.prefix_iff_eq_take.mp (List.takeWhile_prefix q)).symm

/-- A beginning of characters with a property is no longer than the run of them. -/
theorem length_le_run (hw : ∀ c ∈ w, q c = true) (hbegins : w <+: rest) :
    w.length ≤ run q rest := by
  obtain ⟨after, rfl⟩ := hbegins
  rw [run, List.takeWhile_append_of_pos hw, List.length_append]
  exact Nat.le_add_right _ _

theorem take_run_mem_span (hc : p c = true) : c :: rest.take (run q rest) ∈ span p q := by
  refine mem_one_mul.mpr ⟨c, _, hc, mem_many_one.mpr ?_, rfl⟩
  rw [take_run]
  exact List.all_eq_true.mp List.all_takeWhile

theorem of_mem_span (hw : w ∈ span p q) (hbegins : w <+: c :: rest) :
    p c = true ∧ w.length ≤ run q rest + 1 := by
  obtain ⟨d, v, hd, hv, rfl⟩ := mem_one_mul.mp hw
  obtain ⟨rfl, hv'⟩ := List.cons_prefix_cons.mp hbegins
  exact ⟨hd, Nat.succ_le_succ (length_le_run (mem_many_one.mp hv) hv')⟩

theorem pattern_str : TokenKind.str.pattern = one (· = '"') * stringRest := by
  rw [TokenKind.pattern, mul_assoc, ← stringRest]
  exact congrArg (· * stringRest) (exactly_eq_one '"')

theorem stringTail_quote (t : Text) : stringTail ('"' :: t) = 1 := by rw [stringTail.eq_def]; simp

theorem stringTail_escape {d : Char} (h : d ≠ '\n') (t : Text) :
    stringTail ('\\' :: d :: t) = stringTail t + 2 := by simp [stringTail, h]

theorem stringTail_plain (h : c ∉ ['"', '\\', '\n']) (t : Text) :
    stringTail (c :: t) = stringTail t + 1 := by
  simp only [List.mem_cons, List.not_mem_nil, or_false, not_or] at h
  rw [stringTail.eq_def]
  simp [h]

/-- What is taken after an opening quote may stand there. -/
theorem take_stringTail_mem (rest : Text) : rest.take (stringTail rest) ∈ stringRest := by
  fun_induction stringTail rest with
  | case1 => exact mem_stringRest.mpr (.inl rfl)
  | case2 t => exact mem_stringRest.mpr (.inr (.inl rfl))
  | case3 t hquote => exact mem_stringRest.mpr (.inl rfl)
  | case4 => exact mem_stringRest.mpr (.inl rfl)
  | case5 t => exact mem_stringRest.mpr (.inl rfl)
  | case6 d t hd hquote hnewline ih =>
    exact mem_stringRest.mpr (.inr (.inr (.inr ⟨d, _, hd, ih, rfl⟩)))
  | case7 c t hquote hnewline hbackslash ih =>
    exact mem_stringRest.mpr (.inr (.inr (.inl ⟨c, _, by simp [*], ih, rfl⟩)))

/-- Nothing longer may stand there. -/
theorem length_le_stringTail {rest w : Text} (hw : w ∈ stringRest) (hbegins : w <+: rest) :
    w.length ≤ stringTail rest := by
  induction hlength : w.length using Nat.strongRecOn generalizing w rest with
  | ind n ih =>
    obtain rfl | rfl | ⟨c, v, hc, hv, rfl⟩ | ⟨d, v, hd, hv, rfl⟩ := mem_stringRest.mp hw
    · rw [← hlength]
      exact Nat.zero_le _
    · obtain ⟨after, rfl⟩ := hbegins
      rw [← hlength, List.singleton_append, stringTail_quote]
      exact Nat.le_refl 1
    · obtain ⟨after, rfl⟩ := hbegins
      rw [List.length_cons] at hlength
      have := ih v.length (by omega) hv (List.prefix_append v after) rfl
      rw [List.cons_append, stringTail_plain hc]
      omega
    · obtain ⟨after, rfl⟩ := hbegins
      rw [List.length_cons, List.length_cons] at hlength
      have := ih v.length (by omega) hv (List.prefix_append v after) rfl
      rw [List.cons_append, List.cons_append, stringTail_escape hd]
      omega

theorem ne_of_holds (h : p c = true) (d : Char) (hd : p d = false := by decide) : c ≠ d := by
  rintro rfl
  simp [h] at hd

theorem lexeme_of_blank (h : isBlank c = true) :
    lexeme c rest = (.whitespace, run isBlank rest) := by simp [lexeme, h]

theorem lexeme_of_nameStart (h : isNameStart c = true) :
    lexeme c rest = (wordKind (c :: rest.takeWhile isNamePart), run isNamePart rest) := by
  have hblank : isBlank c = false := by
    simp [isBlank, ne_of_holds h ' ', ne_of_holds h '\t', ne_of_holds h '\r']
  simp [lexeme, hblank, ne_of_holds h '\n', ne_of_holds h '/', h]

theorem lexeme_of_digit (h : c.isDigit = true) :
    lexeme c rest = (.int, run Char.isDigit rest) := by
  have hblank : isBlank c = false := by
    simp [isBlank, ne_of_holds h ' ', ne_of_holds h '\t', ne_of_holds h '\r']
  have halpha : ¬ c.isAlpha = true := by
    have hnine := (isDigit_iff.mp h).2
    rw [isAlpha_iff]
    rintro (⟨hle, -⟩ | ⟨hle, -⟩)
    · exact absurd (Char.le_trans hle hnine) (by decide)
    · exact absurd (Char.le_trans hle hnine) (by decide)
  have hname : isNameStart c = false := by simp [isNameStart, halpha, ne_of_holds h '_']
  simp [lexeme, hblank, hname, ne_of_holds h '\n', ne_of_holds h '/', h]

theorem mem_pattern_wordKind (h : w ∈ TokenKind.ident.pattern) : w ∈ (wordKind w).pattern := by
  rw [wordKind]
  split_ifs with hfunc hlet hvar hreturn
  · exact hfunc
  · exact hlet
  · exact hvar
  · exact hreturn
  · exact h

theorem mem_pattern_punctuation {k : TokenKind} : punctuation? c = some k → [c] ∈ k.pattern := by
  fun_cases punctuation? c with
  | case11 => simp
  | _ =>
    intro hk
    obtain rfl := Option.some.inj hk
    subst c
    exact rfl

theorem mem_pattern_comment :
    w ∈ TokenKind.comment.pattern ↔ ∃ v, (∀ c ∈ v, c ≠ '\n') ∧ w = '/' :: '/' :: v := by
  rw [TokenKind.pattern, Language.mem_mul]
  constructor
  · rintro ⟨-, rfl, v, hv, rfl⟩
    exact ⟨v, by simpa [noneOf] using mem_many_one.mp hv, rfl⟩
  · rintro ⟨v, hv, rfl⟩
    exact ⟨"//".toList, rfl, v, mem_many_one.mpr (by simpa using hv), rfl⟩

theorem lexeme_mem_pattern (c : Char) (rest : Text) : (lexeme c rest).1 ≠ .unknown →
    c :: rest.take (lexeme c rest).2 ∈ (lexeme c rest).1.pattern := by
  fun_cases lexeme c rest with
  | case1 hblank =>
    intro _
    rw [pattern_whitespace]
    exact take_run_mem_span hblank
  | case2 _ hc => exact fun _ => hc ▸ rfl
  | case3 _ _ hc hslash =>
    intro _
    subst hc
    obtain ⟨after, rfl⟩ := List.head?_eq_some_iff.mp hslash
    refine mem_pattern_comment.mpr ⟨after.take (run (· ≠ '\n') after), ?_, ?_⟩
    · rw [take_run]
      exact by simpa using List.all_eq_true.mp (List.all_takeWhile (p := (· ≠ '\n')) (l := after))
    · simp [run]
  | case4 _ _ hc => exact fun _ => hc ▸ rfl
  | case5 _ _ _ hname =>
    intro _
    have hword := @take_run_mem_span isNameStart isNamePart c rest hname
    rw [← pattern_ident] at hword
    rw [take_run] at hword ⊢
    exact mem_pattern_wordKind hword
  | case6 _ _ _ _ hdigit =>
    intro _
    rw [pattern_int]
    exact take_run_mem_span hdigit
  | case7 _ _ _ _ _ hc =>
    intro _
    rw [pattern_str]
    exact mem_one_mul.mpr ⟨c, _, hc, take_stringTail_mem rest, rfl⟩
  | case8 _ _ _ _ _ _ hc harrow =>
    intro _
    subst hc
    obtain ⟨after, rfl⟩ := List.head?_eq_some_iff.mp harrow
    exact rfl
  | case9 _ _ _ _ _ _ hc => exact fun _ => hc ▸ rfl
  | case10 _ _ _ _ _ _ _ k hk => exact fun _ => mem_pattern_punctuation hk
  | case11 => exact fun h => absurd rfl h

end Token

/-- Whether a text of both kinds is of the second one: names give way to keywords. -/
def TokenKind.YieldsTo (k first : TokenKind) : Prop :=
  k = first ∨ k = .ident ∧ first.isKeyword = true

namespace Token

/-- A text `w` of kind `k` at the start of `c :: rest` gives way to the first token there: that is
known, and is longer, or as long and of a kind that goes first. -/
structure Yields (c : Char) (rest : Text) (k : TokenKind) (w : Text) : Prop where
  known : (lexeme c rest).1 ≠ .unknown
  length_le : w.length ≤ (lexeme c rest).2 + 1
  kind : w = c :: rest.take (lexeme c rest).2 → k.YieldsTo (lexeme c rest).1

variable {k : TokenKind}

theorem Yields.of_lexeme_eq {n : Nat} (h : lexeme c rest = (k, n)) (hknown : k ≠ .unknown)
    (hle : w.length ≤ n + 1) : Yields c rest k w := by
  refine ⟨?_, ?_, ?_⟩ <;> rw [h]
  · exact hknown
  · exact hle
  · exact fun _ => .inl rfl

theorem Yields.of_longer {first : TokenKind} {n : Nat} (h : lexeme c rest = (first, n))
    (hknown : first ≠ .unknown) (hpos : 0 < n) (hrest : rest ≠ []) : Yields c rest k [c] := by
  refine ⟨?_, ?_, ?_⟩ <;> rw [h]
  · exact hknown
  · exact Nat.le_add_left _ _
  · intro hsame
    have hnil : rest.take n = [] := (List.cons.inj hsame).2.symm
    rcases List.take_eq_nil_iff.mp hnil with rfl | rfl
    · exact absurd hpos (Nat.lt_irrefl 0)
    · exact absurd rfl hrest

theorem ident_yieldsTo_wordKind (w : Text) : TokenKind.ident.YieldsTo (wordKind w) := by
  rw [wordKind]
  split_ifs with hfunc hlet hvar hreturn
  · exact .inr ⟨rfl, rfl⟩
  · exact .inr ⟨rfl, rfl⟩
  · exact .inr ⟨rfl, rfl⟩
  · exact .inr ⟨rfl, rfl⟩
  · exact .inl rfl

/-- A name yields to the word of which it is the beginning, and so does a keyword. -/
theorem Yields.of_word (hw : w ∈ TokenKind.ident.pattern) (hbegins : w <+: c :: rest)
    (hk : k = .ident ∨ k = wordKind w) : Yields c rest k w := by
  rw [pattern_ident] at hw
  obtain ⟨hc, hle⟩ := of_mem_span hw hbegins
  refine ⟨?_, ?_, ?_⟩ <;> rw [lexeme_of_nameStart hc]
  · rw [wordKind]
    split_ifs <;> simp
  · exact hle
  · rw [take_run]
    rintro rfl
    rcases hk with rfl | rfl
    · exact ident_yieldsTo_wordKind _
    · exact .inl rfl

/-- What any pattern matches at the start of a text gives way to the first token. -/
theorem yields_of_match (hw : w ∈ k.pattern) (hbegins : w <+: c :: rest) : Yields c rest k w := by
  cases k with
  | whitespace =>
    rw [pattern_whitespace] at hw
    obtain ⟨hc, hle⟩ := of_mem_span hw hbegins
    exact .of_lexeme_eq (lexeme_of_blank hc) (by simp) hle
  | newline | lparen | rparen | lbrace | rbrace | comma | colon | semi | equals | plus | star =>
    obtain rfl := mem_exactly.mp hw
    obtain ⟨rfl, -⟩ := List.cons_prefix_cons.mp hbegins
    exact .of_lexeme_eq rfl (by simp) (Nat.le_refl 1)
  | comment =>
    obtain ⟨v, hv, rfl⟩ := mem_pattern_comment.mp hw
    obtain ⟨rfl, hv'⟩ := List.cons_prefix_cons.mp hbegins
    obtain ⟨after, rfl⟩ := hv'
    have hall : ∀ c ∈ '/' :: v, decide (c ≠ '\n') = true := by simpa using hv
    have hle := length_le_run hall (List.prefix_append _ after)
    exact .of_lexeme_eq rfl (by simp) (Nat.succ_le_succ hle)
  | funcKw | letKw | varKw | returnKw =>
    obtain rfl := mem_exactly.mp hw
    refine .of_word ?_ hbegins (.inr rfl)
    rw [pattern_ident]
    exact mem_one_mul.mpr ⟨_, _, rfl, mem_many_one.mpr (by exact List.all_eq_true.mp rfl), rfl⟩
  | ident => exact .of_word hw hbegins (.inl rfl)
  | int =>
    rw [pattern_int] at hw
    obtain ⟨hc, hle⟩ := of_mem_span hw hbegins
    exact .of_lexeme_eq (lexeme_of_digit hc) (by simp) hle
  | str =>
    rw [pattern_str] at hw
    obtain ⟨d, v, rfl, hv, rfl⟩ := mem_one_mul.mp hw
    obtain ⟨rfl, hv'⟩ := List.cons_prefix_cons.mp hbegins
    exact .of_lexeme_eq rfl (by simp) (Nat.succ_le_succ (length_le_stringTail hv hv'))
  | arrow =>
    obtain rfl : w = ['-', '>'] := hw
    obtain ⟨rfl, hrest⟩ := List.cons_prefix_cons.mp hbegins
    obtain ⟨after, rfl⟩ := hrest
    exact .of_lexeme_eq rfl (by simp) (Nat.le_refl 2)
  | minus =>
    obtain rfl : w = ['-'] := hw
    obtain ⟨rfl, -⟩ := List.cons_prefix_cons.mp hbegins
    by_cases hgt : rest.head? = some '>'
    · obtain ⟨after, rfl⟩ := List.head?_eq_some_iff.mp hgt
      exact .of_longer rfl (by simp) Nat.one_pos (by simp)
    · exact .of_lexeme_eq (if_neg hgt) (by simp) (Nat.le_refl 1)
  | slash =>
    obtain rfl : w = ['/'] := hw
    obtain ⟨rfl, -⟩ := List.cons_prefix_cons.mp hbegins
    by_cases hslash : rest.head? = some '/'
    · obtain ⟨after, rfl⟩ := List.head?_eq_some_iff.mp hslash
      exact .of_longer rfl (by simp) (by simp [run]) (by simp)
    · exact .of_lexeme_eq (if_neg hslash) (by simp) (Nat.le_refl 1)
  | unknown => exact absurd hw (Language.notMem_zero w)

/-- A character that starts a token is a text of some kind by itself. -/
theorem exists_singleton_mem_pattern (h : isUnknown c = false) :
    ∃ k : TokenKind, [c] ∈ k.pattern := by
  have hspan {p q : Char → Bool} (hc : p c = true) : [c] ∈ span p q :=
    mem_one_mul.mpr ⟨c, [], hc, mem_many_one.mpr (by simp), rfl⟩
  simp only [isUnknown, Bool.not_eq_false', Bool.or_eq_true, decide_eq_true_eq] at h
  obtain ((((((hblank | rfl) | rfl) | hname) | hdigit) | rfl) | rfl) | hpunctuation := h
  · exact ⟨.whitespace, pattern_whitespace ▸ hspan hblank⟩
  · exact ⟨.newline, rfl⟩
  · exact ⟨.slash, rfl⟩
  · exact ⟨.ident, pattern_ident ▸ hspan hname⟩
  · exact ⟨.int, pattern_int ▸ hspan hdigit⟩
  · exact ⟨.str, pattern_str ▸ mem_one_mul.mpr ⟨_, [], rfl, mem_stringRest.mpr (.inl rfl), rfl⟩⟩
  · exact ⟨.minus, rfl⟩
  · obtain ⟨k, hk⟩ := Option.isSome_iff_exists.mp hpunctuation
    exact ⟨k, mem_pattern_punctuation hk⟩

theorem lexeme_of_unknown (h : isUnknown c = true) :
    lexeme c rest = (.unknown, run isUnknown rest) := by
  simp only [isUnknown, Bool.not_eq_true', Bool.or_eq_false_iff, decide_eq_false_iff_not,
    Option.isSome_eq_false_iff, Option.isNone_iff_eq_none] at h
  simp [lexeme, h]

end Token

def Text.Unmatched (t : Text) : Prop := ∀ k : TokenKind, ∀ w ∈ k.pattern, ¬ w <+: t

theorem Text.unmatched_iff {c : Char} {rest : Text} :
    Text.Unmatched (c :: rest) ↔ Token.isUnknown c = true := by
  constructor
  · intro hnone
    by_contra hknown
    obtain ⟨k, hk⟩ := Token.exists_singleton_mem_pattern (Bool.eq_false_of_not_eq_true hknown)
    exact hnone k [c] hk (by simp)
  · intro hunknown k w hw hbegins
    exact (Token.yields_of_match hw hbegins).known (by rw [Token.lexeme_of_unknown hunknown])

namespace Token

/-- The token is the longest beginning of the text that any pattern matches, and of the kind that
goes first among those that match it. -/
structure LongestMatch (t : Token) (text : Text) : Prop where
  isPrefix : t.text <+: text
  mem_pattern : t.text ∈ t.kind.pattern
  longest : ∀ k : TokenKind, ∀ w ∈ k.pattern, w <+: text → w.length ≤ t.text.length
  kind : ∀ k : TokenKind, t.text ∈ k.pattern → k.YieldsTo t.kind

/-- At no character of the token does a pattern match, and one matches where the token ends, unless
the text ends there too. -/
structure UnmatchedRun (t : Token) (text : Text) : Prop where
  isPrefix : t.text <+: text
  unmatched : ∀ n < t.text.length, Text.Unmatched (text.drop n)
  stops : text.drop t.text.length ≠ [] → ¬ Text.Unmatched (text.drop t.text.length)

variable {text : Text} {t : Token} {ts : List Token}

theorem first_eq (h : tokenize text = t :: ts) : ∃ c rest, text = c :: rest ∧
    t = ⟨(lexeme c rest).1, c :: rest.take (lexeme c rest).2⟩ := by
  cases text with
  | nil => simp at h
  | cons c rest =>
    rw [tokenize_cons] at h
    exact ⟨c, rest, rfl, (List.cons.inj h).1.symm⟩

theorem longestMatch_of_tokenize (h : tokenize text = t :: ts) (hknown : t.kind ≠ .unknown) :
    t.LongestMatch text := by
  obtain ⟨c, rest, rfl, rfl⟩ := first_eq h
  refine ⟨?_, lexeme_mem_pattern c rest hknown, ?_, ?_⟩
  · exact List.cons_prefix_cons.mpr ⟨rfl, List.take_prefix _ _⟩
  · intro k w hw hbegins
    have hle := (yields_of_match hw hbegins).length_le
    have hlength := hbegins.length_le
    simp only [List.length_cons, List.length_take] at hlength ⊢
    omega
  · intro k hk
    exact (yields_of_match hk (List.cons_prefix_cons.mpr ⟨rfl, List.take_prefix _ _⟩)).kind rfl

theorem unmatchedRun_takeWhile (k : TokenKind) (text : Text) :
    UnmatchedRun ⟨k, text.takeWhile isUnknown⟩ text := by
  obtain ⟨a, ha⟩ : ∃ a, text.takeWhile isUnknown = a := ⟨_, rfl⟩
  obtain ⟨b, hb⟩ : ∃ b, text.dropWhile isUnknown = b := ⟨_, rfl⟩
  have hcut : a ++ b = text := ha ▸ hb ▸ List.takeWhile_append_dropWhile
  have hall : ∀ c ∈ a, isUnknown c = true := ha ▸ List.all_eq_true.mp List.all_takeWhile
  rw [ha, ← hcut]
  refine ⟨List.prefix_append a b, ?_, ?_⟩
  · intro n hn
    rw [List.drop_append_of_le_length (Nat.le_of_lt hn), List.drop_eq_getElem_cons hn]
    exact Text.unmatched_iff.mpr (hall _ (List.getElem_mem hn))
  · rw [List.drop_left]
    intro hne hunmatched
    have hhead := List.head_dropWhile_not isUnknown (l := text) (hb ▸ hne)
    obtain ⟨d, after, rfl⟩ := List.exists_cons_of_ne_nil hne
    simp only [hb, List.head_cons] at hhead
    simp [Text.unmatched_iff.mp hunmatched] at hhead

theorem unmatchedRun_of_tokenize (h : tokenize text = t :: ts) (hunknown : t.kind = .unknown) :
    t.UnmatchedRun text := by
  obtain ⟨c, rest, rfl, rfl⟩ := first_eq h
  have hc : isUnknown c = true := by
    by_contra hc
    obtain ⟨k, hk⟩ := exists_singleton_mem_pattern (Bool.eq_false_of_not_eq_true hc)
    exact (yields_of_match hk (by simp)).known hunknown
  rw [lexeme_of_unknown hc, take_run, ← List.takeWhile_cons_of_pos hc]
  exact unmatchedRun_takeWhile .unknown (c :: rest)

/-- Behind a character run the tokens go on with one that is known. -/
theorem kind_ne_unknown_of_tokenize {u : Token} (h : tokenize text = t :: u :: ts)
    (hunknown : t.kind = .unknown) : u.kind ≠ .unknown := by
  intro hu
  have hrun := unmatchedRun_of_tokenize h hunknown
  have hrest : tokenize (textOfAll (u :: ts)) = u :: ts :=
    @tokenize_textOfAll text [t] _ h
  have hdrop : text.drop t.text.length = textOfAll (u :: ts) := by
    have htext : text = t.text ++ textOfAll (u :: ts) := by
      rw [← textOfAll_cons, ← h, textOfAll_tokenize]
    rw [htext, List.drop_left]
  have hpos : 0 < u.text.length := by
    obtain ⟨c, rest, -, rfl⟩ := first_eq hrest
    exact Nat.succ_pos _
  have hsome : textOfAll (u :: ts) ≠ [] := by
    rw [textOfAll_cons]
    exact List.append_ne_nil_of_left_ne_nil (List.ne_nil_of_length_pos hpos) _
  exact hrun.stops (hdrop ▸ hsome) (hdrop ▸ (unmatchedRun_of_tokenize hrest hu).unmatched 0 hpos)

end Token

/-- Consecutive ranges, none of them empty, from `start` up to `stop`. -/
def TextRange.Tile (start stop : Nat) : List TextRange → Prop
  | [] => start = stop
  | r :: rs => r.start = start ∧ r.start < r.stop ∧ Tile r.stop stop rs

namespace Placed

theorem tile_all (start : Nat) {ts : List Token} (hpos : ∀ t ∈ ts, 0 < t.size) :
    TextRange.Tile start (start + Token.sizeOfAll ts) ((all start ts).map (·.range)) := by
  induction ts generalizing start with
  | nil => rfl
  | cons t ts ih =>
    have hrest := ih (start + t.size) fun u hu => hpos u (List.mem_cons_of_mem t hu)
    rw [Nat.add_assoc] at hrest
    exact ⟨rfl, Nat.lt_add_of_pos_right (hpos t List.mem_cons_self), hrest⟩

/-- A token of a text, and those behind it, as the text says. Tokens of unknown characters are never
next to each other, so each of them is all the characters between two known tokens. -/
structure Lexed (text : Text) (p : Placed) (behind : List Placed) : Prop where
  start_isBoundary : text.isBoundary p.range.start = true
  stop_isBoundary : text.isBoundary p.range.stop = true
  slice : text.slice p.range.start p.range.stop = .ok p.token.text
  /-- What the text is from the token on decides it, and all that follows. -/
  rest : ∃ rest, text.sliceFrom p.range.start = .ok rest ∧
    (p.token.kind ≠ .unknown → p.token.LongestMatch rest) ∧
    (p.token.kind = .unknown → p.token.UnmatchedRun rest) ∧
    (all 0 (tokenize rest)).map (moved p.range.start) = p :: behind
  apart : ∀ q ∈ behind.head?, p.token.kind = .unknown → q.token.kind ≠ .unknown

theorem lexed_tokenize {text : Text} {front behind : List Placed} {p : Placed}
    (h : all 0 (tokenize text) = front ++ p :: behind) : p.Lexed text behind := by
  obtain ⟨us, vs, htokens, -, hrange, rfl⟩ := of_all_eq_append h
  have hrest : tokenize (Token.textOfAll (p.token :: vs)) = p.token :: vs :=
    tokenize_textOfAll htokens
  have htext : text = Token.textOfAll us ++ p.token.text ++ Token.textOfAll vs := by
    rw [List.append_assoc, ← Token.textOfAll_cons, ← Token.textOfAll_append, ← htokens,
      textOfAll_tokenize]
  have hstart : (Token.textOfAll us).size = p.range.start := by
    rw [Token.size_textOfAll, hrange, TextRange.sized_start, Nat.zero_add]
  have hstop : p.range.stop = p.range.start + p.token.text.size := by rw [hrange]; rfl
  refine ⟨?_, ?_, ?_, ⟨Token.textOfAll (p.token :: vs), ?_, ?_, ?_, ?_⟩, ?_⟩
  · exact Text.isBoundary_iff.mpr ⟨_, _, htext.trans (List.append_assoc _ _ _), hstart⟩
  · refine Text.isBoundary_iff.mpr ⟨_, _, htext, ?_⟩
    rw [Text.size_append, hstart, hstop]
  · exact Text.slice_eq_ok_iff.mpr ⟨_, _, htext, hstart, hstop⟩
  · exact Text.sliceFrom_eq_ok_iff.mpr ⟨_, htext.trans (List.append_assoc _ _ _), hstart⟩
  · exact Token.longestMatch_of_tokenize hrest
  · exact Token.unmatchedRun_of_tokenize hrest
  · rw [hrest, map_moved_all, Nat.add_zero, hrange, all]
    exact congrArg (· :: _) (congrArg (mk p.token) hrange.symm)
  · intro q hq hunknown
    cases vs with
    | nil => simp [all] at hq
    | cons v vs =>
      obtain rfl := Option.some.inj hq
      exact Token.kind_ne_unknown_of_tokenize hrest hunknown

end Placed

/-- The tokens of a text are its partition by longest match. -/
theorem tokenize_longest_match (text : Text) :
    let placed := Placed.all 0 (tokenize text)
    TextRange.Tile 0 text.size (placed.map (·.range)) ∧
      ∀ front p behind, placed = front ++ p :: behind → p.Lexed text behind := by
  intro placed
  refine ⟨?_, fun _ _ _ h => Placed.lexed_tokenize h⟩
  have hpos : ∀ t ∈ tokenize text, 0 < t.size := fun _ ht => Token.size_pos_of_mem_tokenize ht
  have htile := Placed.tile_all 0 hpos
  rwa [Nat.zero_add, Token.sizeOfAll_tokenize] at htile

/-- A string stops before a backslash that takes no character with it. That backslash starts no
token, nor would the character in front of it, which is part of the string. -/
example : tokenize "\"@\\\n@#func".toList =
    [⟨.str, "\"@".toList⟩, ⟨.unknown, "\\".toList⟩, ⟨.newline, "\n".toList⟩,
      ⟨.unknown, "@#".toList⟩, ⟨.funcKw, "func".toList⟩] := by decide +kernel

end IncrementalSyntax
