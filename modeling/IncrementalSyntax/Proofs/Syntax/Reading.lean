import IncrementalSyntax.Syntax.Parse

/-!
What reading an item takes from its tokens. First, it loses none: the leaves of the open nodes grow
by exactly the tokens that are fed, so an item and the tokens after it are the tokens that were
there (`tokens_ofTokens`). Second, it depends on no more than it has seen: its own tokens and,
if it looked at the next token, those up to that one. `ofTokens_of_examined` says that wherever
these tokens stand again the reading is the same, except that a reading which saw the end of the
text needs the end of the text there too.
-/
namespace IncrementalSyntax

namespace Token

theorem size_pos_of_mem_tokenize {text : Text} {t : Token} (h : t ∈ tokenize text) :
    0 < t.size := by
  induction text using tokenize.induct with
  | case1 => simp at h
  | case2 c rest kind n hlexeme ih =>
    rw [tokenize_cons, hlexeme] at h
    rcases List.mem_cons.mp h with rfl | h
    · have := c.utf8Size_pos
      simp only [size, Text.size_cons]
      omega
    · exact ih h

theorem size_textOfAll (ts : List Token) : (textOfAll ts).size = sizeOfAll ts := by
  induction ts with
  | nil => rfl
  | cons t ts ih =>
    simp only [textOfAll] at ih
    simp [textOfAll, ih, size]

theorem sizeOfAll_tokenize (text : Text) : sizeOfAll (tokenize text) = text.size := by
  rw [← size_textOfAll, textOfAll_tokenize]

/-- Tokens with characters that have no bytes together are none. -/
theorem eq_nil_of_sizeOfAll {ts : List Token} (hpos : ∀ t ∈ ts, 0 < t.size)
    (h : sizeOfAll ts = 0) : ts = [] := by
  cases ts with
  | nil => rfl
  | cons t ts =>
    have := hpos t (by simp)
    simp only [sizeOfAll_cons, Nat.add_eq_zero_iff] at h
    omega

def throughNext : List Token → List Token
  | [] => []
  | t :: ts => if t.kind.isTrivia then t :: throughNext ts else [t]

def allTrivia (ts : List Token) : Bool := ts.all fun t => t.kind.isTrivia

@[simp] theorem allTrivia_nil : allTrivia [] = true := rfl

@[simp] theorem allTrivia_cons (t : Token) (ts : List Token) :
    allTrivia (t :: ts) = (t.kind.isTrivia && allTrivia ts) := rfl

@[simp] theorem allTrivia_append (ts us : List Token) :
    allTrivia (ts ++ us) = (allTrivia ts && allTrivia us) := by simp [allTrivia]

theorem sizeOfAll_throughNext (ts : List Token) : sizeOfAll (throughNext ts) = peekSize ts := by
  induction ts with
  | nil => rfl
  | cons t ts ih =>
    rw [throughNext, peekSize]
    split <;> simp [ih]

theorem throughNext_of_allTrivia {ts : List Token} (h : allTrivia ts = true) :
    throughNext ts = ts := by
  induction ts with
  | nil => rfl
  | cons t ts ih =>
    rw [allTrivia_cons, Bool.and_eq_true] at h
    simp [throughNext, h.1, ih h.2]

/-- More tokens at the end do not matter once there is one that is not trivia. -/
theorem throughNext_append {ts : List Token} (h : allTrivia ts = false) (us : List Token) :
    throughNext (ts ++ us) = throughNext ts := by
  induction ts with
  | nil => simp at h
  | cons t ts ih =>
    rw [List.cons_append, throughNext, throughNext]
    split
    next ht =>
      rw [allTrivia_cons, ht, Bool.true_and] at h
      rw [ih h]
    next => rfl

theorem throughNext_of_not_trivia {gap : List Token} {t : Token} (hgap : allTrivia gap = true)
    (ht : t.kind.isTrivia = false) (ts : List Token) :
    throughNext (gap ++ t :: ts) = gap ++ [t] := by
  induction gap with
  | nil => simp [throughNext, ht]
  | cons g gap ih =>
    rw [allTrivia_cons, Bool.and_eq_true] at hgap
    simp [throughNext, hgap.1, ih hgap.2]

theorem throughNext_throughNext_append {ts : List Token} (h : allTrivia ts = false)
    (us : List Token) : throughNext (throughNext ts ++ us) = throughNext ts := by
  induction ts with
  | nil => simp at h
  | cons t ts ih =>
    cases ht : t.kind.isTrivia with
    | true =>
      rw [allTrivia_cons, ht, Bool.true_and] at h
      simp [throughNext, ht, ih h]
    | false => simp [throughNext, ht]

theorem throughNext_isPrefix (ts : List Token) : throughNext ts <+: ts := by
  induction ts with
  | nil => exact List.nil_prefix
  | cons t ts ih =>
    rw [throughNext]
    split
    · exact List.cons_prefix_cons.mpr ⟨rfl, ih⟩
    · exact List.cons_prefix_cons.mpr ⟨rfl, List.nil_prefix⟩

end Token

namespace Stack

def openTokens : List Frame → List Token
  | [] => []
  | f :: fs => openTokens fs ++ Element.tokensOf f.children

def tokens (s : Stack) : List Token := openTokens (s.top :: s.below)

theorem tokensOf_collapse (top : Frame) (below : List Frame) :
    Element.tokensOf (collapse top below).children = openTokens (top :: below) := by
  induction below generalizing top with
  | nil => simp [collapse, openTokens]
  | cons f below ih =>
    rw [collapse, ih]
    simp [openTokens, Frame.element]

theorem tokens_openAll (s : Stack) (os : List Opening) : (s.openAll os).tokens = s.tokens := by
  induction os generalizing s with
  | nil => rfl
  | cons o os ih =>
    rw [openAll, ih]
    simp [tokens, openTokens, Frame.start]

theorem tokens_append (s : Stack) (es : List Element) :
    (s.append es).tokens = s.tokens ++ Element.tokensOf es := by
  simp [tokens, openTokens, append]

theorem tokens_leaf (t : Token) (kind : Option NodeKind) :
    Element.tokensOf [leaf t kind] = [t] := by
  cases kind <;> simp [leaf]

/-- The innermost node takes a token together with the trivia before it and nothing else. -/
theorem tokens_accept {gap : List Token} {t : Token} {top : Frame} {below : List Frame} {s : Stack}
    (h : accept gap t top below = some s) :
    s.tokens = openTokens (top :: below) ++ gap ++ [t] := by
  rw [accept] at h
  split at h
  next stay opened kind _ =>
    obtain rfl := Option.some.inj h
    rw [tokens_append, tokens_openAll, tokens_leaf]
    simp [tokens, openTokens]
  next stay around opened _ =>
    obtain rfl := Option.some.inj h
    have hlast : Element.tokensOf top.children.dropLast ++
        Element.tokensOf top.children.getLast?.toList = Element.tokensOf top.children := by
      rcases List.eq_nil_or_concat top.children with hc | ⟨init, last, hc⟩ <;> simp [hc]
    rw [tokens_append, tokens_openAll]
    simp [tokens, openTokens, ← hlast]
  next => simp at h

/-- The step lemma: feeding a token adds it, and the trivia before it, to the leaves. -/
theorem tokens_feed {gap : List Token} {t : Token} {top : Frame} {below : List Frame} {s : Stack}
    (h : feed gap t top below = some s) :
    s.tokens = openTokens (top :: below) ++ gap ++ [t] := by
  induction below generalizing top with
  | nil => exact tokens_accept h
  | cons f below ih =>
    rw [feed] at h
    split at h
    next s' haccept =>
      obtain rfl := Option.some.inj h
      exact tokens_accept haccept
    next =>
      rw [ih h]
      simp [openTokens, Frame.element]

end Stack

namespace Reading

def tokens (r : Reading) : List Token := Element.tokensOf r.children

/-- The tokens after the item that the reader looked at. -/
def seen (r : Reading) : List Token := if r.peeked then Token.throughNext r.rest else []

/-- Whether the reader found the end of the text where it looked for a token. -/
def sawEnd (r : Reading) : Bool := r.peeked && Token.allTrivia r.rest

@[simp] theorem tokens_ofStack (s : Stack) (rest : List Token) (peeked : Bool) :
    (ofStack s rest peeked).tokens = s.tokens := Stack.tokensOf_collapse s.top s.below

/-- The run lemma: from open nodes on, no token is lost and none is made up. -/
theorem tokens_run (s : Stack) (gap ts : List Token) :
    (run s gap ts).tokens ++ (run s gap ts).rest = s.tokens ++ gap ++ ts := by
  induction ts generalizing s gap with
  | nil =>
    rw [run, tokens_ofStack]
    simp [ofStack]
  | cons t ts ih =>
    rw [run]
    split
    next => simpa using ih s (gap ++ [t])
    next =>
      split
      next =>
        rw [tokens_ofStack]
        simp [ofStack]
      next s' hfeed =>
        have hs' : s'.tokens = s.tokens ++ gap ++ [t] := Stack.tokens_feed hfeed
        split
        next =>
          rw [tokens_ofStack, hs']
          simp [ofStack]
        next => simpa [hs'] using ih s' []

theorem tokens_first (t : Token) : (first t).tokens = [t] := by
  rw [first]
  split
  next o os kind _ =>
    rw [Stack.tokens_append, Stack.tokens_openAll, Stack.tokens_leaf]
    simp [Stack.tokens, Stack.openTokens, Frame.start]
  next => simp [Stack.tokens, Stack.openTokens]

/-- An item and the tokens after it are the tokens that it was read from. -/
theorem tokens_ofTokens (t : Token) (ts : List Token) :
    (ofTokens t ts).tokens ++ (ofTokens t ts).rest = t :: ts := by
  rw [ofTokens]
  split
  next =>
    rw [tokens_ofStack, tokens_first]
    rfl
  next => simpa [tokens_first] using tokens_run (first t) [] ts

theorem tokens_ofTokens_ne_nil (t : Token) (ts : List Token) : (ofTokens t ts).tokens ≠ [] := by
  intro hnil
  have hall := congrArg List.length (tokens_ofTokens t ts)
  have hrest := length_rest_ofTokens_le t ts
  rw [hnil] at hall
  simp only [List.nil_append, List.length_cons] at hall
  omega

/-- What is left after an item is found by counting its tokens. -/
theorem rest_ofTokens (t : Token) (ts : List Token) :
    (ofTokens t ts).rest = ts.drop ((ofTokens t ts).tokens.length - 1) := by
  obtain ⟨u, us, hcons⟩ := List.exists_cons_of_ne_nil (tokens_ofTokens_ne_nil t ts)
  have hall := tokens_ofTokens t ts
  rw [hcons, List.cons_append] at hall
  obtain ⟨-, hts⟩ := List.cons.inj hall
  have hdrop := congrArg (List.drop us.length) hts
  rw [List.drop_left] at hdrop
  rw [hcons, List.length_cons, Nat.add_sub_cancel]
  exact hdrop

/-- A reading that did not see the end of the text stays the same when the text goes on. -/
theorem run_append {s : Stack} {gap ts : List Token} (hgap : Token.allTrivia gap = true)
    (h : (run s gap ts).sawEnd = false) (us : List Token) :
    run s gap (ts ++ us) = { run s gap ts with rest := (run s gap ts).rest ++ us } := by
  induction ts generalizing s gap with
  | nil => simp [run, ofStack, sawEnd, hgap] at h
  | cons t ts ih =>
    rw [run] at h
    rw [List.cons_append, run, run]
    split
    next ht =>
      rw [if_pos ht] at h
      exact ih (by simp [hgap, ht]) h
    next ht =>
      rw [if_neg ht] at h
      split
      next => simp [ofStack]
      next s' hfeed =>
        rw [hfeed] at h
        split
        next => rfl
        next hended =>
          simp only [hended] at h
          exact ih rfl h

/-- A reading that did not see the end of the text needs a beginning of the tokens only, and of
that beginning it leaves nothing that it has not seen. -/
theorem run_beginning {s : Stack} {gap ts : List Token} (hgap : Token.allTrivia gap = true)
    (h : (run s gap ts).sawEnd = false) :
    ∃ pre us, ts = pre ++ us ∧ (run s gap pre).sawEnd = false ∧
      (run s gap pre).rest = (run s gap pre).seen := by
  induction ts generalizing s gap with
  | nil => simp [run, ofStack, sawEnd, hgap] at h
  | cons t ts ih =>
    rw [run] at h
    split at h
    next ht =>
      obtain ⟨pre, us, rfl, hend, hrest⟩ := ih (by simp [hgap, ht]) h
      refine ⟨t :: pre, us, rfl, ?_, ?_⟩ <;> simpa [run, ht]
    next ht =>
      split at h
      next hfeed =>
        have hnext := Token.throughNext_of_not_trivia hgap (by simpa using ht) []
        refine ⟨[t], ts, rfl, ?_, ?_⟩
        · simp [run, ht, hfeed, ofStack, sawEnd]
        · simp [run, ht, hfeed, ofStack, seen, hnext]
      next s' hfeed =>
        split at h
        next hended =>
          refine ⟨[t], ts, rfl, ?_, ?_⟩ <;>
            simp [run, ht, hfeed, hended, ofStack, sawEnd, seen]
        next hended =>
          obtain ⟨pre, us, rfl, hend, hrest⟩ := ih rfl h
          refine ⟨t :: pre, us, rfl, ?_, ?_⟩ <;> simpa [run, ht, hfeed, hended]

theorem seen_append {r : Reading} (h : r.sawEnd = false) (us : List Token) :
    { r with rest := r.rest ++ us }.seen = r.seen := by
  cases hp : r.peeked with
  | false => simp [seen, hp]
  | true =>
    have hrest : Token.allTrivia r.rest = false := by simpa [sawEnd, hp] using h
    simp [seen, hp, Token.throughNext_append hrest us]

theorem seen_isPrefix (r : Reading) : r.seen <+: r.rest := by
  rw [seen]
  split
  · exact Token.throughNext_isPrefix r.rest
  · exact List.nil_prefix

theorem seen_eq_rest {r : Reading} (h : r.sawEnd = true) : r.seen = r.rest := by
  simp only [sawEnd, Bool.and_eq_true] at h
  simp [seen, h.1, Token.throughNext_of_allTrivia h.2]

/-- What a reading that did not see the end of the text has taken and seen decides it, whatever
comes after that. -/
theorem ofTokens_append {t : Token} {ts : List Token} (h : (ofTokens t ts).sawEnd = false) :
    ∃ pre, t :: pre = (ofTokens t ts).tokens ++ (ofTokens t ts).seen ∧
      ∀ us, ofTokens t (pre ++ us) = { ofTokens t ts with rest := (ofTokens t ts).seen ++ us } := by
  rw [ofTokens] at h ⊢
  split
  next hended =>
    refine ⟨[], ?_, ?_⟩
    · rw [tokens_ofStack, tokens_first]
      simp [ofStack, seen]
    · intro us
      simp [ofTokens, hended, ofStack, seen]
  next hended =>
    rw [if_neg hended] at h
    obtain ⟨pre, us, rfl, hend, hrest⟩ := run_beginning rfl h
    have hrun := run_append rfl hend us
    have hseen : (run (first t) [] (pre ++ us)).seen = (run (first t) [] pre).seen := by
      rw [hrun, seen_append hend us]
    have htokens : (run (first t) [] (pre ++ us)).tokens = (run (first t) [] pre).tokens := by
      rw [hrun]
      rfl
    refine ⟨pre, ?_, ?_⟩
    · have hall := tokens_run (first t) [] pre
      rw [tokens_first] at hall
      rw [htokens, hseen, ← hrest]
      simpa using hall.symm
    · intro vs
      rw [ofTokens, if_neg hended, hseen, ← hrest, run_append rfl hend vs, hrun]

/-- The tokens of an item and those it has seen, standing again at another place, give the same
reading there; if it saw the end of the text, no other tokens may follow. -/
theorem ofTokens_of_examined {t t' : Token} {ts ts' us : List Token}
    (h : t' :: ts' = (ofTokens t ts).tokens ++ (ofTokens t ts).seen ++ us)
    (hend : (ofTokens t ts).sawEnd = true → us = []) :
    ofTokens t' ts' = { ofTokens t ts with rest := (ofTokens t ts).seen ++ us } := by
  cases hsaw : (ofTokens t ts).sawEnd with
  | true =>
    have hrest := seen_eq_rest hsaw
    rw [hend hsaw, hrest, List.append_nil, tokens_ofTokens] at h
    obtain ⟨rfl, rfl⟩ := List.cons.inj h
    simp [hend hsaw, hrest]
  | false =>
    obtain ⟨pre, hpre, happend⟩ := ofTokens_append hsaw
    rw [← hpre, List.cons_append] at h
    obtain ⟨rfl, rfl⟩ := List.cons.inj h
    exact happend us

/-- The item of such a reading reaches as far as before. -/
theorem item_of_examined {r : Reading} {us : List Token} (hend : r.sawEnd = true → us = []) :
    Reading.item { r with rest := r.seen ++ us } = r.item := by
  cases hp : r.peeked with
  | false => simp [item, hp]
  | true =>
    have hseen : r.seen = Token.throughNext r.rest := by simp [seen, hp]
    have hnext : Token.throughNext (r.seen ++ us) = Token.throughNext r.rest := by
      cases hall : Token.allTrivia r.rest with
      | true =>
        rw [hend (by simp [sawEnd, hp, hall]), List.append_nil, hseen,
          Token.throughNext_of_allTrivia hall, Token.throughNext_of_allTrivia hall]
      | false => rw [hseen, Token.throughNext_throughNext_append hall]
    simp [item, hp, ← Token.sizeOfAll_throughNext, hnext]

/-- So the same item is read wherever these tokens stand again. -/
theorem item_eq_of_examined {t t' : Token} {ts ts' us : List Token}
    (h : t' :: ts' = (ofTokens t ts).tokens ++ (ofTokens t ts).seen ++ us)
    (hend : (ofTokens t ts).sawEnd = true → us = []) :
    (ofTokens t' ts').item = (ofTokens t ts).item := by
  rw [ofTokens_of_examined h hend, item_of_examined hend]

theorem size_item (r : Reading) : r.item.size = Token.sizeOfAll r.tokens :=
  Element.size_eq r.item.element

/-- After an item the text ends where it ended before it. -/
theorem add_size_rest {start stop : Nat} {t : Token} {ts : List Token}
    (h : start + Token.sizeOfAll (t :: ts) = stop) :
    start + (ofTokens t ts).item.size + Token.sizeOfAll (ofTokens t ts).rest = stop := by
  rw [← tokens_ofTokens, Token.sizeOfAll_append] at h
  rw [size_item]
  omega

theorem size_pos_rest {t : Token} {ts : List Token} (h : ∀ u ∈ t :: ts, 0 < u.size) :
    ∀ u ∈ (ofTokens t ts).rest, 0 < u.size := by
  intro u hu
  apply h
  rw [← tokens_ofTokens]
  exact List.mem_append_right _ hu

/-- An item depends on its own bytes and on those of the tokens that its reading has seen. -/
theorem reach_item (r : Reading) : r.item.reach = Token.sizeOfAll (r.tokens ++ r.seen) := by
  rw [Item.reach, size_item, Token.sizeOfAll_append]
  cases hp : r.peeked <;> simp [item, seen, hp, Token.sizeOfAll_throughNext]

/-- A reading that saw the end of the text depends on all bytes up to there. -/
theorem reach_of_sawEnd {t : Token} {ts : List Token} (h : (ofTokens t ts).sawEnd = true) :
    (ofTokens t ts).item.reach = Token.sizeOfAll (t :: ts) := by
  rw [reach_item, seen_eq_rest h, tokens_ofTokens]

end Reading

end IncrementalSyntax
