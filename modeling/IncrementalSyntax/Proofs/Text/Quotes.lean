import IncrementalSyntax.Text.Quoted

/-!
Quoted texts read back. Between quotes a character stands by itself, behind a backslash in a short
form, or as its number in braces (`WrittenAs`). Which characters are written by number does not
matter: no written form begins another one, none begins with the closing quote, and different
characters have different forms (`WrittenAs.append_inj`). So a quoted text ends at one place only,
and what stands in it can be told (`encode_append_inj`).
-/
namespace IncrementalSyntax

/-- Characters of one kind, up to the first one that is not of it, are the same in the same text. -/
theorem Text.append_inj_of_stop {p : Char → Bool} {a b x y : Text} {c d : Char}
    (ha : ∀ e ∈ a, p e = true) (hb : ∀ e ∈ b, p e = true) (hc : p c = false) (hd : p d = false)
    (h : a ++ c :: x = b ++ d :: y) : a = b ∧ c = d ∧ x = y := by
  have htake {s r : Text} {e : Char} (hs : ∀ e ∈ s, p e = true) (he : p e = false) :
      (s ++ e :: r).takeWhile p = s := by
    rw [List.takeWhile_append_of_pos hs, List.takeWhile_cons_of_neg (by simp [he]), List.append_nil]
  have hsame : a = b := by rw [← htake ha hc, h, htake hb hd]
  subst hsame
  exact ⟨rfl, List.cons.inj (List.append_cancel_left h)⟩

namespace Quoted

def digits : Text := "0123456789abcdef".toList

def value (ds : Text) : Nat := ds.foldl (fun n d => 16 * n + digits.idxOf d) 0

theorem idxOf_digitChar : ∀ n < 16, digits.idxOf n.digitChar = n := by decide

theorem value_toDigits (n : Nat) : value (Nat.toDigits 16 n) = n := by
  induction n using Nat.strongRecOn with
  | ind n ih =>
    rw [Nat.toDigits_eq_if (by decide)]
    split
    next hlt => simp [value, idxOf_digitChar n hlt]
    next hle =>
      have hfront := ih (n / 16) (by omega)
      have hlast := idxOf_digitChar (n % 16) (Nat.mod_lt n (by decide))
      rw [value] at hfront
      rw [value, List.foldl_append, hfront, List.foldl_cons, List.foldl_nil, hlast]
      omega

theorem digitChar_mem_digits : ∀ n < 16, n.digitChar ∈ digits := by decide

theorem mem_digits_of_mem_toDigits {c : Char} {n : Nat} (h : c ∈ Nat.toDigits 16 n) :
    c ∈ digits := by
  induction n using Nat.strongRecOn with
  | ind n ih =>
    rw [Nat.toDigits_eq_if (by decide)] at h
    split at h
    next hlt =>
      rw [List.mem_singleton.mp h]
      exact digitChar_mem_digits n hlt
    next hle =>
      rcases List.mem_append.mp h with h | h
      · exact ih (n / 16) (by omega) h
      · rw [List.mem_singleton.mp h]
        exact digitChar_mem_digits (n % 16) (Nat.mod_lt n (by decide))

/-- The closing brace ends the number of a character. -/
theorem hex_append_inj {c d : Char} {x y : Text} (h : hex c ++ '\x7d' :: x = hex d ++ '\x7d' :: y) :
    c = d ∧ x = y := by
  have hdigit {c a : Char} (ha : a ∈ hex c) : digits.contains a = true :=
    List.contains_iff_mem.mpr (mem_digits_of_mem_toDigits ha)
  obtain ⟨hhex, -, hrest⟩ := Text.append_inj_of_stop (fun _ => hdigit) (fun _ => hdigit)
    (by decide) (by decide) h
  refine ⟨?_, hrest⟩
  have hvalue := congrArg value hhex
  rw [hex, hex, value_toDigits, value_toDigits] at hvalue
  exact Char.toNat_inj.mp hvalue

/-- The characters with a short form, and its letter. -/
def shortForms : List (Char × Char) :=
  [('"', '"'), ('\\', '\\'), ('\n', 'n'), ('\r', 'r'), ('\t', 't'), ('\x00', '0')]

theorem mem_shortForms {c letter : Char} (h : shortForm? c = some letter) :
    (c, letter) ∈ shortForms := by
  grind [shortForm?, shortForms]

theorem shortForms_inj : ∀ p ∈ shortForms, ∀ q ∈ shortForms, p.2 = q.2 → p.1 = q.1 := by decide

theorem shortForms_ne : ∀ p ∈ shortForms, p.2 ≠ 'u' := by decide

/-- How a character may stand between quotes. -/
inductive WrittenAs (c : Char) : Text → Prop
  | itself (hquote : c ≠ '"') (hbackslash : c ≠ '\\') : WrittenAs c [c]
  | short {letter : Char} (h : shortForm? c = some letter) : WrittenAs c ['\\', letter]
  | number : WrittenAs c ('\\' :: 'u' :: '\x7b' :: hex c ++ ['\x7d'])

theorem writtenAs_encodeChar (c : Char) : WrittenAs c (encodeChar c) := by
  rw [encodeChar]
  split
  next letter h => exact .short h
  next h =>
    have hquote : c ≠ '"' := by
      rintro rfl
      simp [shortForm?] at h
    have hbackslash : c ≠ '\\' := by
      rintro rfl
      simp [shortForm?] at h
    split
    next => exact .itself hquote hbackslash
    next => exact .number

namespace WrittenAs

variable {c d : Char} {s t x y : Text}

/-- The written form of a character says which one it is, and where it ends. -/
theorem append_inj (hs : WrittenAs c s) (ht : WrittenAs d t) (h : s ++ x = t ++ y) :
    c = d ∧ x = y := by
  cases hs with
  | itself _ hbackslash =>
    cases ht with
    | itself => exact List.cons.inj h
    | short => exact absurd (List.cons.inj h).1 hbackslash
    | number => exact absurd (List.cons.inj h).1 hbackslash
  | @short letter hletter =>
    cases ht with
    | itself _ hbackslash => exact absurd (List.cons.inj h).1.symm hbackslash
    | @short letter' hletter' =>
      obtain ⟨hsame, hrest⟩ := List.cons.inj (List.cons.inj h).2
      exact ⟨shortForms_inj _ (mem_shortForms hletter) _ (mem_shortForms hletter') hsame, hrest⟩
    | number =>
      exact absurd (List.cons.inj (List.cons.inj h).2).1 (shortForms_ne _ (mem_shortForms hletter))
  | number =>
    cases ht with
    | itself _ hbackslash => exact absurd (List.cons.inj h).1.symm hbackslash
    | short hletter =>
      exact absurd (List.cons.inj (List.cons.inj h).2).1.symm
        (shortForms_ne _ (mem_shortForms hletter))
    | number => exact hex_append_inj (by simpa using h)

/-- No character is written with a quote at its beginning. -/
theorem append_ne_quote (hs : WrittenAs c s) : s ++ x ≠ '"' :: y := by
  intro h
  cases hs with
  | itself hquote => exact hquote (List.cons.inj h).1
  | short => exact absurd (List.cons.inj h).1 (by decide)
  | number => exact absurd (List.cons.inj h).1 (by decide)

/-- Characters that are written one behind the other end at the first quote between them. -/
theorem flatMap_append_inj {write : Char → Text} (hwrite : ∀ c, WrittenAs c (write c))
    (h : s.flatMap write ++ '"' :: x = t.flatMap write ++ '"' :: y) : s = t ∧ x = y := by
  induction s generalizing t with
  | nil =>
    cases t with
    | nil => exact ⟨rfl, (List.cons.inj h).2⟩
    | cons d t =>
      rw [List.flatMap_cons, List.append_assoc] at h
      exact absurd h.symm (hwrite d).append_ne_quote
  | cons c s ih =>
    rw [List.flatMap_cons, List.append_assoc] at h
    cases t with
    | nil => exact absurd h (hwrite c).append_ne_quote
    | cons d t =>
      rw [List.flatMap_cons, List.append_assoc] at h
      obtain ⟨rfl, hrest⟩ := (hwrite c).append_inj (hwrite d) h
      obtain ⟨rfl, hbehind⟩ := ih hrest
      exact ⟨rfl, hbehind⟩

end WrittenAs

/-- A text in quotes says which one it is, and where it ends. -/
theorem encode_append_inj {s t x y : Text} (h : encode s ++ x = encode t ++ y) : s = t ∧ x = y := by
  simp only [encode, List.cons_append, List.append_assoc, List.nil_append, List.cons.injEq,
    true_and] at h
  exact WrittenAs.flatMap_append_inj writtenAs_encodeChar h

end Quoted

end IncrementalSyntax
