import IncrementalSyntax.Offset

/-!
Texts and their UTF-8 measure. A text is the list of its characters, and a position in it is the
number of bytes before that position. A text can be cut at a position only if the position stands
between two characters; `Text.split?` decides that and makes the cut.
-/
namespace IncrementalSyntax

abbrev Text := List Char

namespace Text

def size : Text → Nat
  | [] => 0
  | c :: t => c.utf8Size + size t

@[simp] theorem size_nil : size [] = 0 := rfl

@[simp] theorem size_cons (c : Char) (t : Text) : size (c :: t) = c.utf8Size + size t := rfl

@[simp] theorem size_append (s t : Text) : size (s ++ t) = size s + size t := by
  induction s with
  | nil => simp
  | cons c s ih => simp [ih, Nat.add_assoc]

theorem size_eq_zero_iff {t : Text} : size t = 0 ↔ t = [] := by
  cases t with
  | nil => simp
  | cons c t => have := c.utf8Size_pos; simp; omega

/-- The parts of a text before and after byte `n`, if that byte starts a character or is the end. -/
def split? : Nat → Text → Option (Text × Text)
  | 0, t => some ([], t)
  | _ + 1, [] => none
  | n + 1, c :: t =>
    if c.utf8Size ≤ n + 1 then
      (split? (n + 1 - c.utf8Size) t).map fun (before, after) => (c :: before, after)
    else none

@[simp] theorem split?_zero (t : Text) : split? 0 t = some ([], t) := by cases t <;> rfl

theorem split?_size_append (s t : Text) : split? (size s) (s ++ t) = some (s, t) := by
  induction s with
  | nil => simp
  | cons c s ih =>
    obtain ⟨n, hn⟩ : ∃ n, size (c :: s) = n + 1 :=
      ⟨size (c :: s) - 1, by have := c.utf8Size_pos; simp; omega⟩
    rw [hn, List.cons_append, split?]
    have hs : n + 1 - c.utf8Size = size s := by rw [← hn]; simp
    have hc : c.utf8Size ≤ n + 1 := by rw [← hn]; simp
    simp [hc, hs, ih]

/-- A cut loses nothing, and its first part has the bytes asked for. -/
theorem eq_append_of_split? {n : Nat} {t s r : Text} (h : split? n t = some (s, r)) :
    t = s ++ r ∧ size s = n := by
  induction t generalizing n s r with
  | nil =>
    cases n with
    | zero => simp at h; simp [h]
    | succ n => simp [split?] at h
  | cons c t ih =>
    cases n with
    | zero => simp at h; simp [h.1, ← h.2]
    | succ n =>
      rw [split?] at h
      split at h
      next hc =>
        obtain ⟨⟨s', r'⟩, hs, he⟩ := Option.map_eq_some_iff.1 h
        obtain ⟨rfl, rfl⟩ := Prod.mk.inj he
        obtain ⟨rfl, hn⟩ := ih hs
        exact ⟨rfl, by simp; omega⟩
      next => simp at h

/-- A cut at `n` exists exactly where a part of `n` bytes ends. -/
theorem split?_eq_some_iff {n : Nat} {t s r : Text} :
    split? n t = some (s, r) ↔ t = s ++ r ∧ size s = n := by
  refine ⟨eq_append_of_split?, ?_⟩
  rintro ⟨rfl, rfl⟩
  exact split?_size_append s r

/-- Whether byte `n` starts a character of the text or is its end. -/
def isBoundary (t : Text) (n : Nat) : Bool := (split? n t).isSome

def slice? (t : Text) (start stop : Nat) : Option Text := do
  let (_, after) ← split? start t
  let (inner, _) ← if start ≤ stop then split? (stop - start) after else none
  return inner

/-- The bytes from `start` up to `stop`; a fault if they are not a range of whole characters. -/
def slice (t : Text) (start stop : Nat) : Except Fault Text :=
  match slice? t start stop with
  | some inner => .ok inner
  | none => .error .cut

/-- The bytes from `start` on; a fault if no character starts there. -/
def sliceFrom (t : Text) (start : Nat) : Except Fault Text := slice t start (size t)

def unitsOf (c : Char) : Nat := if c.utf8Size = 4 then 2 else 1

def units : Text → Nat
  | [] => 0
  | c :: t => unitsOf c + units t

/-- The lines of a text without their newlines: one more than it has newlines. -/
def lines : Text → List Text
  | [] => [[]]
  | c :: t =>
    if c = '\n' then [] :: lines t
    else
      match lines t with
      | [] => [[c]]
      | l :: ls => (c :: l) :: ls

theorem lines_ne_nil (t : Text) : lines t ≠ [] := by
  cases t with
  | nil => simp [lines]
  | cons c t =>
    unfold lines
    split
    next => simp
    next => split <;> simp

end Text

end IncrementalSyntax
