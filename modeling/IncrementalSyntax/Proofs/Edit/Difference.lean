import IncrementalSyntax.Edit.Basic
import IncrementalSyntax.Proofs.Text.Bytes

/-!
The difference of two texts, found by their bytes. `TextEdit.diff` takes away the characters that
two texts share at their beginnings and at their ends. The same edit is found by counting the bytes
that they share and going back from there to the next place between two characters, once from the
front and once from the back, with every difference and cut checked. What two characters share never
is the whole of either, from the front or from the back, so going back ends right behind the
characters that are shared (`sharedLength_strip`), and no check fails (`diffBytes_eq_ok`).
-/
namespace IncrementalSyntax

namespace TextEdit

open Text
open String (utf8EncodeChar)

/-- How many leading pairs are pairs of equal bytes. -/
def sharedLength (pairs : List (UInt8 × UInt8)) : Nat :=
  (pairs.takeWhile fun p => p.1 = p.2).length

/-- The last number up to the given one at which to stop. -/
def goBack (stop : Nat → Except Fault Bool) : Nat → Except Fault Nat
  | 0 => do if ← stop 0 then return 0 else .error .underflow
  | n + 1 => do if ← stop (n + 1) then return n + 1 else goBack stop n

def diffBytes (old new : Text) : Except Fault (Option TextEdit) :=
  if old = new then return none
  else do
    let front ← goBack (fun n => return old.isBoundary n && new.isBoundary n)
      (sharedLength (old.bytes.zip new.bytes))
    let most ← Offset.sub (min old.size new.size) front
    let back ← goBack
      (fun n => do
        let oldStop ← Offset.sub old.size n
        let newStop ← Offset.sub new.size n
        return old.isBoundary oldStop && new.isBoundary newStop)
      (sharedLength ((old.bytes.reverse.zip new.bytes.reverse).take most))
    let oldStop ← Offset.sub old.size back
    let newStop ← Offset.sub new.size back
    let range ← TextRange.between front oldStop
    let replacement ← new.slice front newStop
    return some ⟨range, replacement⟩

theorem goBack_eq_ok {stop : Nat → Except Fault Bool} {m j : Nat} (hm : stop m = .ok true)
    (hbehind : ∀ i, m < i → i ≤ m + j → stop i = .ok false) : goBack stop (m + j) = .ok m := by
  induction j with
  | zero => cases m <;> simp [goBack, hm]
  | succ j ih =>
    have hlast := hbehind (m + j + 1) (by omega) (by omega)
    rw [← Nat.add_assoc, goBack, hlast, ok_bind]
    exact ih fun i hlt hle => hbehind i hlt (by omega)

section Shared

variable {xs ys u v : List UInt8}

theorem sharedLength_append (c xs ys : List UInt8) :
    sharedLength ((c ++ xs).zip (c ++ ys)) = c.length + sharedLength (xs.zip ys) := by
  induction c with
  | nil => simp
  | cons x c ih =>
    simp only [sharedLength] at ih
    simp [sharedLength, ih]
    omega

theorem take_sharedLength (xs ys : List UInt8) :
    xs.take (sharedLength (xs.zip ys)) = ys.take (sharedLength (xs.zip ys)) := by
  induction xs generalizing ys with
  | nil => simp [sharedLength]
  | cons x xs ih =>
    cases ys with
    | nil => simp [sharedLength]
    | cons y ys =>
      have htail := ih ys
      simp only [sharedLength] at htail
      by_cases hxy : x = y <;> simp [sharedLength, hxy, htail]

/-- Two lists share less than the whole of any beginnings that do not begin each other. -/
theorem sharedLength_lt (huv : ¬ u <+: v) (hvu : ¬ v <+: u) (xs ys : List UInt8) :
    sharedLength ((u ++ xs).zip (v ++ ys)) < u.length ∧
      sharedLength ((u ++ xs).zip (v ++ ys)) < v.length := by
  have hshared := take_sharedLength (u ++ xs) (v ++ ys)
  generalize sharedLength ((u ++ xs).zip (v ++ ys)) = n at *
  -- a beginning that is shared whole begins both lists, and so one of the two begins the other
  have hu : ¬ u.length ≤ n := by
    intro hle
    have htake : u <+: (u ++ xs).take n := List.prefix_take_iff.mpr ⟨List.prefix_append u xs, hle⟩
    have hbegins := (hshared ▸ htake).trans (List.take_prefix n _)
    exact (List.prefix_or_prefix_of_prefix hbegins (List.prefix_append v ys)).elim huv hvu
  have hv : ¬ v.length ≤ n := by
    intro hle
    have htake : v <+: (v ++ ys).take n := List.prefix_take_iff.mpr ⟨List.prefix_append v ys, hle⟩
    have hbegins := (hshared.symm ▸ htake).trans (List.take_prefix n _)
    exact (List.prefix_or_prefix_of_prefix (List.prefix_append u xs) hbegins).elim huv hvu
  omega

end Shared

/-- What two texts share at their beginnings stands in front of what is left of each. -/
theorem append_of_stripCommon {s t common s' t' : Text}
    (h : stripCommon s t = (common, s', t')) : s = common ++ s' ∧ t = common ++ t' := by
  induction s generalizing t common with
  | nil =>
    obtain ⟨rfl, hrest⟩ := Prod.mk.inj h
    obtain ⟨rfl, rfl⟩ := Prod.mk.inj hrest
    exact ⟨rfl, rfl⟩
  | cons a s ih =>
    cases t with
    | nil =>
      obtain ⟨rfl, hrest⟩ := Prod.mk.inj h
      obtain ⟨rfl, rfl⟩ := Prod.mk.inj hrest
      exact ⟨rfl, rfl⟩
    | cons b t =>
      rw [stripCommon] at h
      split at h
      next hab =>
        obtain ⟨rfl, hrest⟩ := Prod.mk.inj h
        obtain ⟨hs, ht⟩ := ih (Prod.ext rfl hrest)
        exact ⟨congrArg (a :: ·) hs, by rw [hab]; exact congrArg (b :: ·) ht⟩
      next =>
        obtain ⟨rfl, hrest⟩ := Prod.mk.inj h
        obtain ⟨rfl, rfl⟩ := Prod.mk.inj hrest
        exact ⟨rfl, rfl⟩

/-- What two texts share at their ends stands behind what is left of each. -/
theorem append_of_stripCommon_reverse {s t shared s' t' : Text}
    (h : stripCommon s.reverse t.reverse = (shared, s', t')) :
    s = s'.reverse ++ shared.reverse ∧ t = t'.reverse ++ shared.reverse := by
  obtain ⟨hs, ht⟩ := append_of_stripCommon h
  constructor
  · rw [← List.reverse_append, ← hs, List.reverse_reverse]
  · rw [← List.reverse_append, ← ht, List.reverse_reverse]

/-- What is left of two texts without their common beginning begins with different characters. -/
theorem ne_of_stripCommon {s t common s' t' : Text} {a b : Char}
    (h : stripCommon s t = (common, a :: s', b :: t')) : a ≠ b := by
  induction s generalizing t common with
  | nil => simp [stripCommon] at h
  | cons c s ih =>
    cases t with
    | nil => simp [stripCommon] at h
    | cons d t =>
      rw [stripCommon] at h
      split at h
      next => exact ih (Prod.ext rfl (Prod.mk.inj h).2)
      next hne =>
        obtain ⟨-, hrest⟩ := Prod.mk.inj h
        obtain ⟨hs, ht⟩ := Prod.mk.inj hrest
        obtain ⟨rfl, -⟩ := List.cons.inj hs
        obtain ⟨rfl, -⟩ := List.cons.inj ht
        exact hne

/-- The bytes that two texts share are those of the characters that they share, and less than all
bytes of the next character of each. The bytes of a character are those that `code` gives, of which
no two begin each other. -/
theorem sharedLength_strip {code : Char → List UInt8} (hcode : ∀ a b, code a <+: code b → a = b)
    {s t common s' t' : Text} (h : stripCommon s t = (common, s', t')) :
    ∃ j, sharedLength ((s.flatMap code).zip (t.flatMap code)) = (common.flatMap code).length + j ∧
      (j = 0 ∨ ∃ a s'' b t'', s' = a :: s'' ∧ t' = b :: t'' ∧
        j < (code a).length ∧ j < (code b).length) := by
  obtain ⟨rfl, rfl⟩ := append_of_stripCommon h
  refine ⟨sharedLength ((s'.flatMap code).zip (t'.flatMap code)), ?_, ?_⟩
  · rw [List.flatMap_append, List.flatMap_append, sharedLength_append]
  · cases s' with
    | nil => exact .inl (by simp [sharedLength])
    | cons a s'' =>
      cases t' with
      | nil => exact .inl (by simp [sharedLength])
      | cons b t'' =>
        have hne := ne_of_stripCommon h
        have hlt := sharedLength_lt (fun hab => hne (hcode a b hab))
          (fun hba => hne (hcode b a hba).symm) (s''.flatMap code) (t''.flatMap code)
        exact .inr ⟨a, s'', b, t'', rfl, rfl, hlt⟩

def backward (c : Char) : List UInt8 := (utf8EncodeChar c).reverse

theorem reverse_bytes (t : Text) : t.bytes.reverse = t.reverse.flatMap backward := by
  induction t with
  | nil => rfl
  | cons c t ih => simp [ih, backward]

theorem eq_of_isPrefix_backward {a b : Char} (h : backward a <+: backward b) : a = b :=
  eq_of_isSuffix_encode (List.reverse_prefix.mp h)

theorem length_backward (c : Char) : (backward c).length = c.utf8Size := by
  rw [backward, List.length_reverse, String.length_utf8EncodeChar]

/-- From the bytes that two texts share at their beginnings the way back ends behind the characters
that they share. -/
theorem goBack_front {old new common old' new' : Text}
    (h : stripCommon old new = (common, old', new')) :
    goBack (fun n => return old.isBoundary n && new.isBoundary n)
      (sharedLength (old.bytes.zip new.bytes)) = .ok common.size := by
  obtain ⟨j, hshared, hj⟩ := sharedLength_strip (fun _ _ => eq_of_isPrefix_encode) h
  obtain ⟨rfl, rfl⟩ := append_of_stripCommon h
  have hcommon : (common.flatMap utf8EncodeChar).length = common.size := length_bytes common
  rw [bytes, bytes, hshared, hcommon]
  refine goBack_eq_ok (by simp [isBoundary_size_append]) fun i hlt hle => ?_
  rcases hj with rfl | ⟨a, s, b, t, rfl, rfl, ha, -⟩
  · omega
  · rw [String.length_utf8EncodeChar] at ha
    simp [isBoundary_inside common s hlt (show i < common.size + a.utf8Size by omega)]

theorem take_zip_append (xs ys zs : List UInt8) :
    ((xs ++ zs).zip (ys ++ zs)).take (min xs.length ys.length) = xs.zip ys := by
  induction xs generalizing ys with
  | nil => simp
  | cons x xs ih =>
    cases ys with
    | nil => simp
    | cons y ys => simp [ih]

/-- From the bytes that two texts share at their ends, apart from those of their beginnings, the way
back ends in front of the characters that they share. -/
theorem goBack_back (common : Text) {old new shared old' new' : Text}
    (h : stripCommon old.reverse new.reverse = (shared, old', new')) :
    goBack
      (fun n => do
        let oldStop ← Offset.sub (common ++ old).size n
        let newStop ← Offset.sub (common ++ new).size n
        return isBoundary (common ++ old) oldStop && isBoundary (common ++ new) newStop)
      (sharedLength (((common ++ old).bytes.reverse.zip (common ++ new).bytes.reverse).take
        (min old.size new.size))) = .ok (size shared.reverse) := by
  obtain ⟨j, hshared, hj⟩ := sharedLength_strip (fun _ _ => eq_of_isPrefix_backward) h
  have hcount : sharedLength (((common ++ old).bytes.reverse.zip (common ++ new).bytes.reverse).take
      (min old.size new.size)) = size shared.reverse + j := by
    have hlength : (shared.flatMap backward).length = size shared.reverse := by
      have hbytes := reverse_bytes shared.reverse
      rw [List.reverse_reverse] at hbytes
      rw [← hbytes, List.length_reverse, length_bytes]
    have hboth := take_zip_append old.bytes.reverse new.bytes.reverse common.bytes.reverse
    simp only [List.length_reverse, length_bytes] at hboth
    rw [bytes_append, bytes_append, List.reverse_append, List.reverse_append, hboth, reverse_bytes,
      reverse_bytes, hshared, hlength]
  rw [hcount]
  clear hcount hshared
  obtain ⟨rfl, rfl⟩ := append_of_stripCommon_reverse h
  clear h
  generalize (shared.reverse : Text) = tail
  have hstop (s : Text) : Offset.sub (common ++ (s ++ tail)).size (size tail) =
      .ok (common ++ s).size :=
    Offset.sub_eq_of_add (by simp only [size_append]; omega)
  have hends (s : Text) : isBoundary (common ++ (s ++ tail)) (common ++ s).size = true := by
    rw [← List.append_assoc]
    exact isBoundary_size_append _ _
  refine goBack_eq_ok (by simp only [hstop, hends, ok_bind, Bool.and_self, pure_eq_ok])
    fun i hlt hle => ?_
  rcases hj with rfl | ⟨a, s, b, t, rfl, rfl, ha, hb⟩
  · omega
  · rw [length_backward] at ha hb
    have hinside (c : Char) (r : Text) (hc : j < c.utf8Size) :
        Offset.sub (common ++ ((c :: r).reverse ++ tail)).size i =
            .ok ((common ++ ((c :: r).reverse ++ tail)).size - i) ∧
          isBoundary (common ++ ((c :: r).reverse ++ tail))
            ((common ++ ((c :: r).reverse ++ tail)).size - i) = false := by
      have hcut : common ++ ((c :: r).reverse ++ tail) = (common ++ r.reverse) ++ c :: tail := by
        simp
      rw [hcut]
      have hsize : ((common ++ r.reverse) ++ c :: tail).size =
          (common ++ r.reverse).size + (c.utf8Size + size tail) := by
        rw [size_append, size_cons]
      have hwithin : i ≤ (common ++ r.reverse).size + (c.utf8Size + size tail) := by omega
      rw [hsize]
      exact ⟨Offset.sub_eq_ok hwithin,
        isBoundary_inside (common ++ r.reverse) tail (by omega) (by omega)⟩
    obtain ⟨holdStop, holdInside⟩ := hinside a s ha
    obtain ⟨hnewStop, -⟩ := hinside b t hb
    simp only [holdStop, hnewStop, holdInside, ok_bind, Bool.false_and, pure_eq_ok]

/-- The difference that is found by the bytes is the one of the characters, and finding it meets no
fault. -/
theorem diffBytes_eq_ok (old new : Text) : diffBytes old new = .ok (diff old new) := by
  by_cases hne : old = new
  · simp [diffBytes, diff, hne]
  rcases hfirst : stripCommon old new with ⟨common, old', new'⟩
  rcases hsecond : stripCommon old'.reverse new'.reverse with ⟨shared, old'', new''⟩
  have hfront := goBack_front hfirst
  have hback := goBack_back common hsecond
  obtain ⟨rfl, rfl⟩ := append_of_stripCommon hfirst
  obtain ⟨hold', hnew'⟩ := append_of_stripCommon_reverse hsecond
  have hmost : Offset.sub (min (common ++ old').size (common ++ new').size) common.size =
      .ok (min old'.size new'.size) :=
    Offset.sub_eq_of_add (by simp only [size_append]; omega)
  have holdStop : Offset.sub (common ++ old').size (size shared.reverse) =
      .ok (common.size + size old''.reverse) :=
    Offset.sub_eq_of_add (by rw [hold']; simp only [size_append]; omega)
  have hnewStop : Offset.sub (common ++ new').size (size shared.reverse) =
      .ok (common.size + size new''.reverse) :=
    Offset.sub_eq_of_add (by rw [hnew']; simp only [size_append]; omega)
  have hrange : TextRange.between common.size (common.size + size old''.reverse) =
      .ok (.sized common.size (size old''.reverse)) := dif_pos (Nat.le_add_right _ _)
  have hslice : (common ++ new').slice common.size (common.size + size new''.reverse) =
      .ok new''.reverse :=
    slice_eq_ok_iff.mpr ⟨common, shared.reverse, by rw [hnew', List.append_assoc], rfl, rfl⟩
  rw [diffBytes, diff, if_neg hne, if_neg hne]
  rw [hfront, ok_bind, hmost, ok_bind, hback, ok_bind, holdStop, ok_bind, hnewStop, ok_bind, hrange,
    ok_bind, hslice, ok_bind]
  simp only [hfirst, hsecond, pure_eq_ok]

end TextEdit

end IncrementalSyntax
