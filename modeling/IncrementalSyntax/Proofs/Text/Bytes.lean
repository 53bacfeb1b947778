import IncrementalSyntax.Proofs.Edit.Cut

/-!
The bytes of a text. A text is a list of characters here, but some of what is done with it looks at
its bytes: at the one in front of a newline, or at those that two texts share. The statements say
what such a look finds out about the characters. The bytes of a character neither begin nor end
those of another one (`eq_of_isPrefix_encode`, `eq_of_isSuffix_encode`), and a byte that is a
carriage return is the whole character (`eq_carriageReturn_of_getLast?`).
-/
namespace IncrementalSyntax

namespace Text

open String (utf8EncodeChar)

def bytes (t : Text) : List UInt8 := t.flatMap utf8EncodeChar

@[simp] theorem bytes_nil : bytes [] = [] := rfl

@[simp] theorem bytes_cons (c : Char) (t : Text) : bytes (c :: t) = utf8EncodeChar c ++ bytes t :=
  rfl

@[simp] theorem bytes_append (s t : Text) : bytes (s ++ t) = bytes s ++ bytes t :=
  List.flatMap_append

@[simp] theorem length_bytes (t : Text) : t.bytes.length = t.size := by
  induction t with
  | nil => rfl
  | cons c t ih => simp [String.length_utf8EncodeChar, ih]

/-- The bytes of a character do not begin those of another one. -/
theorem eq_of_isPrefix_encode {a b : Char} (h : utf8EncodeChar a <+: utf8EncodeChar b) : a = b := by
  obtain ⟨rest, hrest⟩ := h
  have hfirst : ((utf8EncodeChar a).toByteArray ++ rest.toByteArray).utf8DecodeChar? 0 = some a :=
    ByteArray.utf8DecodeChar?_utf8EncodeChar_append
  have hwhole : ((utf8EncodeChar b).toByteArray ++ [].toByteArray).utf8DecodeChar? 0 = some b :=
    ByteArray.utf8DecodeChar?_utf8EncodeChar_append
  rw [← List.toByteArray_append, hrest] at hfirst
  rw [← List.toByteArray_append, List.append_nil] at hwhole
  exact Option.some.inj (hfirst.symm.trans hwhole)

/-- The bytes of a character do not end those of another one: a character begins with a byte that
continues none. -/
theorem eq_of_isSuffix_encode {a b : Char} (h : utf8EncodeChar a <:+ utf8EncodeChar b) : a = b := by
  obtain ⟨front, hfront⟩ := h
  have hpos : 0 < (utf8EncodeChar a).length := by
    rw [String.length_utf8EncodeChar]
    exact a.utf8Size_pos
  have hlength := congrArg List.length hfront
  rw [List.length_append] at hlength
  have hat : front.length < (utf8EncodeChar b).length := by omega
  have hbyte : (utf8EncodeChar b)[front.length] = (utf8EncodeChar a)[0] := by
    rw [List.getElem_of_eq hfront.symm hat, List.getElem_append_right (Nat.le_refl _)]
    simp
  have hzero : front.length = 0 := by
    have hstarts : (utf8EncodeChar b)[front.length].IsUTF8FirstByte := by
      rw [hbyte]
      exact UInt8.isUTF8FirstByte_getElem_zero_utf8EncodeChar
    exact UInt8.isUTF8FirstByte_getElem_utf8EncodeChar.mp hstarts
  rw [List.length_eq_zero_iff.mp hzero, List.nil_append] at hfront
  exact eq_of_isPrefix_encode (hfront ▸ List.prefix_rfl)

/-- A carriage return is the last byte of no other character. -/
theorem eq_carriageReturn_of_getLast? {c : Char} (h : (utf8EncodeChar c).getLast? = some 13) :
    c = '\r' := by
  have hend : utf8EncodeChar '\r' <:+ utf8EncodeChar c := by
    obtain ⟨front, hfront⟩ := List.getLast?_eq_some_iff.mp h
    exact ⟨front, hfront.symm⟩
  exact (eq_of_isSuffix_encode hend).symm

/-- The last byte of a text is a carriage return exactly if the last character is. -/
theorem getLast?_bytes_eq_iff (t : Text) :
    t.bytes.getLast? = some 13 ↔ t.getLast? = some '\r' := by
  rcases List.eq_nil_or_concat t with rfl | ⟨init, last, rfl⟩
  · simp
  · have hne : utf8EncodeChar last ≠ [] := by
      rw [← List.length_pos_iff, String.length_utf8EncodeChar]
      exact last.utf8Size_pos
    have hlast : (bytes (init ++ [last])).getLast? = (utf8EncodeChar last).getLast? := by
      simp [List.getLast?_append, List.getLast?_eq_some_getLast hne]
    rw [List.concat_eq_append, hlast, List.getLast?_concat]
    constructor
    · intro h
      rw [eq_carriageReturn_of_getLast? h]
    · intro h
      rw [Option.some.inj h]
      rfl

/-- A place inside a character is not between two. -/
theorem isBoundary_inside (a : Text) {c : Char} (b : Text) {n : Nat} (hstart : a.size < n)
    (hstop : n < a.size + c.utf8Size) : isBoundary (a ++ c :: b) n = false := by
  rw [← Bool.not_eq_true, isBoundary_iff]
  rintro ⟨x, y, htext, hx⟩
  obtain ⟨z, rfl, hz⟩ := append_eq_append_of_size_le htext (by omega)
  cases z with
  | nil => simp at hx; omega
  | cons d z =>
    obtain ⟨rfl, -⟩ := List.cons.inj hz
    simp at hx
    omega

theorem isBoundary_size_append (a b : Text) : isBoundary (a ++ b) a.size = true :=
  isBoundary_iff.mpr ⟨a, b, rfl, rfl⟩

end Text

end IncrementalSyntax
