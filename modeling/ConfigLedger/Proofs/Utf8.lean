import Mathlib.Data.Char
import Mathlib.Data.List.Basic
import Mathlib.Data.List.Lex

/-!
# Texts and their bytes

Texts are compared character by character. In UTF-8 a character has one to four bytes, so it is not
obvious that a comparison byte by byte comes to the same. It does (`utf8_lt_iff`): where two
characters differ, their bytes differ too, and the first byte in which they do decides the same way,
whatever comes behind (`characterBytes_append_lt`). The first byte of a longer form is the greater
one, and within a form the bytes are the digits of the character to base 64.
-/

namespace ConfigLedger

/-- The bytes of a text in UTF-8. -/
def utf8 (s : String) : List Nat :=
  s.toUTF8.data.toList.map UInt8.toNat

/-- The bytes of a character in UTF-8. -/
def characterBytes (c : Char) : List Nat :=
  (String.utf8EncodeChar c).map UInt8.toNat

theorem utf8_eq_flatMap (s : String) : utf8 s = s.toList.flatMap characterBytes := by
  rw [utf8, String.toUTF8_eq_toByteArray]
  conv_lhs => rw [← String.ofList_toList (s := s)]
  rw [String.toByteArray_ofList, List.utf8Encode, List.toList_data_toByteArray, List.map_flatMap]
  rfl

theorem characterCode_lt (c : Char) : c.toNat < 0x110000 := by
  have hvalid : c.toNat < 0xd800 ∨ 0xdfff < c.toNat ∧ c.toNat < 0x110000 := c.valid
  omega

/-- The four forms. -/
theorem characterBytes_eq (c : Char) : characterBytes c =
    if c.toNat < 0x80 then [c.toNat]
    else if c.toNat < 0x800 then [0xc0 + c.toNat / 64, 0x80 + c.toNat % 64]
    else if c.toNat < 0x10000 then
      [0xe0 + c.toNat / 4096, 0x80 + c.toNat / 64 % 64, 0x80 + c.toNat % 64]
    else [0xf0 + c.toNat / 262144, 0x80 + c.toNat / 4096 % 64, 0x80 + c.toNat / 64 % 64,
      0x80 + c.toNat % 64] := by
  have hbound := characterCode_lt c
  simp only [characterBytes, String.utf8EncodeChar, Char.toNat] at hbound ⊢
  generalize c.val.toNat = n at hbound ⊢
  split_ifs <;> try omega
  -- what is left is that each byte is small enough to be one
  all_goals simp only [List.map_cons, List.map_nil, UInt8.toNat_ofNat', List.cons.injEq, and_true]
  all_goals omega

theorem characterBytes_ne_nil (c : Char) : characterBytes c ≠ [] := by
  rw [characterBytes_eq]
  split_ifs <;> exact List.cons_ne_nil _ _

/-- **Characters that differ decide the order of their bytes**, whatever comes behind them. -/
theorem characterBytes_append_lt {c d : Char} (h : c < d) (u v : List Nat) :
    characterBytes c ++ u < characterBytes d ++ v := by
  have hlt : c.toNat < d.toNat := h
  have hbound := characterCode_lt d
  rw [characterBytes_eq, characterBytes_eq]
  generalize c.toNat = m at *
  generalize d.toNat = n at *
  split_ifs <;> simp only [List.cons_append, List.nil_append, List.cons_lt_cons_iff] <;> omega

theorem append_lt_append_left_iff (l : List Nat) {u v : List Nat} : l ++ u < l ++ v ↔ u < v := by
  induction l with
  | nil => rfl
  | cons a l ih => simp [ih]

theorem flatMap_characterBytes_lt_iff (cs ds : List Char) :
    cs.flatMap characterBytes < ds.flatMap characterBytes ↔ cs < ds := by
  induction cs generalizing ds with
  | nil =>
    cases ds with
    | nil => simp
    | cons d ds =>
      -- a character has at least one byte, so the empty text stands in front
      obtain ⟨b, bytes, hb⟩ := List.exists_cons_of_ne_nil (characterBytes_ne_nil d)
      simp [hb]
  | cons c cs ih =>
    cases ds with
    | nil => simp
    | cons d ds =>
      rw [List.flatMap_cons, List.flatMap_cons, List.cons_lt_cons_iff]
      -- the first characters decide, unless they are the same
      rcases lt_trichotomy c d with hcd | rfl | hdc
      · exact iff_of_true (characterBytes_append_lt hcd _ _) (.inl hcd)
      · rw [append_lt_append_left_iff, ih]
        simp
      · have hbytes := characterBytes_append_lt hdc (ds.flatMap characterBytes)
          (cs.flatMap characterBytes)
        refine iff_of_false hbytes.asymm ?_
        rintro (hcd | ⟨rfl, -⟩)
        · exact hdc.asymm hcd
        · exact hdc.ne rfl

/-- **Texts are ordered as their bytes are.** -/
theorem utf8_lt_iff {s t : String} : utf8 s < utf8 t ↔ s < t := by
  rw [utf8_eq_flatMap, utf8_eq_flatMap, flatMap_characterBytes_lt_iff]
  exact Iff.rfl

end ConfigLedger
