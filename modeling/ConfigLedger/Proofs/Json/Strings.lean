import ConfigLedger.Json.Printer
import ConfigLedger.Json.Token

/-!
# String literals read back

What `Value.quote` writes is read as the characters that were written, whatever follows
(`Token.quoted_quote`), and these make up the text again (`Token.text?_map_char`). The only
characters that need more than two in a literal are control characters without a letter of their
own; `Token.escape_of_control` says what is written for each of the thirty-two.
-/

namespace ConfigLedger

namespace Token

open Value

/-- A control character is written by its letter, or by the number of its unit. -/
theorem escape_of_control {c : Char} (h : c.toNat < 0x20) :
    (∃ letter ∈ "bfnrt".toList, escape c = ['\\', letter] ∧ escape? letter = some c) ∨
      ∃ a ∈ "01".toList, ∃ b ∈ "0123456789abcdef".toList,
        escape c = ['\\', 'u', '0', '0', a, b] ∧ unit? '0' '0' a b = some c.toNat := by
  -- there are only few of them, so each is looked at
  have hall : ∀ n : Fin 0x20,
      "bfnrt".toList.any (fun letter => escape (Char.ofNat n) = ['\\', letter] ∧
        escape? letter = some (Char.ofNat n)) ∨
      "01".toList.any fun a => "0123456789abcdef".toList.any fun b =>
        escape (Char.ofNat n) = ['\\', 'u', '0', '0', a, b] ∧
          unit? '0' '0' a b = some n.val := by
    decide
  have hc := hall ⟨c.toNat, h⟩
  simpa only [List.any_eq_true, decide_eq_true_eq, Char.ofNat_toNat] using hc

/-- **One character** is read as itself. -/
theorem quoted_escape (c : Char) (rest : List Char) :
    quoted (escape c ++ rest) = (quoted rest).map fun r => (.char c :: r.1, r.2) := by
  by_cases hcontrol : c.toNat < 0x20
  -- a control character has a letter, or else the digits of its unit
  · rcases escape_of_control hcontrol with ⟨letter, hmem, heq, hletter⟩ | ⟨a, -, b, -, heq, hunit⟩
    · have hne : letter ≠ 'u' := by
        rintro rfl
        revert hmem
        decide
      rw [heq]
      change quoted ('\\' :: letter :: rest) = _
      rw [quoted, hletter]
      · rfl
      · intro _ _ _ _ _ hu
        exact absurd hu hne
    · -- no unit below the blank is half of a surrogate pair
      have hpiece : Piece.ofUnit c.toNat = .char c := by
        rw [Piece.ofUnit, if_neg (by omega), Char.ofNat_toNat]
      rw [heq]
      change quoted ('\\' :: 'u' :: '0' :: '0' :: a :: b :: rest) = _
      rw [quoted, hunit, Option.bind_some, hpiece]
      rfl
  · by_cases hquote : c = '"'
    · -- the two characters that are escaped besides
      subst hquote
      rfl
    by_cases hslash : c = '\\'
    · subst hslash
      rfl
    -- any other character stands for itself
    have heq : escape c = [c] := by
      unfold escape
      split <;> first | (exfalso; revert hcontrol hquote hslash; decide) | skip
      rw [if_neg hcontrol]
    rw [heq]
    change quoted (c :: rest) = _
    rw [quoted, if_neg hcontrol]
    · rfl
    · exact fun h => hquote h
    · intro _ _ _ _ _ h
      exact absurd h hslash
    · intro _ _ h
      exact absurd h hslash

/-- **A string literal** is read as the characters it was written for. -/
theorem quoted_quote (s : String) (rest : List Char) :
    quoted (s.toList.flatMap escape ++ '"' :: rest) = some (s.toList.map .char, rest) := by
  induction s.toList with
  | nil =>
    rw [List.flatMap_nil, List.nil_append, quoted]
    rfl
  | cons c cs ih =>
    rw [List.flatMap_cons, List.append_assoc, quoted_escape, ih]
    rfl

/-- Characters make up their own text. -/
theorem text?_map_char (cs : List Char) : Piece.text? (cs.map .char) = some cs := by
  induction cs with
  | nil => rfl
  | cons c cs ih =>
    rw [List.map_cons, Piece.text?, ih]
    rfl

end Token

end ConfigLedger
