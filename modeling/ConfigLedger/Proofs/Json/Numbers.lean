import ConfigLedger.Json.Number

/-!
# Number literals read back

`Numeral.spell` writes a literal out, and a literal that follows the grammar (`Numeral.Proper`) is
read from what it spells (`Numeral.ofChars?_spell`). The text of every number is such a spelling
(`Number.exists_spell`), so it is always read as some literal.

What that literal denotes is `Number.reread?`. An integer of either sign is always read back as
itself (`Number.reread?_natural`, `Number.reread?_negative`). Reading a binary64 number rounds
twice, so it may come back as a neighbour, and nothing here says that it does not.
-/

namespace ConfigLedger

namespace Numeral

/-! ### Spelling -/

/-- A run of one or more decimal digits. -/
structure Digits (ds : List Char) : Prop where
  ne_nil : ds ≠ []
  isDigit : ∀ c ∈ ds, c.isDigit = true

/-- The part behind the whole digits that shows a fraction. -/
def spellFraction : Option (List Char) → List Char
  | none => []
  | some digits => '.' :: digits

/-- The part that shows an exponent, always with its sign. -/
def spellExponent : Option (Bool × List Char) → List Char
  | none => []
  | some (minus, digits) => 'e' :: (if minus then '-' else '+') :: digits

/-- The literal without its sign. -/
def spellUnsigned (n : Numeral) : List Char :=
  n.whole ++ (spellFraction n.fraction ++ spellExponent n.exponent)

/-- The literal in characters. -/
def spell (n : Numeral) : List Char :=
  if n.negative then '-' :: n.spellUnsigned else n.spellUnsigned

/-- A literal that follows the grammar: every part has digits, and a leading zero stands alone. -/
structure Proper (n : Numeral) : Prop where
  whole : Digits n.whole
  leading : n.whole.head? = some '0' → n.whole.length = 1
  fraction : ∀ ds, n.fraction = some ds → Digits ds
  exponent : ∀ minus ds, n.exponent = some (minus, ds) → Digits ds

theorem Digits.of_sublist {ds es : List Char} (h : Digits ds) (hsub : es.Sublist ds)
    (hne : es ≠ []) : Digits es :=
  ⟨hne, fun c hc => h.isDigit c (hsub.subset hc)⟩

theorem Digits.append {ds : List Char} (h : Digits ds) (es : List Char)
    (hes : ∀ {c}, c ∈ es → c.isDigit = true) : Digits (ds ++ es) :=
  ⟨by simp [h.ne_nil], fun c hc => (List.mem_append.1 hc).elim (h.isDigit c) hes⟩

theorem Digits.takeWhile_append {ds : List Char} (h : Digits ds) (rest : List Char) :
    (ds ++ rest).takeWhile Char.isDigit = ds ++ rest.takeWhile Char.isDigit :=
  List.takeWhile_append_of_pos h.isDigit

theorem Digits.dropWhile_append {ds : List Char} (h : Digits ds) (rest : List Char) :
    (ds ++ rest).dropWhile Char.isDigit = rest.dropWhile Char.isDigit :=
  List.dropWhile_append_of_pos h.isDigit

/-! ### Reading what is spelled -/

theorem exponent?_spell {e : Option (Bool × List Char)}
    (h : ∀ minus ds, e = some (minus, ds) → Digits ds) :
    exponent? (spellExponent e) = some (e, []) := by
  rcases e with _ | ⟨minus, ds⟩
  · rfl
  · have hds : Digits ds := h minus ds rfl
    have htake : ds.takeWhile Char.isDigit = ds := by
      simpa using hds.takeWhile_append []
    have hdrop : ds.dropWhile Char.isDigit = [] := by
      simpa using hds.dropWhile_append []
    cases minus <;> simp [spellExponent, exponent?, htake, hdrop, hds.ne_nil]

theorem fraction?_spell {f : Option (List Char)} (h : ∀ ds, f = some ds → Digits ds)
    (e : Option (Bool × List Char)) :
    fraction? (spellFraction f ++ spellExponent e) = some (f, spellExponent e) := by
  -- what follows the digits starts with no digit
  have htake : (spellExponent e).takeWhile Char.isDigit = [] := by
    rcases e with _ | ⟨minus, ds⟩ <;> rfl
  have hdrop : (spellExponent e).dropWhile Char.isDigit = spellExponent e := by
    rcases e with _ | ⟨minus, ds⟩ <;> rfl
  -- without a fraction nothing is taken, and with one its digits are
  rcases f with _ | ds
  · rcases e with _ | ⟨minus, ds⟩ <;> rfl
  · have hds : Digits ds := h ds rfl
    have hall : (ds ++ spellExponent e).takeWhile Char.isDigit = ds := by
      rw [hds.takeWhile_append, htake, List.append_nil]
    simp [spellFraction, fraction?, hall, hds.dropWhile_append, hdrop, hds.ne_nil]

/-- The literal that goes on behind its whole digits. -/
def ofRest? (negative : Bool) (whole rest : List Char) : Option Numeral :=
  if whole.isEmpty || (whole.head? == some '0' && whole.length != 1) then none
  else do
    let (fraction, rest) ← fraction? rest
    let (exponent, rest) ← exponent? rest
    if rest.isEmpty then some ⟨negative, whole, fraction, exponent⟩ else none

theorem ofChars?_minus (cs : List Char) :
    ofChars? ('-' :: cs) = ofRest? true (cs.takeWhile Char.isDigit) (cs.dropWhile Char.isDigit) :=
  rfl

theorem ofChars?_of_ne_minus {c : Char} (hc : c ≠ '-') (cs : List Char) :
    ofChars? (c :: cs) = ofRest? false ((c :: cs).takeWhile Char.isDigit)
      ((c :: cs).dropWhile Char.isDigit) := by
  unfold ofChars?
  split
  rename_i negative cs' heq
  split at heq
  · rename_i rest hminus
    exact absurd (List.cons.inj hminus).1 hc
  · obtain ⟨rfl, rfl⟩ := Prod.mk.inj heq
    rfl

/-- **A literal is read from what it spells.** -/
theorem ofChars?_spell {n : Numeral} (h : n.Proper) : ofChars? n.spell = some n := by
  obtain ⟨negative, whole, fraction, exponent⟩ := n
  -- the whole part ends where the fraction or the exponent starts, or the text does
  have htake : (whole ++ (spellFraction fraction ++ spellExponent exponent)).takeWhile
      Char.isDigit = whole := by
    rw [h.whole.takeWhile_append]
    rcases fraction with _ | _ <;> rcases exponent with _ | ⟨_, _⟩ <;>
      simp [spellFraction, spellExponent]
  have hdrop : (whole ++ (spellFraction fraction ++ spellExponent exponent)).dropWhile
      Char.isDigit = spellFraction fraction ++ spellExponent exponent := by
    rw [h.whole.dropWhile_append]
    rcases fraction with _ | _ <;> rcases exponent with _ | ⟨_, _⟩ <;>
      simp [spellFraction, spellExponent]
  have hsign : ofChars? (spell ⟨negative, whole, fraction, exponent⟩) =
      ofRest? negative whole (spellFraction fraction ++ spellExponent exponent) := by
    cases negative with
    | true =>
      simp only [spell, spellUnsigned, if_true]
      rw [ofChars?_minus, htake, hdrop]
    | false =>
      -- the first digit is no sign
      obtain ⟨c, cs, rfl⟩ := List.exists_cons_of_ne_nil h.whole.ne_nil
      have hc : c ≠ '-' := by
        rintro rfl
        exact absurd (h.whole.isDigit _ List.mem_cons_self) (by decide)
      simp only [spell, spellUnsigned, Bool.false_eq_true, if_false]
      rw [List.cons_append] at htake hdrop ⊢
      rw [ofChars?_of_ne_minus hc, htake, hdrop]
  -- a zero in front of other digits is refused, and a proper literal has none
  have hleading : (whole.isEmpty || (whole.head? == some '0' && whole.length != 1)) = false := by
    simpa [h.whole.ne_nil] using h.leading
  rw [hsign, ofRest?, hleading, if_neg Bool.false_ne_true, fraction?_spell h.fraction]
  simp only [Option.bind_eq_bind, Option.bind_some, exponent?_spell h.exponent]
  rfl

/-! ### What occurs in a spelling -/

/-- The characters of a spelling are characters of numbers. -/
theorem isNumeric_of_mem_spell {n : Numeral} (h : n.Proper) {c : Char} (hc : c ∈ n.spell) :
    isNumeric c = true := by
  have hdigits {ds : List Char} (hds : Digits ds) (hmem : c ∈ ds) : isNumeric c = true := by
    simp [isNumeric, hds.isDigit c hmem]
  obtain ⟨negative, whole, fraction, exponent⟩ := n
  -- behind the sign there are the whole part, the fraction and the exponent
  have hunsigned (hmem : c ∈ spellUnsigned ⟨negative, whole, fraction, exponent⟩) :
      isNumeric c = true := by
    simp only [spellUnsigned, List.mem_append] at hmem
    -- in each part there are digits, behind a dot or an exponent's mark and sign
    rcases hmem with hmem | hmem | hmem
    · exact hdigits h.whole hmem
    · rcases fraction with _ | ds
      · simp [spellFraction] at hmem
      · rcases List.mem_cons.1 hmem with rfl | hmem
        · rfl
        · exact hdigits (h.fraction ds rfl) hmem
    · rcases exponent with _ | ⟨minus, ds⟩
      · simp [spellExponent] at hmem
      · simp only [spellExponent, List.mem_cons] at hmem
        rcases hmem with rfl | rfl | hmem
        · rfl
        · cases minus <;> rfl
        · exact hdigits (h.exponent minus ds rfl) hmem
  cases negative with
  | true =>
    rcases List.mem_cons.1 hc with rfl | hc
    · rfl
    · exact hunsigned hc
  | false => exact hunsigned hc

theorem spell_ne_nil {n : Numeral} (h : n.Proper) : n.spell ≠ [] := by
  obtain ⟨negative, whole, fraction, exponent⟩ := n
  have := h.whole.ne_nil
  cases negative <;> simp_all [spell, spellUnsigned]

end Numeral

/-! ### Digits of naturals -/

namespace Numeral

theorem digits_toDigits (n : Nat) : Digits (Nat.toDigits 10 n) :=
  ⟨Nat.toDigits_ne_nil, fun _ hc => Nat.isDigit_of_mem_toDigits (by decide) (by decide) hc⟩

/-- The digits of a natural other than zero start with no zero. -/
theorem head?_toDigits {n : Nat} (h : n ≠ 0) : (Nat.toDigits 10 n).head? ≠ some '0' := by
  induction n using Nat.strongRecOn with
  | _ n ih =>
    by_cases hlt : n < 10
    -- a single digit, which is no zero
    · have hall : ∀ m : Fin 10, m.val ≠ 0 → Nat.digitChar m ≠ '0' := by decide
      rw [Nat.toDigits_of_lt_base hlt]
      simpa using hall ⟨n, hlt⟩ h
    -- the last digit is behind the digits of a tenth
    · have hhead : (Nat.toDigits 10 (n / 10)).head? ≠ some '0' := ih _ (by omega) (by omega)
      rw [Nat.toDigits_of_base_le (by decide) (by omega), List.head?_append]
      cases hcons : Nat.toDigits 10 (n / 10) with
      | nil => exact absurd hcons Nat.toDigits_ne_nil
      | cons c cs =>
        rw [hcons] at hhead
        exact hhead

theorem leading_toDigits {n : Nat} (h : (Nat.toDigits 10 n).head? = some '0') :
    (Nat.toDigits 10 n).length = 1 := by
  by_cases hn : n = 0
  · subst hn
    rfl
  · exact absurd h (head?_toDigits hn)

/-- The digits of a natural denote it. -/
theorem foldl_toDigits (n : Nat) :
    (Nat.toDigits 10 n).foldl (fun v c => v * 10 + digit c) 0 = n := by
  have h := Nat.ofDigitChars_ten_toDigits (n := n)
  rw [Nat.ofDigitChars_eq_foldl] at h
  simpa only [digit, Nat.mul_comm] using h

/-- The literal of a whole number. -/
def ofNat (negative : Bool) (n : Nat) : Numeral :=
  ⟨negative, Nat.toDigits 10 n, none, none⟩

theorem proper_ofNat (negative : Bool) (n : Nat) : (ofNat negative n).Proper where
  whole := digits_toDigits n
  leading := leading_toDigits
  fraction := by simp [ofNat]
  exponent := by simp [ofNat]

end Numeral

/-! ### Text of decimals -/

namespace Decimal

open Numeral

theorem isDigit_of_mem_zeros {count : Int} {c : Char} (h : c ∈ zeros count) :
    c.isDigit = true := by
  rw [List.eq_of_mem_replicate h]
  rfl

/-- A literal whose whole digits do not start with a zero. -/
theorem proper_of_head {negative : Bool} {whole : List Char} {fraction : Option (List Char)}
    {exponent : Option (Bool × List Char)} (hwhole : Digits whole) (hhead : whole.head? ≠ some '0')
    (hfraction : ∀ ds, fraction = some ds → Digits ds)
    (hexponent : ∀ minus ds, exponent = some (minus, ds) → Digits ds) :
    Proper ⟨negative, whole, fraction, exponent⟩ :=
  ⟨hwhole, fun h => absurd h hhead, hfraction, hexponent⟩

/-- A literal below one. -/
theorem proper_below_one {negative : Bool} {ds : List Char} (h : Digits ds) :
    Proper ⟨negative, ['0'], some ds, none⟩ where
  whole := ⟨List.cons_ne_nil _ _, by simp⟩
  leading _ := rfl
  fraction := by
    rintro ds ⟨⟩
    exact h
  exponent := by
    rintro minus ds ⟨⟩

/-- **The text of a decimal is a literal.** -/
theorem exists_write (layout : Layout) (d : Decimal) :
    ∃ n : Numeral, n.Proper ∧ n.negative = false ∧ d.write layout = n.spell := by
  have hzero : Digits ['0'] := ⟨List.cons_ne_nil _ _, by simp⟩
  -- zero has a text of its own
  by_cases hd : d.digits = 0
  · refine ⟨⟨false, ['0'], some ['0'], none⟩, proper_below_one hzero, rfl, ?_⟩
    simp [write, hd, spell, spellUnsigned, spellFraction, spellExponent]
  -- otherwise the digits are written, without a zero in front
  have hdigits : Digits (Nat.toDigits 10 d.digits) := digits_toDigits d.digits
  have hhead : (Nat.toDigits 10 d.digits).head? ≠ some '0' := head?_toDigits hd
  unfold write
  simp only [if_neg hd]
  generalize Nat.toDigits 10 d.digits = digits at *
  have hlength : 0 < digits.length := List.length_pos_iff.2 hdigits.ne_nil
  generalize hleading : d.exponent + digits.length - 1 = leading
  -- the digits before the point, if there are some
  have htake {k : Nat} (hk : 0 < k) : Digits (digits.take k) ∧
      (digits.take k).head? ≠ some '0' := by
    refine ⟨hdigits.of_sublist (List.take_sublist _ _) ?_, ?_⟩
    · simpa [hdigits.ne_nil] using Nat.ne_of_gt hk
    · rwa [List.head?_take, if_neg (Nat.ne_of_gt hk)]
  split
  · split
    · -- a whole number, shown with a fraction of zero
      refine ⟨⟨false, digits ++ zeros d.exponent, some ['0'], none⟩,
        proper_of_head (hdigits.append _ isDigit_of_mem_zeros) ?_ ?_ (by simp), rfl, ?_⟩
      · cases digits <;> simp_all
      · rintro ds ⟨⟩
        exact hzero
      · simp [spell, spellUnsigned, spellFraction, spellExponent]
    · split
      · -- the point stands between the digits
        refine ⟨⟨false, digits.take (leading + 1).toNat, some (digits.drop (leading + 1).toNat),
          none⟩, proper_of_head (htake (by omega)).1 (htake (by omega)).2 ?_ (by simp), rfl, ?_⟩
        · rintro ds ⟨⟩
          refine hdigits.of_sublist (List.drop_sublist _ _) ?_
          rw [Ne, List.drop_eq_nil_iff]
          omega
        · simp [spell, spellUnsigned, spellFraction, spellExponent]
      · -- all digits stand behind the point
        refine ⟨⟨false, ['0'], some (zeros (-leading - 1) ++ digits), none⟩,
          proper_below_one ⟨by simp [hdigits.ne_nil], fun c hc => ?_⟩, rfl, ?_⟩
        · rcases List.mem_append.1 hc with hc | hc
          · exact isDigit_of_mem_zeros hc
          · exact hdigits.isDigit c hc
        · simp [spell, spellUnsigned, spellFraction, spellExponent]
  · -- one digit, perhaps further ones behind the point, and an exponent
    refine ⟨⟨false, digits.take 1, if (digits.drop 1).isEmpty then none else some (digits.drop 1),
      some (leading < 0, Nat.toDigits 10 leading.natAbs)⟩,
      proper_of_head (htake (by omega)).1 (htake (by omega)).2 ?_ ?_, rfl, ?_⟩
    · intro ds h
      split at h
      · cases h
      · rename_i hne
        cases h
        exact hdigits.of_sublist (List.drop_sublist _ _) (by simpa using hne)
    · rintro minus ds ⟨⟩
      exact digits_toDigits _
    · cases hrest : digits.drop 1 <;> simp [spell, spellUnsigned, spellFraction, spellExponent]

end Decimal

namespace Number

open Numeral

theorem text_natural (n : UInt64) : (natural n).text = (ofNat false n.toNat).spell := by
  simp [text, spell, spellUnsigned, ofNat, spellFraction, spellExponent]

theorem text_negative (below : Fin 0x8000000000000000) :
    (negative below).text = (ofNat true (below.val + 1)).spell := by
  simp [text, spell, spellUnsigned, ofNat, spellFraction, spellExponent]

/-- **The text of a number is a literal.** -/
theorem exists_spell (n : Number) : ∃ m : Numeral, m.Proper ∧ n.text = m.spell := by
  cases n with
  | natural n => exact ⟨ofNat false n.toNat, proper_ofNat _ _, text_natural n⟩
  | negative below => exact ⟨ofNat true (below.val + 1), proper_ofNat _ _, text_negative below⟩
  | real x =>
    obtain ⟨m, hm, hsign, heq⟩ := Decimal.exists_write Decimal.plain x.shortest
    refine ⟨{ m with negative := x.negative }, ⟨hm.whole, hm.leading, hm.fraction, hm.exponent⟩, ?_⟩
    rw [spell, hsign, if_neg Bool.false_ne_true] at heq
    rw [text, Binary64.text, heq]
    cases x.negative <;> rfl

/-- The number that the text of a number is read as, if that is not too large. -/
def reread? (n : Number) : Option Number :=
  (ofChars? n.text).bind number?

/-- **Naturals** are read back. -/
theorem reread?_natural (n : UInt64) : (natural n).reread? = some (natural n) := by
  rw [reread?, text_natural, ofChars?_spell (proper_ofNat _ _), Option.bind_some]
  simp only [number?, ofNat, foldl_toDigits]
  simp [n.toNat_lt]

/-- **Negative integers** are read back. -/
theorem reread?_negative (below : Fin 0x8000000000000000) :
    (negative below).reread? = some (negative below) := by
  rw [reread?, text_negative, ofChars?_spell (proper_ofNat _ _), Option.bind_some]
  have hvalue := foldl_toDigits (below.val + 1)
  change number? ⟨true, Nat.toDigits 10 (below.val + 1), none, none⟩ = _
  generalize Nat.toDigits 10 (below.val + 1) = whole at hvalue
  simp only [number?, hvalue, if_true]
  rw [dif_pos ⟨by omega, by omega⟩]
  rfl

end Number

end ConfigLedger
