import ConfigLedger.Proofs.Json.Numbers
import ConfigLedger.Proofs.Json.Strings

/-!
# Tokens of a written value

The compact text of a value is cut into the tokens of the value (`Token.scan_compact`). A number
stands among them as what its text denotes.

A word ends where a character follows that can stand in no word (`Token.Boundary`). In a compact
text that is a comma, a colon, a closing bracket or the end, so words need nothing else to part
them.
-/

namespace ConfigLedger

open Token

namespace Value

mutual

/-- The tokens of the text of a value. -/
def tokens : Value → List Token
  | null => [.null]
  | bool b => [.bool b]
  | number n => [.number n.reread?]
  | string s => [.text (some s)]
  | list items => .openList :: (itemTokens items ++ [.closeList])
  | struct fields => .openStruct :: (fieldTokens fields ++ [.closeStruct])

/-- The tokens of elements with commas between them. -/
def itemTokens : List Value → List Token
  | [] => []
  | [v] => tokens v
  | v :: rest => tokens v ++ .comma :: itemTokens rest

/-- The tokens of fields with commas between them. -/
def fieldTokens : List (String × Value) → List Token
  | [] => []
  | [(key, v)] => .text (some key) :: .colon :: tokens v
  | (key, v) :: rest => .text (some key) :: .colon :: (tokens v ++ .comma :: fieldTokens rest)

end

end Value

namespace Token

/-! ### Words -/

/-- Nothing that follows could prolong a word. -/
def Boundary (rest : List Char) : Prop :=
  ∀ c ∈ rest.head?, isWordChar c = false

theorem boundary_nil : Boundary [] := by
  simp [Boundary]

theorem boundary_cons {c : Char} {rest : List Char} (h : isWordChar c = false) :
    Boundary (c :: rest) := by
  simpa [Boundary] using h

theorem Boundary.takeWhile_append {rest : List Char} (h : Boundary rest) {word : List Char}
    (hword : ∀ c ∈ word, isWordChar c = true) : (word ++ rest).takeWhile isWordChar = word := by
  rw [List.takeWhile_append_of_pos hword]
  cases rest with
  | nil => simp
  | cons c rest => simp [h c rfl]

theorem Boundary.dropWhile_append {rest : List Char} (h : Boundary rest) {word : List Char}
    (hword : ∀ c ∈ word, isWordChar c = true) : (word ++ rest).dropWhile isWordChar = rest := by
  rw [List.dropWhile_append_of_pos hword]
  cases rest with
  | nil => rfl
  | cons c rest => simp [h c rfl]

/-- **A word** is one token. -/
theorem scan_word {word rest : List Char} {token : Token} (hne : word ≠ [])
    (hword : word.all isWordChar = true) (htoken : ofWord? word = some token)
    (hrest : Boundary rest) : scan (word ++ rest) = (scan rest).map (token :: ·) := by
  obtain ⟨c, cs, rfl⟩ := List.exists_cons_of_ne_nil hne
  obtain ⟨hc, hcs⟩ := List.forall_mem_cons.1 (List.all_eq_true.1 hword)
  -- a word starts with none of the characters that are tokens or separate them
  have hblank : isBlank c = false := by
    refine Bool.eq_false_iff.2 fun h => ?_
    simp only [isBlank, Bool.or_eq_true, beq_iff_eq] at h
    rcases h with ((rfl | rfl) | rfl) | rfl <;> revert hc <;> decide
  -- so the word is taken as a whole, up to the boundary
  rw [List.cons_append, scan]
  · simp only [hblank, hc, hrest.takeWhile_append hcs, hrest.dropWhile_append hcs, htoken,
      Bool.false_eq_true, if_false, if_true]
  all_goals
    rintro rfl
    revert hc
    decide

/-- The characters of numbers occur in words. -/
theorem isWordChar_of_isNumeric {c : Char} (h : Numeral.isNumeric c = true) :
    isWordChar c = true := by
  simp only [Numeral.isNumeric, Bool.or_eq_true, beq_iff_eq] at h
  rcases h with ((((h | rfl) | rfl) | rfl) | rfl) | rfl
  · simp [isWordChar, Char.isAlphanum, h]
  all_goals decide

/-- What is read as a number is no other word. -/
theorem ofWord?_of_ofChars? {word : List Char} {n : Numeral} (h : Numeral.ofChars? word = some n) :
    ofWord? word = some (.number n.number?) := by
  unfold ofWord?
  split
  · exact nomatch (show none = some n from h)
  · exact nomatch (show none = some n from h)
  · exact nomatch (show none = some n from h)
  · rw [h]
    rfl

/-- **A number** is read as what its text denotes. -/
theorem scan_number (n : Number) {rest : List Char} (hrest : Boundary rest) :
    scan (n.text ++ rest) = (scan rest).map (.number n.reread? :: ·) := by
  obtain ⟨m, hm, htext⟩ := n.exists_spell
  have hread : n.reread? = m.number? := by
    rw [Number.reread?, htext, Numeral.ofChars?_spell hm, Option.bind_some]
  rw [htext, hread]
  exact scan_word (Numeral.spell_ne_nil hm)
    (List.all_eq_true.2 fun c hc => isWordChar_of_isNumeric (Numeral.isNumeric_of_mem_spell hm hc))
    (ofWord?_of_ofChars? (Numeral.ofChars?_spell hm)) hrest

/-- **A string** is read as itself. -/
theorem scan_quote (s : String) (rest : List Char) :
    scan (Value.quote s ++ rest) = (scan rest).map (.text (some s) :: ·) := by
  have hquoted := quoted_quote s rest
  rw [Value.quote, List.cons_append, List.append_assoc]
  change scan ('"' :: (s.toList.flatMap Value.escape ++ '"' :: rest)) = _
  rw [scan]
  -- what stands between the quotes is read as the string
  split
  · rename_i heq
    rw [hquoted] at heq
    cases heq
  · rename_i pieces rest' heq
    rw [hquoted] at heq
    obtain ⟨rfl, rfl⟩ := Prod.mk.inj (Option.some.inj heq)
    rw [text?_map_char]
    simp only [Option.map_some, String.ofList_toList]

/-! ### Values -/

mutual

/-- **A value** is cut into its tokens. -/
theorem scan_compactChars (v : Value) {rest : List Char} (hrest : Boundary rest) :
    scan (v.compactChars ++ rest) = (scan rest).map (v.tokens ++ ·) := by
  -- literals and strings are single tokens; containers are read between their brackets
  match v with
  | .null => exact scan_word (by decide) (by decide) rfl hrest
  | .bool true => exact scan_word (by decide) (by decide) rfl hrest
  | .bool false => exact scan_word (by decide) (by decide) rfl hrest
  | .number n => exact scan_number n hrest
  | .string s => exact scan_quote s rest
  | .list items =>
    -- the last element ends where the list does
    have hclose : Boundary (']' :: rest) := boundary_cons (by decide)
    change scan ('[' :: (Value.compactItems items ++ [']'] ++ rest)) = _
    rw [scan, List.append_assoc]
    change Option.map _ (scan (_ ++ ']' :: rest)) = _
    rw [scan_compactItems items hclose, scan, Option.map_map, Option.map_map]
    -- the brackets are tokens of their own
    congr 1
    funext tokens
    simp [Value.tokens]
  | .struct fields =>
    -- the last field ends where the struct does
    have hclose : Boundary ('}' :: rest) := boundary_cons (by decide)
    change scan ('{' :: (Value.compactFields fields ++ ['}'] ++ rest)) = _
    rw [scan, List.append_assoc]
    change Option.map _ (scan (_ ++ '}' :: rest)) = _
    rw [scan_compactFields fields hclose, scan, Option.map_map, Option.map_map]
    congr 1
    funext tokens
    simp [Value.tokens]

/-- Elements are cut into their tokens. -/
theorem scan_compactItems (items : List Value) {rest : List Char} (hrest : Boundary rest) :
    scan (Value.compactItems items ++ rest) = (scan rest).map (Value.itemTokens items ++ ·) := by
  match items with
  | [] => simp [Value.compactItems, Value.itemTokens]
  | [v] => exact scan_compactChars v hrest
  | v :: w :: items =>
    -- an element ends at the comma behind it
    have hcomma : Boundary (',' :: (Value.compactItems (w :: items) ++ rest)) :=
      boundary_cons (by decide)
    rw [Value.compactItems, List.append_assoc, List.cons_append, scan_compactChars v hcomma, scan,
      scan_compactItems (w :: items) hrest, Option.map_map, Option.map_map]
    · congr 1
      funext tokens
      simp [Value.itemTokens]
    · simp

/-- Fields are cut into their tokens. -/
theorem scan_compactFields (fields : List (String × Value)) {rest : List Char}
    (hrest : Boundary rest) :
    scan (Value.compactFields fields ++ rest) =
      (scan rest).map (Value.fieldTokens fields ++ ·) := by
  match fields with
  | [] => simp [Value.compactFields, Value.fieldTokens]
  | [(key, v)] =>
    -- key, colon and value, and nothing behind them
    rw [Value.compactFields, List.append_assoc, scan_quote, List.cons_append, scan,
      scan_compactChars v hrest, Option.map_map, Option.map_map]
    rfl
  | (key, v) :: w :: fields =>
    -- the value of a field ends at the comma behind it
    have hcomma : Boundary (',' :: (Value.compactFields (w :: fields) ++ rest)) :=
      boundary_cons (by decide)
    rw [Value.compactFields, List.append_assoc, List.append_assoc, scan_quote, List.cons_append,
      scan, List.cons_append, scan_compactChars v hcomma, scan,
      scan_compactFields (w :: fields) hrest]
    · simp only [Option.map_map]
      congr 1
      funext tokens
      simp [Value.fieldTokens]
    · simp

end

/-- **The text of a value** is cut into the tokens of the value. -/
theorem scan_compact (v : Value) : scan v.compact.toList = some v.tokens := by
  have h := scan_compactChars v boundary_nil
  rw [List.append_nil, scan] at h
  rw [Value.compact, String.toList_ofList, h]
  simp

end Token

end ConfigLedger
