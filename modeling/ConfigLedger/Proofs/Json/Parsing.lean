import ConfigLedger.Json.Tree
import ConfigLedger.Proofs.Json.Tokens

/-!
# Parsing a written value

The text of a value parses as the tree of the value (`Tree.ofText?_compact`). That tree,
`Value.tree`, is the value again but for its numbers, which are what their texts denote.

The stack machine is followed element by element: from the start of a value it comes to the state
behind the value, whatever containers are open around it (`Reading.run_tokens`).
-/

namespace ConfigLedger

namespace Value

mutual

/-- The tree of the text of a value. -/
def tree : Value → Tree
  | null => .null
  | bool b => .bool b
  | number n => .number n.reread?
  | string s => .text (some s)
  | list items => .list (itemTrees items)
  | struct fields => .struct (fieldTrees fields)

/-- The trees of elements. -/
def itemTrees : List Value → List Tree
  | [] => []
  | v :: rest => tree v :: itemTrees rest

/-- The trees of fields. -/
def fieldTrees : List (String × Value) → List (Option String × Tree)
  | [] => []
  | (key, v) :: rest => (some key, tree v) :: fieldTrees rest

end

theorem itemTrees_eq_map (items : List Value) : itemTrees items = items.map tree := by
  induction items with
  | nil => rfl
  | cons v items ih => rw [itemTrees, ih, List.map_cons]

theorem fieldTrees_eq_map (fields : List (String × Value)) :
    fieldTrees fields = fields.map fun field => (some field.1, field.2.tree) := by
  induction fields with
  | nil => rfl
  | cons field fields ih => rw [fieldTrees, ih, List.map_cons]

end Value

namespace Reading

open Value

/-- Inside a list that has just been opened, a value starts as everywhere. -/
theorem run_listStart (v : Value) (outer : List Frame) (rest : List Token) :
    (listStart outer).run (v.tokens ++ rest) =
      (value (.list [] :: outer)).run (v.tokens ++ rest) := by
  cases v <;> rfl

mutual

/-- **A value** is parsed as its tree. -/
theorem run_tokens (v : Value) (outer : List Frame) (rest : List Token) :
    (value outer).run (v.tokens ++ rest) = (after v.tree outer).run rest := by
  -- scalars and the empty containers are one or two tokens; the others open, then read their parts
  match v with
  | .null => rfl
  | .bool b => rfl
  | .number n => rfl
  | .string s => rfl
  | .list [] => rfl
  | .list (v :: items) =>
    change (listStart outer).run (itemTokens (v :: items) ++ [.closeList] ++ rest) = _
    -- no value starts with the bracket that would close the list
    have hfirst : ∃ more, itemTokens (v :: items) ++ [.closeList] ++ rest = v.tokens ++ more := by
      cases items with
      | nil => exact ⟨_, List.append_assoc _ _ _⟩
      | cons w items => exact ⟨_, by rw [itemTokens, List.append_assoc, List.append_assoc]; simp⟩
    obtain ⟨more, hmore⟩ := hfirst
    rw [hmore, run_listStart, ← hmore, List.append_assoc]
    exact run_itemTokens (v :: items) (List.cons_ne_nil _ _) [] outer rest
  | .struct [] => rfl
  | .struct (field :: fields) =>
    change (structStart outer).run (fieldTokens (field :: fields) ++ [.closeStruct] ++ rest) = _
    rw [List.append_assoc]
    -- no field starts with the brace that would close the struct
    have hstart : (structStart outer).run (fieldTokens (field :: fields) ++ .closeStruct :: rest) =
        (nextKey [] outer).run (fieldTokens (field :: fields) ++ .closeStruct :: rest) := by
      cases fields <;> rfl
    exact hstart.trans (run_fieldTokens (field :: fields) (List.cons_ne_nil _ _) [] outer rest)

/-- The remaining elements of a list. -/
theorem run_itemTokens (items : List Value) (hne : items ≠ []) (done : List Tree)
    (outer : List Frame) (rest : List Token) :
    (value (.list done :: outer)).run (itemTokens items ++ .closeList :: rest) =
      (after (.list (done.reverse ++ itemTrees items)) outer).run rest := by
  match items with
  | [] => exact absurd rfl hne
  | [v] =>
    -- behind the last element the list is closed
    rw [itemTokens, run_tokens v]
    simp [run, step, itemTrees]
  | v :: w :: items =>
    -- the comma behind an element leads to the next one
    rw [itemTokens, List.append_assoc, run_tokens v, List.cons_append]
    · change (value (.list (v.tree :: done) :: outer)).run _ = _
      rw [run_itemTokens (w :: items) (List.cons_ne_nil _ _)]
      simp [itemTrees]
    · simp

/-- The remaining fields of a struct. -/
theorem run_fieldTokens (fields : List (String × Value)) (hne : fields ≠ [])
    (done : List (Option String × Tree)) (outer : List Frame) (rest : List Token) :
    (nextKey done outer).run (fieldTokens fields ++ .closeStruct :: rest) =
      (after (.struct (done.reverse ++ fieldTrees fields)) outer).run rest := by
  match fields with
  | [] => exact absurd rfl hne
  | [(key, v)] =>
    -- the same behind the last field, whose key was read before
    change (value (.struct done (some key) :: outer)).run (v.tokens ++ .closeStruct :: rest) = _
    rw [run_tokens v]
    simp [run, step, fieldTrees]
  | (key, v) :: w :: fields =>
    change (value (.struct done (some key) :: outer)).run
      (v.tokens ++ .comma :: fieldTokens (w :: fields) ++ .closeStruct :: rest) = _
    rw [List.append_assoc, run_tokens v, List.cons_append]
    -- the comma behind a field leads to the next key
    change (nextKey ((some key, v.tree) :: done) outer).run _ = _
    rw [run_fieldTokens (w :: fields) (List.cons_ne_nil _ _)]
    simp [fieldTrees]

end

end Reading

namespace Tree

/-- **The text of a value** parses as the tree of the value. -/
theorem ofText?_compact (v : Value) : ofText? v.compact = some v.tree := by
  have hrun := Reading.run_tokens v [] []
  rw [List.append_nil] at hrun
  simp only [ofText?, Token.scan_compact, Option.bind_eq_bind, Option.bind_some, hrun]
  rfl

end Tree

end ConfigLedger
