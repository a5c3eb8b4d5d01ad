import ConfigLedger.Sorting
import Mathlib.Data.List.Basic

/-!
# The order behind a sort

`Value.compare` is a comparison of three things in turn: the kind of a value, its place among
truth values and numbers, and its text (`Value.compare_eq`). Each of these is compared in a
linear order, so the comparison of values is a total preorder, and so is every list of sort
keys (`instTransCmpCompareBy`).

A stable sort by a total preorder rearranges its items (`sortBy_perm`) and puts them in order
(`pairwise_sortBy`). Where the keys tell all items apart, the result does not depend on the
order in which they came (`sortBy_eq_of_perm`). Items that compare equal keep their order, so the
sort of some of the items is a part of the sort of all of them (`filter_sortBy`).
-/

open Std

namespace ConfigLedger

namespace Value

/-- The place of a value among the values of its kind that are ordered by number. -/
def ordinal : Option Value → Int
  | some (bool b) => if b then 1 else 0
  | some (number n) => n.toBinary64.rank
  | _ => 0

/-- The text that decides among values of the kind of texts. -/
def content : Option Value → String
  | some (string s) => s
  | _ => ""

/-- Values are compared by their kind, then by their place, and then by their text. -/
theorem compare_eq :
    Value.compare =
      compareLex (compareOn rank) (compareLex (compareOn ordinal) (compareOn content)) := by
  funext a b
  have hself (s : String) : Ord.compare s s = .eq := ReflOrd.compare_self
  -- values of different kinds compare by their kinds, and others by what they are
  rcases a with _ | (_ | a | a | a | a | a) <;> rcases b with _ | (_ | b | b | b | b | b) <;>
    simp only [Value.compare, compareLex, compareOn, rank, ordinal, content, hself] <;> try rfl
  · cases a <;> cases b <;> rfl
  · rw [Ordering.then_eq]
    rfl

instance : TransCmp Value.compare := by
  rw [compare_eq]
  infer_instance

end Value

variable {α β : Type} {field : α → String → Option Value}

instance (key : SortKey) : TransCmp (key.compare field) := by
  have horiented {a b : α} : key.compare field a b = (key.compare field b a).swap := by
    have hvalues : Value.compare (field a key.path) (field b key.path) =
        (Value.compare (field b key.path) (field a key.path)).swap := OrientedCmp.eq_swap
    simp only [SortKey.compare]
    cases key.direction
    · exact hvalues
    · exact congrArg Ordering.swap hvalues
  refine { eq_swap := horiented, isLE_trans := fun {a b c} hab hbc => ?_ }
  simp only [SortKey.compare] at hab hbc ⊢
  cases hdirection : key.direction <;> simp only [hdirection] at hab hbc ⊢
  · exact TransCmp.isLE_trans hab hbc
  · -- a falling key compares the other way round
    rw [← @OrientedCmp.eq_swap _ Value.compare] at hab hbc ⊢
    exact TransCmp.isLE_trans hbc hab

theorem compareBy_nil (a b : α) : compareBy field [] a b = .eq := rfl

theorem compareBy_cons (key : SortKey) (keys : List SortKey) :
    compareBy field (key :: keys) = compareLex (key.compare field) (compareBy field keys) := rfl

theorem compareBy_append (keys more : List SortKey) (a b : α) :
    compareBy field (keys ++ more) a b =
      (compareBy field keys a b).then (compareBy field more a b) := by
  induction keys with
  | nil => rfl
  | cons key keys ih =>
    rw [List.cons_append, compareBy_cons, compareBy_cons, compareLex, compareLex, ih,
      Ordering.then_assoc]

/-- Every list of sort keys is a total preorder. -/
instance instTransCmpCompareBy (keys : List SortKey) : TransCmp (compareBy field keys) := by
  induction keys with
  | nil =>
    refine { eq_swap := fun {a b} => ?_, isLE_trans := fun {a b c} _ _ => ?_ }
    · rw [compareBy_nil, compareBy_nil]
      rfl
    · rw [compareBy_nil]
      rfl
  | cons key keys ih =>
    rw [compareBy_cons]
    infer_instance

/-- Two items are in order, one way round or the other. -/
theorem compareBy_total (keys : List SortKey) (a b : α) :
    ((compareBy field keys a b).isLE || (compareBy field keys b a).isLE) = true := by
  rw [@OrientedCmp.eq_swap _ (compareBy field keys) _ b a]
  cases compareBy field keys a b <;> rfl

theorem sortBy_perm (keys : List SortKey) (items : List α) : (sortBy field keys items).Perm items :=
  List.mergeSort_perm _ _

@[simp] theorem mem_sortBy {keys : List SortKey} {items : List α} {a : α} :
    a ∈ sortBy field keys items ↔ a ∈ items :=
  (sortBy_perm keys items).mem_iff

theorem pairwise_sortBy (keys : List SortKey) (items : List α) :
    (sortBy field keys items).Pairwise fun a b => (compareBy field keys a b).isLE = true :=
  List.pairwise_mergeSort (fun _ _ _ => TransCmp.isLE_trans) (compareBy_total keys) items

/-- **The order of arrival does not show** where the keys tell all items apart. -/
theorem sortBy_eq_of_perm {keys : List SortKey} {items others : List α} (h : items.Perm others)
    (happart : ∀ a ∈ items, ∀ b ∈ items, compareBy field keys a b = .eq → a = b) :
    sortBy field keys items = sortBy field keys others := by
  have hperm : (sortBy field keys items).Perm (sortBy field keys others) :=
    (sortBy_perm keys items).trans (h.trans (sortBy_perm keys others).symm)
  -- two sorted lists of the same items differ at most in items that compare equal
  refine List.Perm.eq_of_pairwise (fun a b ha hb hab hba => ?_) (pairwise_sortBy keys items)
    (pairwise_sortBy keys others) hperm
  refine happart a (mem_sortBy.1 ha) b ?_ (OrientedCmp.isLE_antisymm hab hba)
  exact h.mem_iff.2 (mem_sortBy.1 hb)

/-! ### Stability -/

/-- A list is cut in only one way into items without a property and, behind them, items with it. -/
theorem append_inj_of_forall {q : α → Bool} {l₁ l₂ m₁ m₂ : List α} (h : l₁ ++ l₂ = m₁ ++ m₂)
    (hl₁ : ∀ a ∈ l₁, q a = false) (hl₂ : ∀ a ∈ l₂, q a = true)
    (hm₁ : ∀ a ∈ m₁, q a = false) (hm₂ : ∀ a ∈ m₂, q a = true) : l₁ = m₁ ∧ l₂ = m₂ := by
  -- an item is in one of the parts, never in both
  have happart (a : α) (hfalse : q a = false) (htrue : q a = true) : False := by
    rw [hfalse] at htrue
    cases htrue
  induction l₁ generalizing m₁ with
  | nil =>
    cases m₁ with
    | nil => exact ⟨rfl, h⟩
    | cons b m₁ =>
      rw [List.nil_append] at h
      exact (happart b (hm₁ b List.mem_cons_self) (hl₂ b (h ▸ List.mem_cons_self))).elim
  | cons a l₁ ih =>
    cases m₁ with
    | nil =>
      rw [List.nil_append] at h
      exact (happart a (hl₁ a List.mem_cons_self) (hm₂ a (h ▸ List.mem_cons_self))).elim
    | cons b m₁ =>
      -- the same item in front, so the rest is cut by induction
      obtain ⟨hab, hrest⟩ := List.cons.inj h
      obtain ⟨hleft, hright⟩ :=
        ih hrest (List.forall_mem_cons.1 hl₁).2 (List.forall_mem_cons.1 hm₁).2
      exact ⟨congrArg₂ List.cons hab hleft, hright⟩

variable (field) in
/-- An item is sorted in behind those that it exceeds, and before all others. -/
theorem exists_sortBy_cons (keys : List SortKey) (a : α) (items : List α) :
    ∃ before behind, sortBy field keys (a :: items) = before ++ a :: behind ∧
      sortBy field keys items = before ++ behind ∧
      (∀ b ∈ before, (compareBy field keys a b).isLE = false) ∧
      ∀ b ∈ behind, (compareBy field keys a b).isLE = true := by
  -- an insertion into what is sorted already, in front of all that do not precede it
  obtain ⟨before, behind, hsort, hrest, hbefore⟩ :=
    @List.mergeSort_cons α (fun a b => (compareBy field keys a b).isLE)
      (fun _ _ _ => TransCmp.isLE_trans) (compareBy_total keys) a items
  refine ⟨before, behind, hsort, hrest, fun b hb => by simpa using hbefore b hb, ?_⟩
  have hpair : (sortBy field keys (a :: items)).Pairwise fun a b =>
      (compareBy field keys a b).isLE = true := pairwise_sortBy keys _
  rw [sortBy, hsort] at hpair
  exact (List.pairwise_cons.1 (List.pairwise_append.1 hpair).2.1).1

/-- **Stability.** Dropping items before or after the sort is the same. -/
theorem filter_sortBy (keys : List SortKey) (items : List α) (p : α → Bool) :
    (sortBy field keys items).filter p = sortBy field keys (items.filter p) := by
  induction items with
  | nil => simp [sortBy]
  | cons a items ih =>
    obtain ⟨before, behind, hsort, hrest, hbefore, hbehind⟩ :=
      exists_sortBy_cons field keys a items
    rw [hrest, List.filter_append] at ih
    rw [hsort, List.filter_append]
    by_cases ha : p a = true
    · -- the new item cuts the items that stay at the same place
      obtain ⟨before', behind', hsort', hrest', hbefore', hbehind'⟩ :=
        exists_sortBy_cons field keys a (items.filter p)
      rw [hrest'] at ih
      obtain ⟨hleft, hright⟩ := append_inj_of_forall ih
        (fun b hb => hbefore b (List.mem_filter.1 hb).1)
        (fun b hb => hbehind b (List.mem_filter.1 hb).1) hbefore' hbehind'
      rw [List.filter_cons_of_pos ha, List.filter_cons_of_pos ha, hsort', hleft, hright]
    · -- an item that is dropped leaves no trace
      rw [List.filter_cons_of_neg ha, List.filter_cons_of_neg ha, ih]

/-- Items that are in order already stay as they are. -/
theorem sortBy_of_pairwise {keys : List SortKey} {items : List α}
    (h : items.Pairwise fun a b => (compareBy field keys a b).isLE = true) :
    sortBy field keys items = items :=
  List.mergeSort_of_pairwise h

/-- **Items that compare equal** to one another stay in the order in which they came. -/
theorem filter_sortBy_tied (keys : List SortKey) (items : List α) (a : α) :
    (sortBy field keys items).filter (fun b => compareBy field keys b a == .eq) =
      items.filter fun b => compareBy field keys b a == .eq := by
  rw [filter_sortBy]
  refine sortBy_of_pairwise (List.pairwise_of_forall_mem_list fun b hb c hc => ?_)
  have hba : compareBy field keys b a = .eq := by simpa using (List.mem_filter.1 hb).2
  have hca : compareBy field keys c a = .eq := by simpa using (List.mem_filter.1 hc).2
  have hbc : compareBy field keys b c = .eq := TransCmp.eq_trans hba (OrientedCmp.eq_symm hca)
  rw [hbc]
  rfl

/-- **What is sorted to the front**: of the items that compare equal to a least one, the one that
came first. -/
theorem head?_sortBy {keys : List SortKey} {items : List α} {least : α} (hmem : least ∈ items)
    (hleast : ∀ a ∈ items, (compareBy field keys least a).isLE = true) :
    (sortBy field keys items).head? =
      items.find? fun a => compareBy field keys a least == .eq := by
  let tie (a : α) : Bool := compareBy field keys a least == .eq
  -- the item at the front does not exceed the least one, so it compares equal to it
  have hfront : ((sortBy field keys items).filter tie).head? =
      (sortBy field keys items).head? := by
    have hpair := @pairwise_sortBy α field keys items
    have hitems := fun a => @mem_sortBy α field keys items a
    cases hsort : sortBy field keys items with
    | nil => rfl
    | cons first rest =>
      rw [hsort] at hpair hitems
      -- the first item is no greater than any other, and the least one is no greater than it
      have hle : (compareBy field keys first least).isLE = true := by
        rcases List.mem_cons.1 ((hitems least).2 hmem) with rfl | hrest
        · exact ReflCmp.isLE_rfl
        · exact (List.pairwise_cons.1 hpair).1 least hrest
      have heq : compareBy field keys first least = .eq :=
        OrientedCmp.isLE_antisymm hle (hleast first ((hitems first).1 List.mem_cons_self))
      rw [List.filter_cons_of_pos (by simpa [tie] using heq)]
      rfl
  calc (sortBy field keys items).head?
      = ((sortBy field keys items).filter tie).head? := hfront.symm
    _ = (items.filter tie).head? := by rw [filter_sortBy_tied]
    _ = items.find? tie := List.head?_filter

/-- Sorting commutes with a function that keeps what the keys look at. -/
theorem map_sortBy {other : β → String → Option Value} (f : α → β)
    (hf : ∀ a, other (f a) = field a) (keys : List SortKey) (items : List α) :
    (sortBy field keys items).map f = sortBy other keys (items.map f) := by
  have hcompare (keys : List SortKey) (a b : α) :
      compareBy field keys a b = compareBy other keys (f a) (f b) := by
    simp only [compareBy, SortKey.compare, hf]
  exact List.map_mergeSort fun a _ b _ => by rw [hcompare]

end ConfigLedger
