import ConfigLedger.Scope
import Mathlib.Data.List.Nodup

/-!
# Scopes named by paths

Which scopes does a scope inherit from that is named by a path? Those whose names stand before its
separators, unless they are empty (`mem_cuts`). How the path is spelled does not matter: separators
may come first, last, or several of them in a row.

The names grow along the chain (`pairwise_pathAncestry`), so they do not repeat
(`nodup_pathAncestry`). And the chain is closed: what an ancestor inherits from is the part of the
chain before it (`pathAncestry_of_eq_append`), since the cuts of a cut are those before it
(`cuts_of_eq_append`). So a scope can be resolved from its parent alone. `pathAncestry_eq_chain` has
all of this together.
-/

namespace ConfigLedger

variable {separator : Char}

/-- A name that is not empty and that ends right before a separator of another one. -/
def StandsAbove (separator : Char) (outer scope : String) : Prop :=
  outer ≠ "" ∧ ∃ rest, scope = outer ++ String.singleton separator ++ rest

/-! ### Cuts -/

/-- **What the cuts of a path are**: its beginnings that end right before a separator. -/
theorem mem_cuts {path cut : List Char} :
    cut ∈ cuts separator path ↔ ∃ rest, path = cut ++ separator :: rest := by
  induction path generalizing cut with
  | nil =>
    -- there is no separator to stand before
    simp [cuts]
  | cons char rest ih =>
    unfold cuts
    rw [List.mem_append, List.mem_map]
    cases cut with
    | nil =>
      -- only the first character can have nothing before it
      simp [eq_comm]
    | cons first tail =>
      -- any other cut has the first character of the path in front of a cut of the rest
      have hlonger : first :: tail ∉ (if char = separator then [[]] else []) := by
        split <;> simp
      rw [or_iff_right hlonger]
      constructor
      · rintro ⟨front, hfront, heq⟩
        obtain ⟨rfl, rfl⟩ := List.cons.inj heq
        obtain ⟨behind, rfl⟩ := ih.1 hfront
        exact ⟨behind, rfl⟩
      · rintro ⟨behind, heq⟩
        obtain ⟨rfl, htail⟩ := List.cons.inj heq
        exact ⟨tail, ih.2 ⟨behind, htail⟩, rfl⟩

/-- The cuts of a path are shorter than the path, and each is shorter than those behind it. -/
theorem pairwise_cuts (separator : Char) (path : List Char) :
    (cuts separator path ++ [path]).Pairwise fun a b => a.length < b.length := by
  induction path with
  | nil => exact List.pairwise_singleton _ _
  | cons char rest ih =>
    -- one more character in front of the cuts of the rest
    have hlonger : ((cuts separator rest ++ [rest]).map (char :: ·)).Pairwise
        fun a b => a.length < b.length := by
      rw [List.pairwise_map]
      exact ih.imp fun h => Nat.succ_lt_succ h
    rw [List.map_append] at hlonger
    rw [cuts, List.append_assoc]
    split
    · -- the empty cut comes first, before all that start with `char`
      refine List.pairwise_cons.2 ⟨fun cut hcut => ?_, hlonger⟩
      have hcut : cut ∈ (cuts separator rest ++ [rest]).map (char :: ·) := by
        rw [List.map_append]
        exact hcut
      obtain ⟨tail, -, rfl⟩ := List.mem_map.1 hcut
      exact Nat.succ_pos _
    · exact hlonger

/-- **The cuts of a cut** are the cuts before it. -/
theorem cuts_of_eq_append {path cut : List Char} {before behind : List (List Char)}
    (h : cuts separator path = before ++ cut :: behind) : cuts separator cut = before := by
  induction path generalizing before cut behind with
  | nil =>
    rw [cuts] at h
    exact absurd h.symm (List.append_ne_nil_of_right_ne_nil _ (List.cons_ne_nil _ _))
  | cons char rest ih =>
    -- a cut that starts with the first character is one of the rest behind it
    have hrest {front : List (List Char)}
        (h : (cuts separator rest).map (char :: ·) = front ++ cut :: behind) :
        cuts separator cut = (if char = separator then [[]] else []) ++ front := by
      obtain ⟨fronts, backs, hcuts, rfl, hbacks⟩ := List.map_eq_append_iff.1 h
      obtain ⟨tail, tails, rfl, rfl, -⟩ := List.map_eq_cons_iff.1 hbacks
      rw [cuts, ih hcuts]
    rw [cuts] at h
    split at h
    · -- at a separator the empty cut comes first, and it has no cuts itself
      next hchar =>
      rcases List.cons_eq_append_iff.1 h with ⟨rfl, hcut⟩ | ⟨front, rfl, hfront⟩
      · obtain ⟨rfl, -⟩ := List.cons.inj hcut
        rfl
      · rw [hrest hfront, if_pos hchar]
        rfl
    · next hchar =>
      rw [hrest h, if_neg hchar]
      rfl

/-! ### The chain of a scope -/

/-- The chain of a scope, in characters. -/
theorem pathAncestry_ofList (separator : Char) (path : List Char) :
    pathAncestry separator (String.ofList path) =
      ((cuts separator path).filter (fun cut => !cut.isEmpty) ++ [path]).map String.ofList := by
  rw [pathAncestry, List.map_append, List.map_singleton, String.toList_ofList]

theorem self_mem_pathAncestry (separator : Char) (scope : String) :
    scope ∈ pathAncestry separator scope :=
  List.mem_append_right _ List.mem_cons_self

/-- **The scopes that a path inherits from** have longer and longer names. -/
theorem pairwise_pathAncestry (separator : Char) (scope : String) :
    (pathAncestry separator scope).Pairwise fun outer inner => outer.length < inner.length := by
  obtain ⟨path, rfl⟩ : ∃ path, scope = String.ofList path := ⟨scope.toList, by simp⟩
  have hsublist : ((cuts separator path).filter (fun cut => !cut.isEmpty) ++ [path]).Sublist
      (cuts separator path ++ [path]) :=
    List.filter_sublist.append_right _
  rw [pathAncestry_ofList, List.pairwise_map]
  refine ((pairwise_cuts separator path).sublist hsublist).imp fun hlength => ?_
  rw [String.length_ofList, String.length_ofList]
  exact hlength

/-- So they do not repeat. -/
theorem nodup_pathAncestry (separator : Char) (scope : String) :
    (pathAncestry separator scope).Nodup :=
  (pairwise_pathAncestry separator scope).imp fun hlength heq =>
    absurd (congrArg String.length heq) (Nat.ne_of_lt hlength)

/-- **What an ancestor inherits from** is the part of the chain before it. -/
theorem pathAncestry_of_eq_append {scope ancestor : String} {before behind : List String}
    (h : pathAncestry separator scope = before ++ ancestor :: behind) :
    pathAncestry separator ancestor = before ++ [ancestor] := by
  -- the chain is cut up as a list of lists of characters, where the cuts were defined
  obtain ⟨path, rfl⟩ : ∃ path, scope = String.ofList path := ⟨scope.toList, by simp⟩
  rw [pathAncestry_ofList] at h
  obtain ⟨fronts, backs, hchain, rfl, hbacks⟩ := List.map_eq_append_iff.1 h
  obtain ⟨cut, backs, rfl, rfl, -⟩ := List.map_eq_cons_iff.1 hbacks
  suffices hcuts : (cuts separator cut).filter (fun cut => !cut.isEmpty) = fronts by
    rw [pathAncestry_ofList, hcuts, List.map_append, List.map_singleton]
  rcases backs.eq_nil_or_concat with rfl | ⟨backs, last, rfl⟩
  · -- the scope is its own ancestor
    obtain ⟨hfronts, hpath⟩ := List.append_inj' hchain rfl
    obtain ⟨rfl, -⟩ := List.cons.inj hpath
    exact hfronts
  · -- any other ancestor is a cut, and empty cuts before it are left out on both sides
    rw [List.concat_eq_append, ← List.cons_append, ← List.append_assoc] at hchain
    obtain ⟨hcuts, -⟩ := List.append_inj' hchain rfl
    obtain ⟨firsts, others, hsplit, rfl, hothers⟩ := List.filter_eq_append_iff.1 hcuts
    obtain ⟨skipped, behind, rfl, hskipped, -, -⟩ := List.filter_eq_cons_iff.1 hothers
    rw [← List.append_assoc] at hsplit
    rw [cuts_of_eq_append hsplit, List.filter_append, List.filter_eq_nil_iff.2 hskipped,
      List.append_nil]

/-- The names above a path are the cuts of it that are not empty. -/
theorem mem_map_cuts {scope outer : String} :
    outer ∈ ((cuts separator scope.toList).filter fun cut => !cut.isEmpty).map String.ofList ↔
      StandsAbove separator outer scope := by
  rw [List.mem_map]
  unfold StandsAbove
  constructor
  · -- what is in front of a separator has something behind it, empty or not
    rintro ⟨cut, hmem, rfl⟩
    obtain ⟨hcut, hempty⟩ := List.mem_filter.1 hmem
    obtain ⟨rest, hrest⟩ := mem_cuts.1 hcut
    refine ⟨by simpa using hempty, String.ofList rest, ?_⟩
    rw [← String.toList_inj, hrest]
    simp
  · rintro ⟨hempty, rest, rfl⟩
    refine ⟨outer.toList, List.mem_filter.2 ⟨?_, by simpa using hempty⟩, String.ofList_toList⟩
    exact mem_cuts.2 ⟨rest.toList, by simp⟩

/-- **The ancestry of a path is a chain.** It consists of the names that stand above the path, the
shorter ones first, and of the path itself. Nothing comes twice, and every scope in it has the part
of the chain up to itself as its own ancestry. -/
theorem pathAncestry_eq_chain (separator : Char) (scope : String) :
    ∃ above, pathAncestry separator scope = above ++ [scope] ∧
      (∀ outer, outer ∈ above ↔ StandsAbove separator outer scope) ∧
      (pathAncestry separator scope).Pairwise (fun outer inner => outer.length < inner.length) ∧
      (pathAncestry separator scope).Nodup ∧
      ∀ before ancestor behind, pathAncestry separator scope = before ++ ancestor :: behind →
        pathAncestry separator ancestor = before ++ [ancestor] := by
  refine ⟨((cuts separator scope.toList).filter fun cut => !cut.isEmpty).map String.ofList, rfl,
    fun outer => mem_map_cuts, ?_, ?_, ?_⟩
  · exact pairwise_pathAncestry separator scope
  · exact nodup_pathAncestry separator scope
  · intro before ancestor behind h
    exact pathAncestry_of_eq_append h

/-- Separators that stand next to each other, or at an end, are cut at like any others. -/
example : pathAncestry '/' "/a//b/" = ["/a", "/a/", "/a//b", "/a//b/"] := by decide

end ConfigLedger
