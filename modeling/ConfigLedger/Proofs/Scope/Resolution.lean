import ConfigLedger.Proofs.Entries
import ConfigLedger.Proofs.Scope.Ancestry

/-!
# Resolving scopes

What does the effective configuration of a scope depend on? On the last record of each scope that it
inherits from, and on nothing else: not on the order of the records, nor on records that a later one
of the same scope replaces (`Resolver.resolveAll_entries`).

Where the chain of a scope is that of another scope with one entry more, the fold over the chain is
the fold over the shorter one with one step more (`Resolver.resolve_of_ancestry_eq`). The chains of
paths are of that kind, so a scope with a parent is resolved by laying its own record over what the
parent resolves to (`Resolver.resolve_of_parent`).
-/

namespace ConfigLedger

variable {σ α : Type}

/-! ### Laying data over one another -/

section

variable (merge : α → α → α)

/-- Once there is something, all that follows is merged. -/
theorem foldl_overlay_some (below : α) (l : List α) :
    l.foldl (overlay merge) (some below) = some (l.foldl merge below) := by
  induction l generalizing below with
  | nil => rfl
  | cons above l ih => exact ih (merge below above)

theorem isSome_foldl_overlay {l : List α} (h : l ≠ []) :
    (l.foldl (overlay merge) none).isSome = true := by
  obtain ⟨a, l, rfl⟩ := List.exists_cons_of_ne_nil h
  rw [List.foldl_cons, overlay, foldl_overlay_some, Option.isSome_some]

end

/-! ### Records of a scope -/

namespace Scoped

variable [BEq σ]

/-- The last record of a scope. -/
def last? (records : List (Scoped σ α)) (scope : σ) : Option (Scoped σ α) :=
  (records.filter fun r => r.scope == scope).getLast?

theorem dataOf?_eq (records : List (Scoped σ α)) (scope : σ) :
    dataOf? records scope = (last? records scope).map (·.data) := by
  unfold dataOf? last?
  rw [List.getLast?_eq_head?_reverse, ← List.filter_reverse, List.head?_filter]

variable [LawfulBEq σ]

/-- The scopes that have a last record are those that have a record. -/
theorem last?_isSome_iff {records : List (Scoped σ α)} {scope : σ} :
    (last? records scope).isSome = true ↔ scope ∈ records.map (·.scope) := by
  rw [last?, Option.isSome_iff_ne_none, Ne, List.getLast?_eq_none_iff, List.filter_eq_nil_iff]
  simp

end Scoped

/-! ### Resolution -/

namespace Resolver

/-- **One entry more in the chain** is one step more in the fold: a scope's own data are laid over
what is resolved without them. -/
theorem resolve_of_ancestry_eq [BEq σ] {resolver : Resolver σ α} {scope parent : σ}
    (h : resolver.ancestry scope = resolver.ancestry parent ++ [scope])
    (records : List (Scoped σ α)) :
    resolver.resolve records scope =
      (dataOf? records scope).toList.foldl (overlay resolver.merge)
        (resolver.resolve records parent) := by
  have hown : [scope].filterMap (dataOf? records) = (dataOf? records scope).toList := by
    cases hdata : dataOf? records scope <;> simp [hdata]
  unfold resolve
  rw [h, List.filterMap_append, hown, ← List.append_assoc, List.foldl_append]

/-- **A scope inherits step by step.** A scope that inherits from another one has a parent, the last
one before it. What it resolves to are its own data, those of its last record, laid over what the
parent resolves to. -/
theorem resolve_of_parent (separator : Char) {scope : String}
    (hinherits : 2 ≤ (pathAncestry separator scope).length) (merge : α → α → α)
    (default : Option α) (records : List (Scoped String α)) :
    ∃ inherited parent, pathAncestry separator scope = inherited ++ [parent, scope] ∧
      let resolver : Resolver String α := ⟨pathAncestry separator, merge, default⟩
      resolver.resolve records scope =
        match resolver.resolve records parent, Scoped.last? records scope with
        | some fallback, some own => some (merge fallback own.data)
        | some fallback, none => some fallback
        | none, some own => some own.data
        | none, none => none := by
  -- the scope ends its chain, and as it inherits, something stands before it
  obtain ⟨others, hothers⟩ :
      ∃ others, pathAncestry separator scope = others ++ [scope] := ⟨_, rfl⟩
  have hne : others ≠ [] := by
    rintro rfl
    simp [hothers] at hinherits
  obtain ⟨inherited, parent, rfl⟩ := (List.eq_nil_or_concat others).resolve_left hne
  rw [List.concat_eq_append, List.append_assoc] at hothers
  refine ⟨inherited, parent, hothers, ?_⟩
  intro resolver
  -- the parent's chain is the part before the scope
  have hchain : resolver.ancestry scope = resolver.ancestry parent ++ [scope] := by
    calc
      resolver.ancestry scope = (inherited ++ [parent]) ++ [scope] := by
        rw [List.append_assoc]
        exact hothers
      _ = resolver.ancestry parent ++ [scope] := by rw [← pathAncestry_of_eq_append hothers]
  -- resolving goes along the chain, so the scope itself is one more step
  rw [resolve_of_ancestry_eq hchain, Scoped.dataOf?_eq]
  cases resolver.resolve records parent <;> cases Scoped.last? records scope <;> rfl

/-- A scope two separators below another one, so that its parent ends in a separator. -/
theorem resolve_of_parent_doubled_separator :
    let resolver : Resolver String (List Nat) := ⟨pathAncestry '/', (· ++ ·), some [0]⟩
    let records : List (Scoped String (List Nat)) :=
      [⟨"/a//b", [1]⟩, ⟨"/a", [2]⟩, ⟨"/a//b", [3]⟩]
    2 ≤ (pathAncestry '/' "/a//b").length ∧
      pathAncestry '/' "/a//b" = ["/a"] ++ ["/a/", "/a//b"] ∧
      resolver.resolve records "/a/" = some [0, 2] ∧
      resolver.resolve records "/a//b" = some [0, 2, 3] := by
  intro resolver records
  have hchain : pathAncestry '/' "/a//b" = ["/a"] ++ ["/a/", "/a//b"] := by decide
  have hinherits : 2 ≤ (pathAncestry '/' "/a//b").length := by
    rw [hchain]
    decide
  have hparent : resolver.resolve records "/a/" = some [0, 2] := by decide
  obtain ⟨inherited, parent, hchain', hresolve⟩ :=
    resolve_of_parent '/' hinherits (· ++ ·) (some [0]) records
  obtain ⟨-, htail⟩ := List.append_inj' (hchain.symm.trans hchain') rfl
  obtain ⟨rfl, -⟩ := List.cons.inj htail
  change resolver.resolve records "/a//b" =
    match resolver.resolve records "/a/", Scoped.last? records "/a//b" with
    | some fallback, some own => some (fallback ++ own.data)
    | some fallback, none => some fallback
    | none, some own => some own.data
    | none, none => none at hresolve
  rw [hparent] at hresolve
  exact ⟨hinherits, hchain, hparent, hresolve⟩

section

variable [DecidableEq σ] {resolver : Resolver σ α} {records others : List (Scoped σ α)}

/-- A scope that has a record and is in its own chain resolves to something. -/
theorem isSome_resolve {scope : σ} (hself : scope ∈ resolver.ancestry scope)
    (hscope : scope ∈ records.map (·.scope)) :
    (resolver.resolve records scope).isSome = true := by
  obtain ⟨own, hown⟩ := Option.isSome_iff_exists.1 (Scoped.last?_isSome_iff.2 hscope)
  have hdata : own.data ∈ (resolver.ancestry scope).filterMap (dataOf? records) := by
    refine List.mem_filterMap.2 ⟨scope, hself, ?_⟩
    rw [Scoped.dataOf?_eq, hown, Option.map_some]
  exact isSome_foldl_overlay _ (List.ne_nil_of_mem (List.mem_append_right _ hdata))

/-- Records count only as far as they are the last ones of their scopes. -/
theorem resolve_congr (hlast : ∀ scope, Scoped.last? records scope = Scoped.last? others scope)
    (scope : σ) : resolver.resolve records scope = resolver.resolve others scope := by
  have hdata : dataOf? records = dataOf? others := by
    funext scope
    rw [Scoped.dataOf?_eq, Scoped.dataOf?_eq, hlast]
  unfold resolve
  rw [hdata]

/-- The same scopes are resolved, in some order. -/
theorem resolveAll_perm (hlast : ∀ scope, Scoped.last? records scope = Scoped.last? others scope) :
    (resolver.resolveAll records).Perm (resolver.resolveAll others) := by
  have hscopes : (firstBy id (records.map (·.scope))).Perm (firstBy id (others.map (·.scope))) := by
    refine (List.perm_ext_iff_of_nodup (nodup_firstBy_id _) (nodup_firstBy_id _)).2 fun scope => ?_
    rw [mem_firstBy_id, mem_firstBy_id, ← Scoped.last?_isSome_iff, hlast, Scoped.last?_isSome_iff]
  unfold resolveAll
  simp only [resolve_congr hlast]
  exact hscopes.filterMap _

/-- **Every scope that has a record is resolved once**, in order of first appearance, and to what it
resolves to alone. Only the last record of each scope counts for that: records in which these are
the same resolve every scope alike, and they resolve the same scopes. -/
theorem resolveAll_entries (hself : ∀ scope, scope ∈ resolver.ancestry scope)
    (records : List (Scoped σ α)) :
    ((resolver.resolveAll records).map fun entry => (entry.scope, some entry.data)) =
        (records.map (·.scope)).eraseDups.map
          (fun scope => (scope, resolver.resolve records scope)) ∧
      ∀ others, (∀ scope, Scoped.last? records scope = Scoped.last? others scope) →
        (∀ scope, resolver.resolve records scope = resolver.resolve others scope) ∧
          (resolver.resolveAll records).Perm (resolver.resolveAll others) := by
  -- what is resolved depends on the last records only
  refine ⟨?_, fun others hlast => ⟨resolve_congr hlast, resolveAll_perm hlast⟩⟩
  calc
    (resolver.resolveAll records).map (fun entry => (entry.scope, some entry.data))
      = (records.map (·.scope)).eraseDups.filterMap
          (some ∘ fun scope => (scope, resolver.resolve records scope)) := by
      rw [resolveAll, firstBy_id_eq_eraseDups, List.map_filterMap]
      refine List.filterMap_congr fun scope hscope => ?_
      -- no scope is left out, since each has a record of its own
      obtain ⟨data, hdata⟩ := Option.isSome_iff_exists.1
        (isSome_resolve (hself scope) (List.mem_eraseDups.1 hscope))
      rw [Function.comp_apply, hdata]
      rfl
    -- so every scope stands in the list of entries
    _ = (records.map (·.scope)).eraseDups.map
          (fun scope => (scope, resolver.resolve records scope)) := by
      rw [List.filterMap_eq_map]

/-- A record that is replaced later, and a list without it in another order. -/
theorem resolveAll_entries_replaced :
    let resolver : Resolver String (List Nat) := ⟨pathAncestry '/', (· ++ ·), none⟩
    let records : List (Scoped String (List Nat)) := [⟨"a/b", [1]⟩, ⟨"a", [2]⟩, ⟨"a/b", [3]⟩]
    let others : List (Scoped String (List Nat)) := [⟨"a", [2]⟩, ⟨"a/b", [3]⟩]
    (∀ scope, scope ∈ resolver.ancestry scope) ∧
      (∀ scope, Scoped.last? records scope = Scoped.last? others scope) ∧
      ((resolver.resolveAll records).map fun entry => (entry.scope, some entry.data)) =
        [("a/b", some [2, 3]), ("a", some [2])] ∧
      resolver.resolve others "a/b/c" = some [2, 3] ∧
      (resolver.resolveAll records).Perm (resolver.resolveAll others) := by
  intro resolver records others
  have hself (scope : String) : scope ∈ resolver.ancestry scope := self_mem_pathAncestry '/' scope
  have hlast (scope : String) : Scoped.last? records scope = Scoped.last? others scope := by
    unfold Scoped.last?
    -- the two scopes have their last record in both lists, and no other scope has one
    by_cases hparent : scope = "a"
    · subst hparent
      rfl
    · by_cases hchild : scope = "a/b"
      · subst hchild
        rfl
      · simp [records, others, Ne.symm hparent, Ne.symm hchild]
  obtain ⟨hentries, hsame⟩ := resolveAll_entries hself records
  obtain ⟨hresolve, hperm⟩ := hsame others hlast
  refine ⟨hself, hlast, hentries.trans (by decide), ?_, hperm⟩
  rw [← hresolve]
  decide

end

end Resolver

end ConfigLedger
