import ConfigLedger.Command.Execution
import ConfigLedger.Proofs.Scope.Ancestry
import ConfigLedger.Proofs.Store.Merging
import ConfigLedger.Proofs.Store.Querying

/-!
# Resolving a scope

The effective value of a scope can be found in two ways. The command asks for all contexts of the
resource at once, sets the default one apart and folds over what is kept for the scopes that the
name of the scope inherits from. The store can also be asked to merge these contexts, which reads
them key by key, the default context first.

Both come to the same, however the scope is spelled (`Command.run_resolve`): the scopes that a path
inherits from do not repeat (`nodup_pathAncestry`), the list of a query has the one record of each
context that would be read (`Store.Lists.find?_context`), and a scope that is the default context or
has an empty name has no part of its own on either side (`Command.dataOf?_scopes`,
`Command.map_value_chain`).
-/

namespace ConfigLedger

variable {s : Setting} {c : Collection} {resource : Resource}

/-! ### Keys of the ancestry -/

namespace Resource

/-- The key of a context that is not the default one names that context. -/
theorem key_eq_of_ne {context : String} (h : resource.key context ≠ resource.defaultKey) :
    resource.key context = ⟨resource, context⟩ := by
  unfold key at h ⊢
  split
  · next hempty =>
    rw [if_pos hempty] at h
    exact absurd rfl h
  · rfl

theorem key_ne_defaultKey_iff {context : String} :
    resource.key context ≠ resource.defaultKey ↔ context ≠ "" ∧ context ≠ defaultContext := by
  unfold key defaultKey
  by_cases hempty : context = ""
  · simp [hempty]
  · simp [hempty]

/-- **The keys of different contexts** come one after the other behind that of the default context,
which takes the place of those that mean it too. -/
theorem firstBy_chain {contexts : List String} (hcontexts : contexts.Nodup) :
    firstBy id (resource.chain contexts) =
      resource.defaultKey :: (contexts.filter fun context =>
        resource.key context != resource.defaultKey).map resource.key := by
  -- only the default key may come again
  have hnodup : ((contexts.map resource.key).filter (· != resource.defaultKey)).Nodup := by
    rw [List.filter_map]
    refine List.Nodup.map_on (fun a ha b hb hab => ?_) (hcontexts.filter _)
    have hother {context : String} (h : context ∈ contexts.filter
        ((· != resource.defaultKey) ∘ resource.key)) : resource.key context ≠ resource.defaultKey :=
      bne_iff_ne.1 (List.mem_filter.1 h).2
    rw [key_eq_of_ne (hother ha), key_eq_of_ne (hother hb), Key.mk.injEq] at hab
    exact hab.2
  rw [chain, firstBy]
  simp only [id_eq]
  rw [filter_firstBy_id, firstBy_id_of_nodup hnodup, List.filter_map]
  rfl

end Resource

/-! ### What a query lists -/

namespace Store.Lists

variable {records : List Record}

/-- The records may as well be taken from behind. -/
theorem reverse (h : Lists s resource none records) : Lists s resource none records.reverse where
  nodup := by
    rw [List.map_reverse, List.nodup_reverse]
    exact h.nodup
  mem_iff r := by
    rw [List.mem_reverse]
    exact h.mem_iff r

/-- **The record that is listed for a context** is the one that is read of it. -/
theorem find?_context (h : Lists s resource none records) (hs : s.medium.Shows c)
    (context : String) :
    (records.find? fun r => r.key.context == context) = c.shown ⟨resource, context⟩ := by
  ext r
  -- the query lists what a read answers, under the key that the record has
  constructor
  · intro hfound
    have hcontext : r.key.context = context := by simpa using List.find?_some hfound
    obtain ⟨hresource, hread, -⟩ := (h.mem_iff r).1 (List.mem_of_find?_eq_some hfound)
    rw [← hresource, ← hcontext]
    exact hs.run_read_iff.1 hread
  · intro hshown
    have hkey : r.key = ⟨resource, context⟩ :=
      (Collection.mem_documents_of_latest (Collection.shown_eq_some_iff.1 hshown).1).2
    have hmem : r ∈ records := by
      refine (h.mem_iff r).2 ⟨by rw [hkey], hs.run_read_iff.2 ?_, rfl⟩
      rw [hkey]
      exact hshown
    -- no other record is listed for the context
    rw [← firstBy_of_nodup h.nodup, mem_firstBy, hkey] at hmem
    exact hmem

end Store.Lists

/-! ### Resolution -/

namespace Command

variable {records : List Record}

/-- What is set apart is the value of the default context. -/
theorem scopes_default (h : Store.Lists s resource none records) (hs : s.medium.Shows c) :
    (scopes records).1 = (c.shown resource.defaultKey).map Record.value := by
  rw [scopes, List.partition_eq_filter_filter]
  dsimp only
  rw [← List.head?_reverse, ← List.filter_reverse, List.head?_filter,
    h.reverse.find?_context hs defaultContext]
  rfl

/-- **What is kept for a scope** is the value of the context of that name, except for the default
one. -/
theorem dataOf?_scopes (h : Store.Lists s resource none records) (hs : s.medium.Shows c)
    (scope : String) :
    dataOf? (scopes records).2 scope =
      if scope = defaultContext then none
      else (c.shown ⟨resource, scope⟩).map Record.value := by
  -- the records are searched from behind, past that of the default context
  have hsearch : dataOf? (scopes records).2 scope =
      (records.reverse.find? fun r =>
        r.key.context != defaultContext && r.key.context == scope).map Record.value := by
    rw [scopes, List.partition_eq_filter_filter, dataOf?]
    dsimp only
    rw [← List.map_reverse, ← List.filter_reverse, List.find?_map, List.find?_filter,
      Option.map_map]
    simp only [Function.comp_def, Bool.decide_and, Bool.decide_eq_true]
    rfl
  rw [hsearch]
  -- the records of the default context are what lies at the bottom, so they are kept apart
  by_cases hdefault : scope = defaultContext
  · have hnone : (records.reverse.find? fun r =>
        r.key.context != defaultContext && r.key.context == scope) = none := by
      rw [List.find?_eq_none]
      simp [hdefault]
    rw [hnone, if_pos hdefault, Option.map_none]
  · -- any other scope passes over them
    have hother : (fun r : Record => r.key.context != defaultContext && r.key.context == scope) =
        fun r => r.key.context == scope := by
      funext r
      by_cases hr : r.key.context = scope
      · simp [hr, hdefault]
      · simp [hr]
    rw [hother, h.reverse.find?_context hs scope, if_neg hdefault]

/-- **The values that are merged**, key by key or after a query, are the same. -/
theorem map_value_chain (h : Store.Lists s resource none records) (hs : s.medium.Shows c)
    (hnamed : c.shown ⟨resource, ""⟩ = none) {scopes : List String} (hscopes : scopes.Nodup) :
    ((firstBy id (resource.chain scopes)).filterMap c.shown).map Record.value =
      (Command.scopes records).1.toList ++
        scopes.filterMap (dataOf? (Command.scopes records).2) := by
  let value (key : Key) : Option Value := (c.shown key).map Record.value
  -- a scope that stands for the default context, or has no name, adds nothing
  have hown (scope : String) : dataOf? (Command.scopes records).2 scope =
      if (resource.key scope != resource.defaultKey) = true then value (resource.key scope)
      else none := by
    simp only [dataOf?_scopes h hs, bne_iff_ne]
    -- the default context is the first of the chain, so a scope that means it is passed over
    by_cases hkey : resource.key scope = resource.defaultKey
    · rw [if_neg (not_not_intro hkey)]
      split
      · rfl
      · next hdefault =>
        have hempty : scope = "" := by
          by_contra hne
          exact Resource.key_ne_defaultKey_iff.2 ⟨hne, hdefault⟩ hkey
        rw [hempty, hnamed, Option.map_none]
    · rw [if_pos hkey, if_neg (Resource.key_ne_defaultKey_iff.1 hkey).2]
      exact congrArg value (Resource.key_eq_of_ne hkey).symm
  calc
    ((firstBy id (resource.chain scopes)).filterMap c.shown).map Record.value
      = (firstBy id (resource.chain scopes)).filterMap value := List.map_filterMap
    -- the default key first, and then those of the scopes that have another one
    _ = (value resource.defaultKey).toList ++
          ((scopes.filter fun scope => resource.key scope != resource.defaultKey).map
            resource.key).filterMap value := by
      rw [Resource.firstBy_chain hscopes, List.filterMap_cons]
      cases value resource.defaultKey <;> rfl
    _ = (value resource.defaultKey).toList ++
          scopes.filterMap (dataOf? (Command.scopes records).2) := by
      rw [List.filterMap_map, List.filterMap_filter, funext hown]
      rfl
    _ = (Command.scopes records).1.toList ++
          scopes.filterMap (dataOf? (Command.scopes records).2) := by
      rw [scopes_default h hs]

/-- **The fold over the values** is the value of the merged records. -/
theorem resolve_eq (h : Store.Lists s resource none records) (hs : s.medium.Shows c)
    (hnamed : c.shown ⟨resource, ""⟩ = none) (separator : Char) (scope : String) :
    (resolver separator (scopes records).1).resolve (scopes records).2 scope =
      (Merged.ofRecords ((firstBy id (resource.chain (pathAncestry separator scope))).filterMap
        c.shown)).map Merged.value := by
  -- both sides overlay the same values
  have hvalues := map_value_chain h hs hnamed (nodup_pathAncestry separator scope)
  -- the two ways to lay one value over another agree
  have hoverlay (values : List Value) (below : Option Value) :
      values.foldl (overlay Value.merge) below =
        (values.map some).foldl Value.overlay below := by
    rw [List.foldl_map]
    refine List.foldl_ext _ _ _ fun below above _ => ?_
    cases below <;> rfl
  calc
    (resolver separator (scopes records).1).resolve (scopes records).2 scope
      = ((scopes records).1.toList ++
          (pathAncestry separator scope).filterMap (dataOf? (scopes records).2)).foldl
            (overlay Value.merge) none := rfl
    _ = ((((firstBy id (resource.chain (pathAncestry separator scope))).filterMap
          c.shown).map Record.value).map some).foldl Value.overlay none := by
      rw [← hvalues, hoverlay]
    _ = _ := by
      rw [List.map_map, ← Merged.foldl_extend, Merged.map_value_foldl_extend]
      rfl

/-- A command, carried out in a setting. -/
def run (author : Author) (command : Command) (s : Setting) : Except CommandError Value × Setting :=
  (ExceptT.run (execute author command)).run Setting.serve s

/-- A command that starts with a call goes on with what that answers. -/
theorem run_ofCall_bind {α : Type} (call : Call α) (next : α → Execution Value) (s : Setting) :
    (ExceptT.run (Execution.ofCall call >>= next)).run Setting.serve s =
      match call.run s with
      | (.ok a, s) => (ExceptT.run (next a)).run Setting.serve s
      | (.error e, s) => (.error (.store e), s) := by
  -- the errors of the call are passed on
  have hcall : (ExceptT.run (Execution.ofCall call)).run Setting.serve s =
      ((call.run s).1.mapError .store, (call.run s).2) :=
    Procedure.run_bind _ _ _ _
  refine (Procedure.run_bind _ _ _ _).trans ?_
  change Procedure.run _
    (ExceptT.bindCont next ((ExceptT.run (Execution.ofCall call)).run Setting.serve s).1)
    ((ExceptT.run (Execution.ofCall call)).run Setting.serve s).2 = _
  rw [hcall]
  rcases call.run s with ⟨e | a, s⟩ <;> rfl

/-- **To resolve a scope is to merge the contexts it inherits from**, whatever the scope and the
separator are, if no document of the resource has an empty context. What is printed is the merged
value, and the scope is not found exactly if nothing is there to be merged. -/
theorem run_resolve (hs : s.medium.Shows c)
    (hnamed : ∀ d ∈ c.documents, d.key.resource = resource → d.key.context ≠ "")
    (author : Author) (separator : Char) (scope : String) :
    ∃ merged,
      (Store.readMerged resource (pathAncestry separator scope)).run s = (.ok merged, s) ∧
      (resolve resource (some scope) separator).run author s =
        (match merged with
          | some m => .ok (Scoped.layout ⟨scope, m.value⟩)
          | none => .error (.notFound scope), s) := by
  -- a document under the empty key would have an empty context
  have hempty : c.shown ⟨resource, ""⟩ = none := by
    rw [Option.eq_none_iff_forall_ne_some]
    intro r hr
    obtain ⟨hmem, hkey⟩ := Collection.mem_documents_of_latest (Collection.shown_eq_some_iff.1 hr).1
    exact hnamed _ hmem (by rw [hkey]) (by rw [hkey])
  -- the query lists the newest live record of each context
  have hlists : Store.Lists s resource none
      (Store.page {} (0, none) (c.newestLive resource none)) :=
    Store.lists_all hs resource
  refine ⟨_, hs.run_readMerged resource (pathAncestry separator scope), ?_⟩
  have hquery := hs.run_query resource {}
  -- the query of the command is that one, and what follows asks for nothing more
  rw [run, execute, run_ofCall_bind, hquery]
  change (ExceptT.run (Execution.found scope
    ((resolver separator (scopes _).1).resolve (scopes _).2 scope) >>= fun data =>
      return Scoped.layout ⟨scope, data⟩)).run Setting.serve s = _
  rw [resolve_eq hlists hs hempty]
  cases Merged.ofRecords ((firstBy id (resource.chain (pathAncestry separator scope))).filterMap
    c.shown) <;> rfl

/-- A scope below the default context, with a separator that is doubled. -/
theorem run_resolve_below_default :
    let resource : Resource := ⟨"rules", "alerting", "tenant-1"⟩
    let p := Record.first resource.defaultKey (.struct [("x", .bool true), ("y", .bool true)]) 1000
    let q := Record.first (resource.key "DEFAULT-CONTEXT/") (.struct [("y", .bool false)]) 2000
    let c := Collection.both p q
    let scope := "DEFAULT-CONTEXT//a"
    (Setting.idle c).medium.Shows c ∧
      (∀ d ∈ c.documents, d.key.resource = resource → d.key.context ≠ "") ∧
      pathAncestry '/' scope = ["DEFAULT-CONTEXT", "DEFAULT-CONTEXT/", scope] ∧
      (resolve resource (some scope) '/').run ⟨"bob", "bob@example.com"⟩ (.idle c) =
        (.ok (Scoped.layout ⟨scope, .struct [("x", .bool true), ("y", .bool false)]⟩),
          .idle c) := by
  intro resource p q c scope
  have hkeys : p.key ≠ q.key := by decide
  have hshows : (Setting.idle c).medium.Shows c := Medium.shows_memory c
  have hnamed : ∀ d ∈ c.documents, d.key.resource = resource → d.key.context ≠ "" := by
    intro d hd _
    rcases (Collection.mem_both hkeys).1 hd with rfl | rfl <;> decide
  have hancestry : pathAncestry '/' scope = ["DEFAULT-CONTEXT", "DEFAULT-CONTEXT/", scope] := by
    decide
  obtain ⟨merged, hread, hresolve⟩ :=
    run_resolve hshows hnamed ⟨"bob", "bob@example.com"⟩ '/' scope
  -- the default context is merged once, below the others
  have hmerged : merged =
      some ⟨.struct [("x", .bool true), ("y", .bool false)], 2000, 2000⟩ := by
    rw [hancestry, hshows.run_readMerged, funext (Collection.shown_both hkeys rfl rfl),
      Prod.mk.injEq, Except.ok.injEq] at hread
    rw [← hread.1]
    rfl
  refine ⟨hshows, hnamed, hancestry, ?_⟩
  rw [hresolve, hmerged]

end Command
end ConfigLedger
