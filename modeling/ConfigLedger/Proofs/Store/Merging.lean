import ConfigLedger.Proofs.Json.Merge
import ConfigLedger.Proofs.Store.Reading

/-!
# Merging several contexts

Several contexts of a resource are read into entries, one for each key, and the values of the
entries are merged. As a key that comes again keeps its entry where it is, it is the first
occurrences of the keys that are merged, in their order (`Medium.Shows.run_readMerged`).

To merge all occurrences in their order is to merge the last ones, as what is laid on twice might as
well have been laid on the second time only (`Merged.foldl_extend_dedup`). So the contexts that are
given take precedence in their order, whatever is stored, exactly if the keys come last in the order
in which they come first (`Store.mergesInOrder_iff`). This is so if no key comes twice
(`Store.mergesInOrder_of_nodup`).
-/

namespace ConfigLedger

variable {c : Collection} {s : Setting} {key : Key}

/-! ### Merged records -/

namespace Merged

variable {merged : Option Merged} {records : List Record}

/-- The values of records laid over one another in their order, and the times of the last one. -/
def ofRecords : List Record → Option Merged
  | [] => none
  | first :: rest =>
    let last := rest.getLast?.getD first
    some ⟨rest.foldl (fun value r => value.merge r.value) first.value, last.created, last.updated⟩

@[simp] theorem ofRecords_eq_none_iff : ofRecords records = none ↔ records = [] := by
  cases records <;> simp [ofRecords]

/-- The last of the records, if there are any, has the times. -/
theorem foldl_extend_some (m : Merged) (records : List Record) :
    records.foldl extend (some m) =
      some ⟨records.foldl (fun value r => value.merge r.value) m.value,
        (records.getLast?.map Record.created).getD m.created,
        (records.getLast?.map Record.updated).getD m.updated⟩ := by
  induction records generalizing m with
  | nil => rfl
  | cons r rest ih =>
    rw [List.foldl_cons, List.foldl_cons]
    change rest.foldl extend (some ⟨m.value.merge r.value, r.created, r.updated⟩) = _
    rw [ih, List.getLast?_cons]
    cases rest.getLast? <;> rfl

/-- **Merging one record after the other** merges them all. -/
theorem foldl_extend (records : List Record) : records.foldl extend none = ofRecords records := by
  cases records with
  | nil => rfl
  | cons first rest =>
    rw [List.foldl_cons]
    change rest.foldl extend (some ⟨first.value, first.created, first.updated⟩) = _
    rw [foldl_extend_some, ofRecords]
    cases rest.getLast? <;> rfl

/-- One more record is laid over what is there, and brings its times. -/
theorem extend_eq (merged : Option Merged) (r : Record) :
    extend merged r = (Value.overlay (merged.map Merged.value) (some r.value)).map fun value =>
      ⟨value, r.created, r.updated⟩ := by
  cases merged <;> rfl

theorem map_value_extend (merged : Option Merged) (r : Record) :
    (extend merged r).map Merged.value =
      Value.overlay (merged.map Merged.value) (some r.value) := by
  cases merged <;> rfl

theorem map_value_foldl_extend (records : List Record) (merged : Option Merged) :
    (records.foldl extend merged).map Merged.value =
      (records.map fun r => some r.value).foldl Value.overlay (merged.map Merged.value) := by
  induction records generalizing merged with
  | nil => rfl
  | cons r rest ih => rw [List.foldl_cons, ih, map_value_extend, List.map_cons, List.foldl_cons]

/-- What is merged twice might as well have been merged the second time only. -/
theorem extend_foldl_extend {r : Record} (hr : r.value.Ordered)
    (hrecords : ∀ r ∈ records, r.value.Ordered)
    (hmerged : Value.OrderedField (merged.map Merged.value)) :
    extend (records.foldl extend (extend merged r)) r = extend (records.foldl extend merged) r := by
  have hfields : ∀ x ∈ records.map fun r => some r.value, Value.OrderedField x := by
    intro x hx
    obtain ⟨r, hr, rfl⟩ := List.mem_map.1 hx
    exact Value.orderedField_some (hrecords r hr)
  rw [extend_eq, extend_eq (records.foldl extend merged), map_value_foldl_extend,
    map_value_foldl_extend, map_value_extend,
    Value.overlay_foldl_overlay hmerged (Value.orderedField_some hr) hfields]

/-- A value that hides everything below it is what remains. -/
theorem map_value_ofRecords {r : Record} (hlast : records.getLast? = some r)
    (hsolid : r.value.isSolid = true) : (ofRecords records).map Merged.value = some r.value := by
  obtain ⟨before, rfl⟩ := List.getLast?_eq_some_iff.1 hlast
  rw [← foldl_extend, List.foldl_append, List.foldl_cons, List.foldl_nil, map_value_extend,
    Value.overlay_of_isSolid hsolid]

/-! ### Keys that come again -/

section

variable {found : Key → Option Record} {keys : List Key}
  (hfound : ∀ key r, found key = some r → r.value.Ordered)
include hfound

/-- A key that comes again is merged there. -/
theorem foldl_extend_of_mem {r : Record} (hkey : key ∈ keys) (hr : found key = some r)
    (hmerged : Value.OrderedField (merged.map Merged.value)) :
    (keys.filterMap found).foldl extend (extend merged r) =
      (keys.filterMap found).foldl extend merged := by
  obtain ⟨before, behind, rfl⟩ := List.append_of_mem hkey
  have hbefore : ∀ r ∈ before.filterMap found, r.value.Ordered := by
    intro r hr
    obtain ⟨k, -, hk⟩ := List.mem_filterMap.1 hr
    exact hfound k r hk
  rw [List.filterMap_append, List.filterMap_cons_some hr, List.foldl_append, List.foldl_append,
    List.foldl_cons, List.foldl_cons, extend_foldl_extend (hfound key r hr) hbefore hmerged]

/-- **To merge all occurrences of keys is to merge the last ones.** -/
theorem foldl_extend_dedup (keys : List Key) (merged : Option Merged)
    (hmerged : Value.OrderedField (merged.map Merged.value)) :
    (keys.filterMap found).foldl extend merged =
      (keys.dedup.filterMap found).foldl extend merged := by
  induction keys generalizing merged with
  | nil => rfl
  | cons k rest ih =>
    cases hk : found k with
    | none =>
      -- a key without a record is passed over, whether or not it is kept
      rw [List.filterMap_cons_none hk, ih merged hmerged]
      by_cases hmem : k ∈ rest
      · rw [List.dedup_cons_of_mem hmem]
      · rw [List.dedup_cons_of_notMem hmem, List.filterMap_cons_none hk]
    | some r =>
      rw [List.filterMap_cons_some hk, List.foldl_cons]
      by_cases hmem : k ∈ rest
      -- what is laid on here is laid on again behind
      · rw [List.dedup_cons_of_mem hmem, foldl_extend_of_mem hfound hmem hk hmerged,
          ih merged hmerged]
      · -- the last occurrence is kept, and what is merged after it starts from an ordered value
        -- again
        have hextended : Value.OrderedField ((extend merged r).map Merged.value) := by
          rw [map_value_extend]
          exact hmerged.overlay (Value.orderedField_some (hfound k r hk))
        rw [List.dedup_cons_of_notMem hmem, List.filterMap_cons_some hk, List.foldl_cons,
          ih _ hextended]

end

/-- The last record that is found is that of the last key under which one is found. -/
theorem getLast?_filterMap_found (found : Key → Option Record) (keys : List Key) :
    (keys.filterMap found).getLast? =
      (keys.reverse.find? fun key => (found key).isSome).bind found := by
  rw [List.getLast?_filterMap]
  induction keys.reverse with
  | nil => rfl
  | cons k rest ih =>
    rw [List.findSome?_cons, List.find?_cons]
    cases hk : found k with
    | none => exact ih
    | some r => exact hk.symm

end Merged

/-! ### Reading several contexts -/

/-- The keys of the default context and of contexts that are given. -/
def Resource.chain (resource : Resource) (contexts : List String) : List Key :=
  resource.defaultKey :: contexts.map resource.key

/-- **What is merged** are the records of the keys in the order in which these come first. -/
theorem Medium.Shows.run_readMerged (hs : s.medium.Shows c) (resource : Resource)
    (contexts : List String) :
    (Store.readMerged resource contexts).run s =
      (.ok (Merged.ofRecords ((firstBy id (resource.chain contexts)).filterMap c.shown)), s) := by
  rw [Resource.chain, Store.readMerged, Call.run_bind, hs.run_readMany]
  dsimp only
  -- a key that comes again keeps its entry where it is
  rw [Call.run_pure, Entries.values_foldl_put, Merged.foldl_extend]

/-- The first version of a key. -/
def Record.first (key : Key) (value : Value) (time : UInt64) : Record :=
  ⟨key, 1, value, ⟨"ada", "ada@example.com"⟩, time, time⟩

namespace Collection

/-- The fields of all structs that are stored stand in rising order. -/
def ValuesOrdered (c : Collection) : Prop :=
  ∀ d ∈ c.documents, d.value.Ordered

theorem ValuesOrdered.shown (h : c.ValuesOrdered) (key : Key) (r : Record)
    (hr : c.shown key = some r) : r.value.Ordered :=
  h r.document (mem_documents_of_latest (shown_eq_some_iff.1 hr).1).1

/-! ### Two keys -/

variable {p q : Record}

/-- Two records are stored. -/
def both (p q : Record) : Collection :=
  (empty.put p.document).put q.document

theorem mem_both (hkeys : p.key ≠ q.key) {d : Document} :
    d ∈ (both p q).documents ↔ d = q.document ∨ d = p.document := by
  have hother : q.document.sameVersion p.document = false := by
    rw [Bool.eq_false_iff, Ne, Document.sameVersion_iff]
    exact fun hsame => hkeys hsame.1.symm
  rw [both, mem_put, mem_put]
  -- putting replaces what has the same version, and the two have not
  constructor
  · rintro (rfl | ⟨rfl | ⟨hd, -⟩, -⟩)
    · exact .inl rfl
    · exact .inr rfl
    · cases hd
  · rintro (rfl | rfl)
    · exact .inl rfl
    · exact .inr ⟨.inl rfl, hother⟩

theorem eq_of_mem_both (hkeys : p.key ≠ q.key) {d e : Document} (hd : d ∈ (both p q).documents)
    (he : e ∈ (both p q).documents) (h : e.key = d.key) : e = d := by
  rcases (mem_both hkeys).1 hd with rfl | rfl <;> rcases (mem_both hkeys).1 he with rfl | rfl
  · rfl
  · exact absurd h hkeys
  · exact absurd h.symm hkeys
  · rfl

theorem shown_both (hkeys : p.key ≠ q.key) (hp : p.value.isNull = false)
    (hq : q.value.isNull = false) (key : Key) :
    (both p q).shown key =
      if key = p.key then some p else if key = q.key then some q else none := by
  have hlive {r : Record} (hr : r.document ∈ (both p q).documents)
      (hvalue : r.value.isNull = false) : (both p q).shown r.key = some r :=
    shown_eq_some_iff.2 ⟨latest_of_only hr fun _ he => eq_of_mem_both hkeys hr he, hvalue⟩
  split
  · -- under either key its own document is the only one
    next hpkey =>
    rw [hpkey, hlive ((mem_both hkeys).2 (.inr rfl)) hp]
  · next hpkey =>
    split
    · next hqkey =>
      rw [hqkey, hlive ((mem_both hkeys).2 (.inl rfl)) hq]
    · next hqkey =>
      -- nothing is stored under any other key
      have hnone : (both p q).newest key = none := by
        rw [newest_eq_none_iff]
        rintro e he rfl
        rcases (mem_both hkeys).1 he with rfl | rfl
        · exact hqkey rfl
        · exact hpkey rfl
      rw [shown, latest_of_newest_eq_none hnone, Option.bind_none]

theorem valuesOrdered_both (hkeys : p.key ≠ q.key) (hp : p.value.Ordered) (hq : q.value.Ordered) :
    (both p q).ValuesOrdered := by
  intro d hd
  rcases (mem_both hkeys).1 hd with rfl | rfl
  · exact hq
  · exact hp

/-- Two keys whose values hide each other. -/
def contest (a b : Key) : Collection :=
  both (.first a (.bool true) 0) (.first b (.bool false) 0)

theorem shown_contest {a b : Key} (hab : a ≠ b) (key : Key) :
    (contest a b).shown key =
      if key = a then some (.first a (.bool true) 0)
      else if key = b then some (.first b (.bool false) 0) else none :=
  shown_both hab rfl rfl key

/-- Of two keys whose values hide each other, the one that comes later takes precedence. -/
theorem value_ofRecords_contest {a b last : Key} (hab : a ≠ b) {keys : List Key}
    (hlast : keys.reverse.find? (fun key => decide (key = a ∨ key = b)) = some last) :
    (Merged.ofRecords (keys.filterMap (contest a b).shown)).map Merged.value =
      some (.bool (decide (last = a))) := by
  -- the keys that have a record are the two
  have hkeys : (fun key => ((contest a b).shown key).isSome) =
      fun key => decide (key = a ∨ key = b) := by
    ext key
    rw [shown_contest hab]
    by_cases ha : key = a
    · simp [ha]
    · by_cases hb : key = b <;> simp [ha, hb, hab.symm]
  -- so the record that is merged last is that of the key that comes last
  have hrecord : (keys.filterMap (contest a b).shown).getLast? = (contest a b).shown last := by
    rw [Merged.getLast?_filterMap_found, hkeys, hlast, Option.bind_some]
  rw [shown_contest hab] at hrecord
  -- its value says which of the two keys it is
  by_cases ha : last = a
  · rw [if_pos ha] at hrecord
    rw [Merged.map_value_ofRecords hrecord rfl, decide_eq_true ha]
    rfl
  · have hb : last = b := by simpa [ha] using List.find?_some hlast
    rw [if_neg ha, if_pos hb] at hrecord
    rw [Merged.map_value_ofRecords hrecord rfl, decide_eq_false ha]
    rfl

end Collection

/-! ### The order of contexts -/

namespace Store

/-- Whatever is stored, the contexts take precedence in the order in which they are given: the
values of all of them are laid over that of the default context in that order. -/
def MergesInOrder (resource : Resource) (contexts : List String) : Prop :=
  ∀ s c, s.medium.Shows c → c.ValuesOrdered →
    (readMerged resource contexts).run s =
      (.ok (Merged.ofRecords ((resource.chain contexts).filterMap c.shown)), s)

variable {resource : Resource} {contexts : List String}

/-- Where the keys come last in the order in which they come first, it is enough to merge them
once. -/
theorem mergesInOrder_of_eq
    (h : firstBy id (resource.chain contexts) = (resource.chain contexts).dedup) :
    MergesInOrder resource contexts := by
  intro s c hs hc
  have hnone : Value.OrderedField ((none : Option Merged).map Merged.value) := by
    rintro _ ⟨⟩
  rw [hs.run_readMerged, h, ← Merged.foldl_extend,
    ← Merged.foldl_extend_dedup hc.shown _ none hnone, Merged.foldl_extend]

/-- So it is where no key comes twice. -/
theorem mergesInOrder_of_nodup (h : (resource.chain contexts).Nodup) :
    MergesInOrder resource contexts :=
  mergesInOrder_of_eq ((firstBy_id_of_nodup h).trans h.dedup.symm)

/-- Where two keys come last in another order than first, the one that comes first last is
overruled. -/
theorem MergesInOrder.eq (h : MergesInOrder resource contexts) :
    firstBy id (resource.chain contexts) = (resource.chain contexts).dedup := by
  -- a name for the keys, so that the run below can be rewritten once
  obtain ⟨keys, hkeys⟩ : ∃ keys, keys = resource.chain contexts := ⟨_, rfl⟩
  rw [← hkeys]
  by_contra hne
  have hperm : (firstBy id keys).Perm keys.dedup :=
    (List.perm_ext_iff_of_nodup (nodup_firstBy_id keys) keys.nodup_dedup).2 fun key => by
      rw [mem_firstBy_id, List.mem_dedup]
  -- some two keys differ in which of them comes last
  obtain ⟨a, b, hab, ha, hb⟩ := exists_find?_ne
    (List.nodup_reverse.2 (nodup_firstBy_id keys))
    ((List.reverse_perm _).trans (hperm.trans (List.reverse_perm _).symm))
    fun heq => hne (List.reverse_injective heq)
  rw [find?_reverse_dedup] at hb
  have hshows : (Setting.idle (.contest a b)).medium.Shows (.contest a b) :=
    Medium.shows_memory _
  have hordered : (Collection.contest a b).ValuesOrdered :=
    Collection.valuesOrdered_both hab trivial trivial
  -- so they differ in the value that is found in the end
  have hrun := hshows.run_readMerged resource contexts
  rw [h _ _ hshows hordered, ← hkeys, Prod.mk.injEq, Except.ok.injEq] at hrun
  -- in the order of all keys it is that of `b`, in the order of their first places that of `a`
  have hvalue := Collection.value_ofRecords_contest hab hb
  rw [hrun.1, Collection.value_ofRecords_contest hab ha, decide_eq_true rfl,
    decide_eq_false hab.symm] at hvalue
  cases hvalue

/-- **The contexts that are given take precedence in their order, whatever is stored, exactly if
their keys come last in the order in which they come first.** What is merged in any case are the
records that are read of the keys, each at its first place, and nothing is answered exactly if none
of the keys has a record. -/
theorem mergesInOrder_iff (resource : Resource) (contexts : List String) :
    (∀ s c, s.medium.Shows c →
      ∃ merged, (readMerged resource contexts).run s = (.ok merged, s) ∧
        merged = Merged.ofRecords ((firstBy id (resource.chain contexts)).filterMap c.shown) ∧
        (merged = none ↔ ∀ key ∈ resource.chain contexts, (read key).run s = (.ok none, s))) ∧
    (MergesInOrder resource contexts ↔
      firstBy id (resource.chain contexts) = (resource.chain contexts).dedup) := by
  refine ⟨fun s c hs => ⟨_, hs.run_readMerged resource contexts, rfl, ?_⟩,
    -- merging nothing means that no key that is merged has a record, and the same keys are read
    MergesInOrder.eq, mergesInOrder_of_eq⟩
  rw [Merged.ofRecords_eq_none_iff, List.filterMap_eq_nil_iff]
  refine forall_congr' fun key => ?_
  rw [mem_firstBy_id, hs.run_read_iff]

theorem mergesInOrder_iff_repeated :
    let resource : Resource := ⟨"rules", "alerting", "tenant-1"⟩
    let p := Record.first resource.defaultKey (.struct [("x", .bool true), ("y", .bool true)]) 1000
    let q := Record.first (resource.key "b") (.struct [("y", .bool false)]) 2000
    let c := Collection.both p q
    MergesInOrder resource ["", "b", "b"] ∧
      (readMerged resource ["", "b", "b"]).run (.idle c) =
        (.ok (some ⟨.struct [("x", .bool true), ("y", .bool false)], 2000, 2000⟩), .idle c) := by
  intro resource p q c
  obtain ⟨hread, horder⟩ := mergesInOrder_iff resource ["", "b", "b"]
  have hshown (key : Key) : c.shown key =
      if key = p.key then some p else if key = q.key then some q else none :=
    Collection.shown_both (by decide) rfl rfl key
  refine ⟨horder.2 (by decide), ?_⟩
  -- the run is the one that the theorem gives for every medium
  obtain ⟨merged, hrun, hmerged, -⟩ := hread (.idle c) c (Medium.shows_memory c)
  rw [hrun, hmerged, funext hshown]
  rfl

theorem not_mergesInOrder_overruled :
    let resource : Resource := ⟨"rules", "alerting", "tenant-1"⟩
    let p := Record.first (resource.key "a") (.string "first") 1000
    let q := Record.first (resource.key "b") (.string "second") 2000
    let c := Collection.both p q
    (readMerged resource ["a", "b", "a"]).run (.idle c) =
        (.ok (some ⟨.string "second", 2000, 2000⟩), .idle c) ∧
      Merged.ofRecords ((resource.chain ["a", "b", "a"]).filterMap c.shown) =
        some ⟨.string "first", 1000, 1000⟩ ∧
      ¬ MergesInOrder resource ["a", "b", "a"] := by
  intro resource p q c
  have hshown (key : Key) : c.shown key =
      if key = p.key then some p else if key = q.key then some q else none :=
    Collection.shown_both (by decide) rfl rfl key
  -- of two places of the first key the first one counts, so the second key is merged last
  have hrun : (readMerged resource ["a", "b", "a"]).run (.idle c) =
      (.ok (some ⟨.string "second", 2000, 2000⟩), .idle c) := by
    rw [(Medium.shows_memory c).run_readMerged (s := .idle c), funext hshown]
    rfl
  -- by the order of the contexts the first key would be merged last
  have hclaimed : Merged.ofRecords ((resource.chain ["a", "b", "a"]).filterMap c.shown) =
      some ⟨.string "first", 1000, 1000⟩ := by
    rw [funext hshown]
    rfl
  refine ⟨hrun, hclaimed, fun h => ?_⟩
  have hordered : c.ValuesOrdered := Collection.valuesOrdered_both (by decide) trivial trivial
  have hsame := h (.idle c) c (Medium.shows_memory c) hordered
  rw [hrun, hclaimed] at hsame
  simp at hsame

end Store

end ConfigLedger
