import ConfigLedger.Proofs.Store.InMemory
import Mathlib.Data.List.Nodup

/-!
# Collections that represent ledgers

A collection represents a ledger if its histories are numbered, the counter of a key is the
length of its history, and the live record is the record of its newest version (`Represents`).

Whatever is added behind the newest version of its key advances the ledger
(`Represents.insert_next`), and what is read of a resource are the records of the ledger up to their
order (`Represents.perm_records`). The order does not show in a page, because the context of a
record comes last among what pages are sorted by (`Represents.page_eq`).
-/

namespace ConfigLedger

variable {c c' : Collection} {s : Setting} {ledger : Ledger} {key : Key} {d : Document}

/-! ### The simulation relation -/

/-- What is live if the document is the newest version of its key. -/
def Document.live? (d : Document) : Option Live :=
  if d.isTombstone then none else some ⟨d.value, d.author, d.created, d.updated⟩

theorem Document.map_record_live? {n : Nat} (hd : d.version.toNat = n) :
    d.live?.map (Live.record d.key n) = d.record? := by
  subst hd
  rw [live?, record?]
  split
  · rfl
  · simp [Live.record]

/-- A collection represents a ledger. -/
structure Represents (c : Collection) (ledger : Ledger) : Prop where
  numbered : c.Numbered
  counter (key : Key) : (ledger.slot key).counter = (c.history key).length
  live (key : Key) : ledger.record? key = (c.newest key).bind Document.record?

theorem Ledger.slot_advance (live : Option Live) (other : Key) :
    (ledger.advance key live).slot other =
      if other = key then ⟨(ledger.slot key).counter + 1, live⟩ else ledger.slot other := by
  rw [slot, advance, Entries.get?_put]
  split <;> rfl

namespace Represents

theorem empty (readings : Nat → UInt64) : Represents .empty { readings } where
  numbered := Collection.Numbered.empty
  counter _ := rfl
  live _ := rfl

theorem tick (h : Represents c ledger) : Represents c ledger.tick :=
  ⟨h.numbered, h.counter, h.live⟩

/-- **An addition behind the newest version advances the ledger**, and it leaves the histories of
the other keys as they are. -/
theorem insert_next (h : Represents c ledger)
    (hfew : (c.history d.key).length < Binary64.exactBound)
    (hd : d.version = nextVersion (c.newest d.key)) :
    ∃ c', c.insert? d = some c' ∧ Represents c' (ledger.advance d.key d.live?) ∧
      ∀ key, key ≠ d.key → c'.history key = c.history key := by
  -- numbers without gaps and below the bound leave room for the next one
  obtain ⟨c', hinsert⟩ := h.numbered.insert?_next hfew hd
  obtain ⟨hnumbered, hhistory⟩ := h.numbered.of_insert? hfew hd hinsert
  refine ⟨c', hinsert, ⟨hnumbered, fun key => ?_, fun key => ?_⟩, fun key hkey => ?_⟩
  -- the counter of the key is the length of its history, one more than before
  · rw [Ledger.slot_advance, hhistory]
    by_cases hkey : key = d.key
    · rw [if_pos hkey, if_pos hkey.symm, h.counter, hkey]
      simp
    · rw [if_neg hkey, if_neg (Ne.symm hkey), h.counter]
  -- the document is the newest version of its key now
  · rw [Ledger.record?, Ledger.slot_advance, Collection.newest, hhistory]
    by_cases hkey : key = d.key
    · rw [if_pos hkey, if_pos hkey.symm, List.getLast?_concat, Option.bind_some, hkey,
        Slot.record?, Document.map_record_live?]
      rw [hd, h.numbered.toNat_next hfew, h.counter]
    · rw [if_neg hkey, if_neg (Ne.symm hkey)]
      exact h.live key
  · -- no other key has gained a version
    rw [hhistory, if_neg hkey.symm]

/-- What a write makes of the newest version can be stored. -/
theorem insert_ofWrite (h : Represents c ledger)
    (hfew : (c.history key).length < Binary64.exactBound) {author : Author} {value : Value}
    {now : UInt64} {p : Pending} (hp : p = .ofWrite author key value (c.newest key) now) :
    ∃ c', c.insert? p.document = some c' ∧
      Represents c' (ledger.advance key p.document.live?) ∧
      ∀ other, other ≠ key → c'.history other = c.history other := by
  subst hp
  exact h.insert_next hfew rfl

/-- The tombstone that a deletion makes of the live record can be stored. -/
theorem insert_ofDelete (h : Represents c ledger)
    (hfew : (c.history key).length < Binary64.exactBound) {author : Author} {r : Record}
    (hr : ledger.record? key = some r) {now : UInt64} {p : Pending}
    (hp : p = .ofDelete author key r now) :
    ∃ c', c.insert? p.document = some c' ∧ Represents c' (ledger.advance key none) ∧
      ∀ other, other ≠ key → c'.history other = c.history other := by
  subst hp
  exact h.insert_next hfew
    (Pending.version_ofDelete ((h.live key).symm.trans hr) author key now)

/-! ### Single keys -/

/-- A write in terms of the version that it makes. -/
theorem write_eq (h : Represents c ledger)
    (hfew : (c.history key).length < Binary64.exactBound) {author : Author} {value : Value}
    {filter : Option Filter} {precondition : Option Predicate} {p : Pending}
    (hvalue : value.isNull = false) (hfilter : compiled filter = .ok precondition)
    (hp : p = .ofWrite author key value (c.newest key) (ledger.readings 0)) :
    ledger.write author key value filter =
      if precondition.all fun q => p.previous.any (·.satisfies q) then
        (p.written, ledger.advance key p.document.live?)
      else (.error (.conflict ("precondition failed for " ++ key.label)), ledger.tick) := by
  -- both take the record that the newest version shows
  have hprevious : p.previous = ledger.record? key := by rw [hp, h.live]; rfl
  -- what the version makes live is what the ledger installs
  have hlive : p.document.live? = some ⟨value, author,
      ((ledger.record? key).map Record.created).getD (ledger.readings 0), ledger.readings 0⟩ := by
    rw [hp, Document.live?, h.live]
    simp only [Document.isTombstone, Pending.ofWrite, hvalue]
    rfl
  -- its number is the counter, so the records are the same as well
  have hrecord : p.document.record? = p.document.live?.map
      (Live.record key ((ledger.slot key).counter + 1)) := by
    have hversion : p.document.version.toNat = (ledger.slot key).counter + 1 := by
      rw [hp, h.counter]
      exact h.numbered.toNat_next hfew
    rw [← Document.map_record_live? hversion, hp]
    rfl
  rw [Ledger.write, Store.checkWritable, hvalue, hfilter, Pending.written, hrecord, hlive,
    hprevious]
  rfl

end Represents

/-! ### Resources -/

theorem Ledger.mem_records {resource : Resource} {filter : Option Predicate} {r : Record} :
    r ∈ ledger.records resource filter ↔
      ledger.record? r.key = some r ∧ r.key.resource = resource ∧
        filter.all r.satisfies = true := by
  rw [records, List.mem_filter, Bool.and_eq_true, decide_eq_true_iff]
  refine and_congr_left fun _ => ?_
  rw [List.mem_filterMap, record?, slot]
  constructor
  · rintro ⟨⟨key, slot⟩, hmem, hr⟩
    -- a record carries the key of its slot
    have hkey : r.key = key := by
      obtain ⟨live, -, rfl⟩ := Option.map_eq_some_iff.1 hr
      rfl
    rw [hkey, Entries.mem_toList_iff.1 hmem]
    exact hr
  · -- a record of the ledger comes from the slot of its key
    intro hr
    cases hslot : ledger.slots.get? r.key with
    | none =>
      rw [hslot] at hr
      cases hr
    | some slot =>
      rw [hslot] at hr
      exact ⟨(r.key, slot), Entries.mem_toList_iff.2 hslot, hr⟩

theorem Ledger.nodup_records (ledger : Ledger) (resource : Resource) (filter : Option Predicate) :
    (ledger.records resource filter).Nodup := by
  refine List.Pairwise.filter _ (List.pairwise_filterMap.2 ?_)
  refine (List.pairwise_map.1 ledger.slots.distinct).imp fun {a b} hne r hr r' hr' heq => hne ?_
  obtain ⟨live, -, rfl⟩ := Option.map_eq_some_iff.1 hr
  obtain ⟨live', -, rfl⟩ := Option.map_eq_some_iff.1 hr'
  exact congrArg Record.key heq

namespace Represents

variable {resource : Resource} {filter : Option Predicate}

theorem isNull_of_record? (h : Represents c ledger) {r : Record}
    (hr : ledger.record? key = some r) : r.value.isNull = false := by
  rw [h.live] at hr
  obtain ⟨d, -, hd⟩ := Option.bind_eq_some_iff.1 hr
  obtain ⟨hvalue, rfl⟩ := Document.record?_eq_some_iff.1 hd
  exact hvalue

/-- **What is read of a resource are the records of the ledger**, in some order. -/
theorem perm_records (h : Represents c ledger) (hc : c.Exact) :
    ((c.newestLive resource filter).filterMap Document.record?).Perm
      (ledger.records resource filter) := by
  have hlive : ∀ d ∈ c.newestLive resource filter, d.isTombstone = false :=
    fun d hd => (hc.mem_newestLive.1 hd).2.1
  -- each context occurs once
  have hnodup : ((c.newestLive resource filter).filterMap Document.record?).Nodup := by
    have hcontexts := c.nodup_newestLive resource filter
    rw [← map_document_filterMap hlive] at hcontexts
    exact (List.Nodup.of_map _ hcontexts).of_map _
  -- so it is enough that the same records occur
  refine (List.perm_ext_iff_of_nodup hnodup (ledger.nodup_records _ _)).2 fun r => ?_
  rw [List.mem_filterMap, Ledger.mem_records, h.live, Option.bind_eq_some_iff]
  constructor
  · -- a document that is found is the newest version of its key
    rintro ⟨d, hd, hr⟩
    obtain ⟨-, rfl⟩ := Document.record?_eq_some_iff.1 hr
    obtain ⟨⟨hresource, hnewest⟩, -, hfilter⟩ := hc.mem_newestLive.1 hd
    exact ⟨⟨_, hnewest, hr⟩, hresource, hfilter⟩
  · -- and each record of the ledger was made live by such a version
    rintro ⟨⟨d, hnewest, hr⟩, hresource, hfilter⟩
    obtain ⟨hvalue, rfl⟩ := Document.record?_eq_some_iff.1 hr
    exact ⟨_, hc.mem_newestLive.2 ⟨⟨hresource, hnewest⟩, hvalue, hfilter⟩, hr⟩

theorem length_newestLive (h : Represents c ledger) (hc : c.Exact) :
    (c.newestLive resource filter).length = (ledger.records resource filter).length := by
  rw [← (h.perm_records hc).length_eq, ← List.length_map Record.document,
    map_document_filterMap fun d hd => (hc.mem_newestLive.1 hd).2.1]

/-- Records of a resource that agree in all that a page is sorted by are the same. -/
theorem apart (options : QueryOptions) {r r' : Record}
    (hr : r ∈ ledger.records resource filter) (hr' : r' ∈ ledger.records resource filter)
    (heq : compareBy Record.field options.sortKeys r r' = .eq) : r = r' := by
  obtain ⟨hr, hresource, -⟩ := Ledger.mem_records.1 hr
  obtain ⟨hr', hresource', -⟩ := Ledger.mem_records.1 hr'
  have hkey : r.key = r'.key :=
    options.key_eq_of_compareBy (d := r.document) (e := r'.document)
      (hresource.trans hresource'.symm) heq
  rw [← hkey] at hr'
  exact Option.some.inj (hr.symm.trans hr')

/-- **A page of what is read is that page of the records.** -/
theorem page_eq (h : Represents c ledger) (hc : c.Exact) (options : QueryOptions)
    (bounds : Nat × Option Nat) :
    Store.page options bounds (c.newestLive resource filter) =
      let window := (sortBy Record.field options.sortKeys
        (ledger.records resource filter)).drop bounds.1
      (bounds.2.map window.take).getD window := by
  have hlive : ∀ d ∈ c.newestLive resource filter, d.isTombstone = false :=
    fun d hd => (hc.mem_newestLive.1 hd).2.1
  -- sorted documents are those of the sorted records, as ties are excluded
  have hsorted : sortBy Document.field options.sortKeys (c.newestLive resource filter) =
      (sortBy Record.field options.sortKeys (ledger.records resource filter)).map
        Record.document := by
    have hperm : ((c.newestLive resource filter).filterMap Document.record?).Perm
        (ledger.records resource filter) := h.perm_records hc
    have hsort (l : List Record) : (sortBy Record.field options.sortKeys l).map Record.document =
        sortBy Document.field options.sortKeys (l.map Record.document) :=
      map_sortBy Record.document (fun _ => rfl) _ _
    rw [← sortBy_eq_of_perm hperm fun r hr r' hr' => apart options (hperm.mem_iff.1 hr)
      (hperm.mem_iff.1 hr'), hsort, map_document_filterMap hlive]
  -- every record lives, so it is read back from its document
  have hrecords {l : List Record}
      (hl : l ⊆ sortBy Record.field options.sortKeys (ledger.records resource filter)) :
      (l.map Record.document).filterMap Document.record? = l :=
    filterMap_map_document fun r hr =>
      h.isNull_of_record? (Ledger.mem_records.1 (mem_sortBy.1 (hl hr))).1
  rw [Store.page, hsorted, ← List.map_drop]
  cases bounds.2 with
  | none => exact hrecords (List.drop_subset _ _)
  | some limit =>
    simp only [← List.map_take]
    exact hrecords (List.Subset.trans (List.take_subset _ _) (List.drop_subset _ _))

end Represents
end ConfigLedger
