import ConfigLedger.Proofs.Store.Durability
import ConfigLedger.Proofs.Store.Elements
import ConfigLedger.Proofs.Store.Querying

/-!
# Addressing what is listed

A record that a query lists has the key of a stored document, while a caller who wants to read or to
delete it forms a key from the context that the record shows (`Resource.key`). Both are the same key
unless that context is empty: a key that is formed from it names the default instance.

So a record that is listed can be addressed exactly if its context is not empty
(`Store.addressed_iff`). No caller can store a document whose context is empty, but a file that is
opened may hold one. On a store that was opened, everything that is listed can be addressed exactly
if no such document lives in the file (`Host.addresses_iff`).
-/

namespace ConfigLedger

variable {c c' : Collection} {s : Setting} {resource : Resource} {r : Record}

/-- The key that is formed from the context of a key is that key, unless the context is empty. -/
theorem Resource.key_context_eq_iff {key : Key} :
    key.resource.key key.context = key ↔ key.context ≠ "" := by
  obtain ⟨resource, context⟩ := key
  by_cases hempty : context = ""
  · subst hempty
    simp [Resource.key, defaultContext]
  · simp [Resource.key, hempty]

namespace Collection

variable {d : Document} {key : Key}

/-- A document is the newest one of its key if no other version of it is larger. -/
theorem newest_eq_some_iff : c.newest key = some d ↔
    d ∈ c.documents ∧ d.key = key ∧ ∀ e ∈ c.documents, e.key = key → e.version ≤ d.version := by
  constructor
  · intro h
    obtain ⟨hd, hkey⟩ := mem_documents_of_newest h
    exact ⟨hd, hkey, fun e he hekey => version_le_newest h he hekey⟩
  · rintro ⟨hd, rfl, hlargest⟩
    obtain ⟨e, he⟩ := exists_newest hd
    obtain ⟨hemem, hekey⟩ := mem_documents_of_newest he
    have hversion : e.version = d.version :=
      UInt64.le_antisymm (hlargest e hemem hekey) (version_le_newest he hd rfl)
    rw [he, eq_of_sameVersion hemem hd (Document.sameVersion_iff.2 ⟨hekey, hversion⟩)]

end Collection

namespace Store

/-! ### What is listed -/

/-- Some query without a filter lists the record, in whatever order and on whatever page. -/
def Surfaces (s : Setting) (resource : Resource) (r : Record) : Prop :=
  ∃ options result, options.filter = none ∧
    ((query resource options).run s).1 = .ok result ∧ r ∈ result.records

/-- A page has no records but those that match. -/
theorem mem_of_mem_page {options : QueryOptions} {bounds : Nat × Option Nat}
    {matching : List Document} (h : r ∈ page options bounds matching) :
    ∃ d ∈ matching, d.record? = some r := by
  obtain ⟨d, hd, hr⟩ := List.mem_filterMap.1 h
  refine ⟨d, ?_, hr⟩
  -- the window is a part of what is sorted
  have hdrop : d ∈ (sortBy Document.field options.sortKeys matching).drop bounds.1 := by
    split at hd
    · exact List.mem_of_mem_take hd
    · exact hd
  exact mem_sortBy.1 (List.mem_of_mem_drop hdrop)

/-- **What is listed of a resource** is what is shown of its keys. -/
theorem surfaces_iff (hs : s.medium.Shows c) :
    Surfaces s resource r ↔ r.key.resource = resource ∧ c.shown r.key = some r := by
  -- with no filter and no bounds, what is listed is what is shown
  have hmem : (∃ d ∈ c.newestLive resource none, d.record? = some r) ↔
      r.key.resource = resource ∧ c.shown r.key = some r := by
    have hall := (lists_all hs resource).mem_iff r
    rw [mem_page, hs.run_read_iff] at hall
    simpa using hall
  rw [← hmem]
  constructor
  · -- sorts and bounds only leave something out
    rintro ⟨options, result, hfilter, hrun, hr⟩
    rw [hs.run_query, hfilter] at hrun
    obtain ⟨filter, hcompiled, hrun⟩ := Disk.bind_eq_ok_iff.1 hrun
    obtain rfl : none = filter := Except.ok.inj hcompiled
    obtain ⟨bounds, -, hresult⟩ := Disk.bind_eq_ok_iff.1 hrun
    obtain rfl := Except.ok.inj hresult
    exact mem_of_mem_page hr
  · intro hlisted
    refine ⟨{}, ⟨page {} (0, none) (c.newestLive resource none),
      (c.newestLive resource none).length⟩, rfl, ?_, mem_page.2 hlisted⟩
    rw [hs.run_query]
    rfl

/-- A document that is the only one of its key is listed. -/
theorem surfaces_of_only (hs : s.medium.Shows c) {d : Document} (hr : d.record? = some r)
    (hd : d ∈ c.documents) (honly : ∀ e ∈ c.documents, e.key = d.key → e = d) :
    Surfaces s d.key.resource r := by
  obtain ⟨hlive, rfl⟩ := Document.record?_eq_some_iff.1 hr
  exact (surfaces_iff hs).2
    ⟨rfl, Collection.shown_eq_some_iff.2 ⟨Collection.latest_of_only hd honly, hlive⟩⟩

/-! ### Addressing a record -/

/-- **The record can be addressed by its context.** The key that is formed from it reads the record,
and a deletion of that key answers the record, takes it from the lists of the resource and leaves
everything else in them. -/
structure Addressed (s : Setting) (resource : Resource) (r : Record) : Prop where
  read : (read (resource.key r.key.context)).run s = (.ok (some r), s)
  delete : ∀ author, ∃ next,
    (delete author (resource.key r.key.context)).run s = (.ok (some r), next) ∧
      ∀ other, Surfaces next resource other ↔ Surfaces s resource other ∧ other ≠ r

/-- A deletion of a key that shows a record answers it, and takes it from what is listed. -/
theorem exists_run_delete (hs : s.medium.Keeps c) (hfree : r.key ∉ s.monitors.held)
    (hbound : ∀ d ∈ c.history r.key, d.version.toNat + 1 < Binary64.exactBound)
    (hr : c.shown r.key = some r) (author : Author) :
    ∃ next, (delete author r.key).run s = (.ok (some r), next) ∧
      ∀ other, Surfaces next resource other ↔ Surfaces s resource other ∧ other ≠ r := by
  -- versions below the bound are told apart, so the version after the record's is free
  have hexact : c.ExactAt r.key := fun d hd => Nat.lt_of_succ_lt (hbound d hd)
  let p := Pending.ofDelete author r.key r (s.readings 0)
  have hversion : p.document.version = nextVersion (c.newest r.key) := by
    rw [Collection.shown, hexact.latest_eq] at hr
    exact Pending.version_ofDelete hr author r.key (s.readings 0)
  -- the tombstone is stored, and afterwards its key shows nothing
  obtain ⟨c', hinsert⟩ := hexact.insert?_next (d := p.document) rfl hversion
  obtain ⟨m, hadded, hm⟩ := hs.insert hinsert
  have hhidden : c'.shown r.key = none := by
    have h := shown_insert_ofDelete hbound hr author (s.readings 0)
    rwa [Memory.insert, hinsert] at h
  refine ⟨{ s with medium := m, readings := s.tick.readings }, ?_, fun other => ?_⟩
  · -- the deletion finds the record, and its tombstone is stored
    rw [run_delete_some hs.shows hfree author hr]
    change ((s.medium.insert p.document).1.mapError StoreError.ofBackend |>.bind _,
      { s with medium := (s.medium.insert p.document).2, readings := s.tick.readings }) = _
    rw [hadded]
    rfl
  · rw [surfaces_iff (s := { s with medium := m, readings := s.tick.readings }) hm.shows,
      surfaces_iff hs.shows]
    by_cases hkey : other.key = r.key
    · -- before the deletion the key showed nothing but the record
      rw [hkey, hhidden, hr]
      refine ⟨fun h => ?_, fun h => absurd (Option.some.inj h.1.2).symm h.2⟩
      cases h.2
    · -- nothing is changed under another key
      have hsame : c'.shown other.key = c.shown other.key := by
        refine Collection.shown_congr (Collection.history_of_insert?_of_ne hinsert ?_)
        exact fun h => hkey h.symm
      have hne : other ≠ r := fun h => hkey (congrArg Record.key h)
      rw [hsame]
      exact (and_iff_left hne).symm

/-- **A record that is listed can be addressed** exactly if its context is not empty. -/
theorem addressed_iff (hs : s.medium.Keeps c) (hfree : r.key ∉ s.monitors.held)
    (hbound : ∀ d ∈ c.documents, d.version.toNat + 1 < Binary64.exactBound)
    (hr : Surfaces s resource r) : Addressed s resource r ↔ r.key.context ≠ "" := by
  obtain ⟨rfl, hshown⟩ := (surfaces_iff hs.shows).1 hr
  constructor
  · -- what is read of the default instance has the key of that
    intro h
    rw [← Resource.key_context_eq_iff]
    exact (Collection.key_of_shown (hs.shows.run_read_iff.1 h.read)).symm
  · intro hcontext
    -- with a context of its own the key leads back to the record
    have hkey := Resource.key_context_eq_iff.2 hcontext
    refine ⟨?_, fun author => ?_⟩
    · rw [hkey, hs.shows.run_read_iff]
      exact hshown
    · rw [hkey]
      exact exists_run_delete hs hfree (fun d hd => hbound d (Collection.mem_history.1 hd).1)
        hshown author

/-- **Everything that is listed can be addressed** exactly if no document of the resource under the
empty context lives, which is one that is the newest of its key and no tombstone. -/
theorem forall_addressed_iff (hs : s.medium.Keeps c) (hfree : s.monitors.held = [])
    (hbound : ∀ d ∈ c.documents, d.version.toNat + 1 < Binary64.exactBound) :
    (∀ r, Surfaces s resource r → Addressed s resource r) ↔
      ∀ d ∈ c.documents, d.key = ⟨resource, ""⟩ → d.isTombstone = false →
        ∃ e ∈ c.documents, e.key = d.key ∧ d.version < e.version := by
  have hfreeKey (key : Key) : key ∉ s.monitors.held := by
    rw [hfree]
    exact List.not_mem_nil
  have hlatest (key : Key) : c.latest key = c.newest key :=
    Collection.ExactAt.latest_eq fun d hd =>
      Nat.lt_of_succ_lt (hbound d (Collection.mem_history.1 hd).1)
  constructor
  · intro hall d hd hkey hlive
    by_contra hlargest
    -- otherwise it is shown, and so it is listed
    have hnewest : c.newest d.key = some d := by
      refine Collection.newest_eq_some_iff.2 ⟨hd, rfl, fun e he hekey => ?_⟩
      exact UInt64.not_lt.1 fun hlt => hlargest ⟨e, he, hekey, hlt⟩
    let r : Record := ⟨d.key, d.version, d.value, d.author, d.created, d.updated⟩
    have hshown : c.shown r.key = some r :=
      Collection.shown_eq_some_iff.2 ⟨(hlatest d.key).trans hnewest, hlive⟩
    have hr : Surfaces s resource r :=
      (surfaces_iff hs.shows).2 ⟨congrArg Key.resource hkey, hshown⟩
    exact (addressed_iff hs (hfreeKey _) hbound hr).1 (hall r hr) (congrArg Key.context hkey)
  · intro hhidden r hr
    -- under the empty context nothing may be listed, so a record there would have to be superseded
    refine (addressed_iff hs (hfreeKey _) hbound hr).2 fun hcontext => ?_
    obtain ⟨rfl, hshown⟩ := (surfaces_iff hs.shows).1 hr
    obtain ⟨hfound, hlive⟩ := Collection.shown_eq_some_iff.1 hshown
    obtain ⟨hmem, -, hlargest⟩ := Collection.newest_eq_some_iff.1 ((hlatest _).symm.trans hfound)
    obtain ⟨e, he, hekey, hlt⟩ := hhidden r.document hmem (by rw [← hcontext]; rfl) hlive
    exact absurd (hlargest e he hekey) (UInt64.not_le.2 hlt)

end Store

/-! ### Stores that are opened -/

namespace Host

/-- **In a store whose file was opened** everything that is listed can be addressed exactly if the
file has no document of the resource that lives under the empty context. -/
theorem addresses_iff {settings : StoreSettings} {directory name : String} {level : Option Int}
    (hbackend : settings.backend = .filesystem directory name level)
    {disk : Disk} {clock : SteppingClock} {host : Host}
    (hopen : Host.open? settings disk clock = .ok host)
    (hsaves : disk.Saves (Path.inDirectory directory name))
    (hbound : ∀ d ∈ host.medium.documents, d.version.toNat + 1 < Binary64.exactBound)
    (resource : Resource) :
    (∀ r, Store.Surfaces host.setting resource r → Store.Addressed host.setting resource r) ↔
      ∀ d ∈ host.medium.documents, d.key = ⟨resource, ""⟩ → d.isTombstone = false →
        ∃ e ∈ host.medium.documents, e.key = d.key ∧ d.version < e.version := by
  obtain ⟨⟨f, hf, rfl⟩, -⟩ := open?_again hbackend hopen
  obtain ⟨⟨rfl, hpath, -⟩, -⟩ := Snapshot.of_open? hf
  -- the disk of the snapshot is the one that it was opened on
  have hsavable : f.Savable := by
    rw [Snapshot.Savable, hpath]
    exact hsaves
  exact Store.forall_addressed_iff (Medium.Keeps.file hsavable) rfl hbound

/-! ### A file at the root -/

/-- A disk with a file at the root that holds some documents. -/
def rootDisk (documents : List Document) : Disk :=
  (Disk.save {} (Path.inDirectory "/" "configs.json") ⟨false, Snapshot.textOf documents⟩ none).2

theorem saves_rootDisk (documents : List Document) :
    (rootDisk documents).Saves (Path.inDirectory "/" "configs.json") := by
  obtain ⟨disk, hsave, hagree, -⟩ := saves_root.save ⟨false, Snapshot.textOf documents⟩
  rw [rootDisk, hsave]
  exact saves_root.agree hagree

/-- What opens on it. -/
def rootFile (documents : List Document) (clock : SteppingClock) : Host :=
  { medium := .file ⟨.ofList documents, rootDisk documents, Path.inDirectory "/" "configs.json",
      false⟩ [], clock, tenants := ⟨1000, []⟩ }

/-- Documents in order that are read as they were written are found in the file. -/
theorem open?_rootDisk (documents : List Document)
    (hordered : documents.Pairwise Document.Before)
    (hreread : documents.mapM Document.reread? = some documents) (clock : SteppingClock) :
    Host.open? rootSettings (rootDisk documents) clock = .ok (rootFile documents clock) ∧
      (rootFile documents clock).medium.documents = documents := by
  let f : Snapshot :=
    ⟨.ofList documents, rootDisk documents, Path.inDirectory "/" "configs.json", false⟩
  -- documents in order are collected as they stand, so the file holds just them
  have hdocuments : f.collection.documents = documents := Collection.documents_ofList hordered
  have hwritten : f.Written := by
    obtain ⟨disk, hsave, -, hfind⟩ := saves_root.save ⟨false, Snapshot.textOf documents⟩
    rw [Snapshot.Written, hdocuments]
    change (rootDisk documents).find _ = _
    rw [rootDisk, hsave, hfind]
  have hopen : Snapshot.open? (rootDisk documents) (Path.inDirectory "/" "configs.json") false =
      .ok f := by
    refine hwritten.open?.trans ?_
    rw [hdocuments, hreread]
  refine ⟨?_, hdocuments⟩
  rw [open?_filesystem (rfl : rootSettings.backend = .filesystem "/" "configs.json" none),
    Option.isSome_none, hopen]
  rfl

/-- A document under the empty context does no harm once it is deleted. -/
theorem addresses_iff_deleted :
    let d := Document.sample 1 (.string "on")
    -- a document under the empty context that was deleted
    let first := { d with key := ⟨d.key.resource, ""⟩ }
    let second := { first with version := 2, value := .null }
    let host := rootFile [first, second, d] ⟨1000, 10⟩
    Host.open? rootSettings (rootDisk [first, second, d]) ⟨1000, 10⟩ = .ok host ∧
      ∃ r, d.record? = some r ∧ Store.Surfaces host.setting d.key.resource r ∧
        Store.Addressed host.setting d.key.resource r := by
  intro d first second host
  obtain ⟨hopen, hdocuments⟩ := open?_rootDisk [first, second, d] (by decide) rfl ⟨1000, 10⟩
  -- versions one and two are far below the bound
  have hbound : ∀ e ∈ host.medium.documents, e.version.toNat + 1 < Binary64.exactBound := by
    rw [hdocuments]
    simp [first, second, d, Document.sample, Binary64.exactBound]
  have hmem : ∀ e, e ∈ (Collection.ofList [first, second, d]).documents ↔
      e = first ∨ e = second ∨ e = d := fun e => by
    change e ∈ host.medium.documents ↔ _
    rw [hdocuments]
    simp
  let r : Record := ⟨d.key, d.version, d.value, d.author, d.created, d.updated⟩
  -- the document under its own context is the newest of its key, so it is listed
  have hr : Store.Surfaces host.setting d.key.resource r := by
    refine Store.surfaces_of_only (Medium.shows_file _ []) rfl ((hmem d).2 (.inr (.inr rfl))) ?_
    intro e he hkey
    rcases (hmem e).1 he with rfl | rfl | rfl
    · exact absurd hkey (by decide)
    · exact absurd hkey (by decide)
    · rfl
  refine ⟨hopen, r, rfl, hr, (addresses_iff rfl hopen (saves_rootDisk _) hbound _).2 ?_ r hr⟩
  intro e he hkey hlive
  rcases (hmem e).1 he with rfl | rfl | rfl
  · exact ⟨second, (hmem second).2 (.inr (.inl rfl)), rfl, by decide⟩
  · cases hlive
  · exact absurd hkey (by decide)

/-- A document under the empty context is listed, and its context neither reads nor deletes it. -/
theorem not_addresses_empty :
    let sample := Document.sample 1 (.string "on")
    let d := { sample with key := ⟨sample.key.resource, ""⟩ }
    let host := rootFile [d] ⟨1000, 10⟩
    Host.open? rootSettings (rootDisk [d]) ⟨1000, 10⟩ = .ok host ∧
      ∃ r, d.record? = some r ∧ Store.Surfaces host.setting d.key.resource r ∧
        (Store.read (d.key.resource.key r.key.context)).run host.setting =
          (.ok none, host.setting) ∧
        (Store.delete d.author (d.key.resource.key r.key.context)).run host.setting =
          (.ok none, host.setting) := by
  intro sample d host
  obtain ⟨hopen, hdocuments⟩ := open?_rootDisk [d] (List.pairwise_singleton _ _) rfl ⟨1000, 10⟩
  have hshows : host.setting.medium.Shows (.ofList [d]) := Medium.shows_file _ []
  have hmem : ∀ e, e ∈ (Collection.ofList [d]).documents ↔ e = d := fun e => by
    change e ∈ host.medium.documents ↔ _
    rw [hdocuments, List.mem_singleton]
  -- the key that is formed from the empty context has no document
  have hhidden : (Collection.ofList [d]).shown d.key.resource.defaultKey = none := by
    have hnewest : (Collection.ofList [d]).newest d.key.resource.defaultKey = none := by
      refine Collection.newest_eq_none_iff.2 fun e he => ?_
      rw [(hmem e).1 he]
      decide
    rw [Collection.shown, Collection.latest_of_newest_eq_none hnewest]
    rfl
  refine ⟨hopen, _, rfl, Store.surfaces_of_only hshows rfl ((hmem d).2 rfl) fun e he _ =>
    (hmem e).1 he, hshows.run_read_iff.2 hhidden, ?_⟩
  exact Store.run_delete_none hshows List.not_mem_nil d.author hhidden

end Host
end ConfigLedger
