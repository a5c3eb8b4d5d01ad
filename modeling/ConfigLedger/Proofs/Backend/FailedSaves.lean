import ConfigLedger.Proofs.Backend.Rollback
import ConfigLedger.Proofs.Backend.Temporary
import ConfigLedger.Settings
import Mathlib.Data.Fintype.EquivFin

/-!
# Files and saves that fail

A snapshot does not write over its file. It writes a temporary file and lets that take the place of
the other, so that a save may fail at any step and the file still holds what it held before
(`Turn.KeepsFile`).

That is what comes of every call whose save fails, **exactly if the path of the snapshot is not that
of its own temporary file** (`Snapshot.keepsFile_iff`). A name that ends with `.tmp` is its own
temporary name, and settings may well have it. Then the first step of a save already empties the
file, and what is not written after that is lost (`Snapshot.not_keepsFile_tmp`).
-/

namespace ConfigLedger

namespace Turn

/-- The file was to be written, and that failed. -/
def Failed (t : Turn) : Prop :=
  t.Writes ∧ t.save.1 ≠ none

/-- The file holds what it held before the call, and it opens with the same documents if it could
be opened before. -/
structure KeepsFile (t : Turn) : Prop where
  content : t.after.disk.read? t.before.path = t.before.disk.read? t.before.path
  opens : ∀ s, Snapshot.open? t.before.disk t.before.path t.before.packed = .ok s →
    ∃ again, Snapshot.open? t.after.disk t.before.path t.before.packed = .ok again ∧
      again.collection = s.collection

end Turn

/-- Some document can be added to any collection. -/
theorem Collection.exists_insert? (c : Collection) : ∃ d c', c.insert? d = some c' := by
  -- there are more tenants than documents
  obtain ⟨tenant, htenant⟩ :=
    Infinite.exists_notMem_finset (c.documents.map fun d => d.key.resource.tenant).toFinset
  let d : Document := ⟨Resource.defaultKey ⟨"", "", tenant⟩, 1, ⟨"", ""⟩, .null, 0, 0⟩
  refine ⟨d, Option.ne_none_iff_exists'.1 fun hnone => ?_⟩
  obtain ⟨e, he, hkey, -⟩ := Collection.insert?_eq_none_iff.1 hnone
  refine htenant (List.mem_toFinset.2 (List.mem_map.2 ⟨e, he, ?_⟩))
  rw [hkey]
  rfl

namespace Snapshot

variable {s : Snapshot} {call : BackendCall} {failure : Option Failure}

/-- Opening depends on what the path finds. -/
theorem open?_of_find_eq {a b : Disk} {path : Path} {packed : Bool}
    (hfind : b.find path = a.find path) (hopen : open? a path packed = .ok s) :
    open? b path packed = .ok { s with disk := b } := by
  rw [open?] at hopen ⊢
  rw [hfind]
  -- a new file, two ways to fail, and a file whose text is decoded
  split at hopen
  · obtain rfl := Except.ok.inj hopen
    rfl
  · cases hopen
  · cases hopen
  · obtain ⟨documents, hdecode, heq⟩ := Disk.bind_eq_ok_iff.1 hopen
    obtain rfl := Except.ok.inj heq
    rw [hdecode]
    rfl

/-- The disk after a call whose save failed. -/
theorem disk_of_failed (h : (s.turn call failure).Failed) :
    (s.turn call failure).after.disk = (s.turn call failure).save.2 := by
  obtain ⟨hwrites, hsave⟩ := h
  obtain ⟨reason, hreason⟩ := Option.ne_none_iff_exists'.1 hsave
  rw [((s.refines_turn call failure).failed hwrites reason hreason).2]

/-- A path that is not that of its temporary file finds after a failed save what it found before. -/
theorem find_of_failed (hclash : ¬ s.disk.Clashes s.path) (h : (s.turn call failure).Failed) :
    (s.turn call failure).after.disk.find s.path = s.disk.find s.path := by
  rw [disk_of_failed h]
  obtain ⟨reason, hreason⟩ := Option.ne_none_iff_exists'.1 h.2
  rcases Disk.of_save_eq_some hreason with hsame | ⟨place, left, hplace, hput⟩
  · exact congrArg (Disk.find · s.path) hsame
  · rw [Turn.save, hput]
    exact Disk.find_put_of_not_clashes hplace hclash left

/-- An insertion whose write fails leaves whatever was written until then in the temporary file. -/
theorem failed_insert {d : Document} {c : Collection} {place : Place}
    (hinsert : s.collection.insert? d = some c)
    (hplace : s.disk.writable s.path.temporary = .ok place) (reason : String) (left : Content) :
    let t := s.turn (.insert d) (some (.write reason left))
    t.Failed ∧ t.after = { s with disk := s.disk.put place (.file left) } := by
  intro t
  -- the temporary file is created, and what was written until the failure is in it
  have hsave : t.save = (some reason, s.disk.put place (.file left)) := by
    change s.disk.save s.path _ (some (.write reason left)) = _
    unfold Disk.save
    rw [hplace]
  have hwrites : t.Writes := by
    change (Memory.insert s.collection d).2 ≠ s.collection
    rw [Memory.insert, hinsert]
    exact Collection.ne_of_insert? hinsert
  refine ⟨⟨hwrites, by rw [hsave]; exact Option.some_ne_none _⟩, ?_⟩
  -- the snapshot is taken back, so all that changed is the disk
  rw [((s.refines_turn _ _).failed hwrites reason (by rw [hsave])).2, hsave]
  rfl

/-- **Any content can be left behind** at a path that is that of its temporary file. -/
theorem exists_failed_of_clashes (hclash : s.disk.Clashes s.path) (left : Content) :
    ∃ call failure, (s.turn call failure).Failed ∧
      (s.turn call failure).after.disk.find s.path = Disk.ending s.path (some (.file left)) := by
  obtain ⟨d, c, hinsert⟩ := s.collection.exists_insert?
  obtain ⟨place, hplace⟩ := hclash.writable
  obtain ⟨hfailed, hafter⟩ := failed_insert hinsert hplace "no space left" left
  refine ⟨_, _, hfailed, ?_⟩
  rw [hafter]
  exact hclash.find_put hplace left

/-- **Failed saves leave the file as it is** exactly if its path is not that of its own temporary
file. -/
theorem keepsFile_iff (s : Snapshot) :
    (∀ call failure, (s.turn call failure).Failed → (s.turn call failure).KeepsFile) ↔
      ¬ s.disk.Clashes s.path := by
  constructor
  · -- one failed save that breaks the file is enough, and there is one for each way to clash
    intro hkeeps hclash
    rcases hclash.ends with ⟨content, hfile⟩ | hmissing
    · -- the file is left with another content
      have hne : (⟨!content.packed, ""⟩ : Content) ≠ content := by
        cases content
        simp
      obtain ⟨call, failure, hfailed, hfind⟩ := exists_failed_of_clashes hclash _
      have hread := (hkeeps call failure hfailed).content
      change Disk.read? _ s.path = s.disk.read? s.path at hread
      rw [Disk.read?, Disk.read?, hfind, hfile, Disk.ending] at hread
      split_ifs at hread
      exact hne (Option.some.inj hread)
    · -- no file yet: the failed save leaves one with no documents in it
      obtain ⟨call, failure, hfailed, hfind⟩ := exists_failed_of_clashes hclash ⟨s.packed, ""⟩
      have hkept := hkeeps call failure hfailed
      rw [Disk.ending] at hfind
      split_ifs at hfind
      · -- a file is left where none was
        have hread := hkept.content
        change Disk.read? _ s.path = s.disk.read? s.path at hread
        rw [Disk.read?, Disk.read?, hfind, hmissing] at hread
        cases hread
      · -- a file is left where only a directory can be opened
        have hopen : open? s.disk s.path s.packed = .ok ⟨.empty, s.disk, s.path, s.packed⟩ := by
          rw [open?, hmissing]
        obtain ⟨again, hagain, -⟩ := hkept.opens _ hopen
        change open? _ s.path s.packed = _ at hagain
        rw [open?, hfind] at hagain
        cases hagain
  · -- the failed save wrote beside what the path finds, so reading and opening see no difference
    intro hclash call failure hfailed
    have hfind := find_of_failed hclash hfailed
    refine ⟨?_, fun opened hopen => ⟨_, open?_of_find_eq hfind hopen, rfl⟩⟩
    change Disk.read? _ s.path = s.disk.read? s.path
    rw [Disk.read?, hfind]
    rfl

/-- With a name that ends with `.tmp` one write that fails is enough to lose what was stored. -/
theorem not_keepsFile_tmp :
    let settings : StoreSettings := { backend := .filesystem "/" "configs.tmp" none }
    let version (n : UInt64) : Document :=
      ⟨Resource.defaultKey ⟨"alerting", "rules", "tenant-1"⟩, n, ⟨"ada", "ada@example.com"⟩,
        .bool true, 1000, 1000⟩
    let file (text : String) : Disk := ⟨[(["configs.tmp"], .file ⟨false, text⟩)]⟩
    let path := Path.inDirectory "/" "configs.tmp"
    let s : Snapshot := ⟨.ofList [version 1], file (textOf [version 1]), path, false⟩
    -- the disk is full when the temporary file was created
    let t := s.turn (.insert (version 2)) (some (.write "no space left" ⟨false, ""⟩))
    settings.validate = .ok () ∧ open? s.disk path false = .ok s ∧ t.Failed ∧
      t.after = { s with disk := file "" } ∧ (∃ e, open? t.after.disk path false = .error e) ∧
      ¬ t.KeepsFile := by
  intro settings version file path s t
  have hpath : path = ⟨["", "configs.tmp"]⟩ := by decide
  have htemporary : path.temporary = path := by decide
  have hnames : Disk.namesOf path = .ok ["configs.tmp"] := by
    have hsize : ¬ Disk.textLimit < path.size := by decide
    rw [Disk.namesOf, if_neg hsize, hpath]
    simp [Path.names]
  -- whatever the text of the file, the path leads to it
  have hfind (text : String) : (file text).find path = .ok (.file ⟨false, text⟩) :=
    Disk.find_eq_ok hnames rfl (by decide) rfl
  have hwritten : s.Written := hfind (textOf [version 1])
  have hopen : open? s.disk path false = .ok s := hwritten.open?
  -- the path is its own temporary file
  have hplace : s.disk.writable path.temporary = .ok ["configs.tmp"] := by
    rw [htemporary]
    refine Disk.writable_eq_ok_iff.2 ⟨_, hnames, rfl, ?_⟩
    change some (Occupant.file _) ≠ _
    simp
  have hinsert : s.collection.insert? (version 2) = some (.ofList [version 1, version 2]) := rfl
  obtain ⟨hfailed, hafter⟩ : t.Failed ∧ t.after = { s with disk := file "" } :=
    failed_insert hinsert hplace "no space left" ⟨false, ""⟩
  -- an empty text is no list of documents
  have hbroken : open? t.after.disk path false =
      .error (.decode "the text is no list of documents") := by
    rw [hafter, open?, hfind]
    simp [decode, documentsOf?, Tree.ofText?, Token.scan, Reading.run]
  refine ⟨rfl, hopen, hfailed, hafter, ⟨_, hbroken⟩, fun hkeeps => ?_⟩
  obtain ⟨again, hagain, -⟩ := hkeeps.opens s hopen
  have hnot : open? t.after.disk path false = .ok again := hagain
  rw [hbroken] at hnot
  cases hnot

end Snapshot

end ConfigLedger
