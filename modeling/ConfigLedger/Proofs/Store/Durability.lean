import ConfigLedger.Proofs.Store.Errands
import ConfigLedger.Store.Opening

/-!
# Durability

A store that keeps its documents in a snapshot file is opened, and then errands are carried out
that write values which were read from texts. If every time the file is written that succeeds, is
the store found again when the file is opened once more?

It is **exactly if every value that is stored nests two containers less than a text may**
(`Host.reopens_iff`). A value is accepted with all the containers that a text may nest, but the
file is one text around all values, and it adds a list and a struct to each. So a value in between
is stored, and from then on the store cannot be opened any more, whatever is done before
(`Host.not_reopens_deep`).
-/

namespace ConfigLedger

namespace Host

/-! ### Opening -/

section

variable {settings : StoreSettings} {directory name : String} {level : Option Int}

/-- A store on a snapshot file opens if its settings are valid and the snapshot opens. -/
theorem open?_filesystem (hbackend : settings.backend = .filesystem directory name level)
    (disk : Disk) (clock : SteppingClock) :
    Host.open? settings disk clock =
      (settings.validate.mapError fun e => StoreError.invalidArgument e.message) >>= fun _ =>
        match Snapshot.open? disk (Path.inDirectory directory name) level.isSome with
        | .ok s =>
          .ok { medium := .file s [], clock, tenants := ⟨settings.guard.stripes.toNat, []⟩ }
        | .error e => .error (.ofBackend e) := by
  rw [Host.open?, hbackend]
  congr 1
  funext _
  unfold Medium.open?
  dsimp only
  cases Snapshot.open? disk (Path.inDirectory directory name) level.isSome <;> rfl

/-- Opening a store with the same settings once more is opening its snapshot once more. -/
theorem open?_again (hbackend : settings.backend = .filesystem directory name level)
    {disk : Disk} {clock : SteppingClock} {host : Host}
    (hopen : Host.open? settings disk clock = .ok host) :
    (∃ s, Snapshot.open? disk (Path.inDirectory directory name) level.isSome = .ok s ∧ host =
        { medium := .file s [], clock, tenants := ⟨settings.guard.stripes.toNat, []⟩ }) ∧
      ∀ (disk' : Disk) (clock' : SteppingClock), Host.open? settings disk' clock' =
        match Snapshot.open? disk' (Path.inDirectory directory name) level.isSome with
        | .ok s => .ok {
            medium := .file s [], clock := clock', tenants := ⟨settings.guard.stripes.toNat, []⟩ }
        | .error e => .error (.ofBackend e) := by
  -- the settings are valid, so only the snapshot decides
  rw [open?_filesystem hbackend] at hopen
  obtain ⟨_, hvalid, hsnapshot⟩ := Disk.bind_eq_ok_iff.1 hopen
  constructor
  · split at hsnapshot
    · rename_i s hs
      exact ⟨s, hs, (Except.ok.inj hsnapshot).symm⟩
    · cases hsnapshot
  · intro disk' clock'
    rw [open?_filesystem hbackend, hvalid]
    rfl

end

/-! ### A file at the root of an empty disk -/

/-- Settings that keep the documents in a file at the root. -/
def rootSettings : StoreSettings :=
  { backend := .filesystem "/" "configs.json" none }

theorem namesOf_root {name : String} (hname : name ≠ "") (hnull : '\x00' ∉ name.toList)
    (hsize : (Path.mk ["", name]).size ≤ Disk.textLimit) :
    Disk.namesOf ⟨["", name]⟩ = .ok [name] := by
  have hnames : (Path.mk ["", name]).names = [name] := by simp [Path.names, hname]
  rw [Disk.namesOf, hnames, if_neg (by simpa using hnull), if_neg (Nat.not_lt.2 hsize)]

theorem namesOf_rootPath :
    Disk.namesOf (Path.inDirectory "/" "configs.json") = .ok ["configs.json"] := by
  rw [show Path.inDirectory "/" "configs.json" = ⟨["", "configs.json"]⟩ by decide]
  exact namesOf_root (by decide) (by decide) (by decide)

theorem saves_root : Disk.Saves {} (Path.inDirectory "/" "configs.json") := by
  have htemporary : Disk.namesOf (Path.inDirectory "/" "configs.json").temporary =
      .ok ["configs.tmp"] := by
    rw [show (Path.inDirectory "/" "configs.json").temporary = ⟨["", "configs.tmp"]⟩ by decide]
    exact namesOf_root (by decide) (by decide) (by decide)
  exact ⟨["configs.tmp"], ["configs.json"],
    Disk.writable_eq_ok_iff.2 ⟨["configs.tmp"], htemporary, rfl, by decide⟩,
    Disk.renamable_eq_ok_iff.2 ⟨[], "configs.json", namesOf_rootPath, by decide, by decide, rfl,
      by decide, by decide⟩⟩

/-- What opens with these settings on an empty disk. -/
def rootHost (clock : SteppingClock) : Host :=
  { medium := .file ⟨.empty, {}, Path.inDirectory "/" "configs.json", false⟩ [], clock,
    tenants := ⟨1000, []⟩ }

theorem savable_rootHost {clock : SteppingClock} : (rootHost clock).medium.Savable :=
  ⟨_, rfl, saves_root⟩

theorem open?_rootPath : Snapshot.open? {} (Path.inDirectory "/" "configs.json") false =
    .ok ⟨.empty, {}, Path.inDirectory "/" "configs.json", false⟩ := by
  have hfind : Disk.find {} (Path.inDirectory "/" "configs.json") = .error .missing := by
    rw [Disk.find, namesOf_rootPath]
    rfl
  rw [Snapshot.open?, hfind]

theorem open?_root (clock : SteppingClock) :
    Host.open? rootSettings {} clock = .ok (rootHost clock) := by
  rw [open?_filesystem (rfl : rootSettings.backend = .filesystem "/" "configs.json" none),
    Option.isSome_none, open?_rootPath]
  rfl

/-! ### Lists inside one another -/

/-- Lists inside one another. -/
def nestedLists : Nat → Value
  | 0 => .list []
  | n + 1 => .list [nestedLists n]

theorem nesting_nestedLists (n : Nat) : (nestedLists n).nesting = n + 1 := by
  induction n with
  | zero => rfl
  | succ n ih =>
    rw [nestedLists, Value.nesting, Value.itemNesting, ih, Value.itemNesting, Nat.max_zero]

theorem numbers_nestedLists (n : Nat) : (nestedLists n).numbers = [] := by
  induction n with
  | zero => rfl
  | succ n ih =>
    rw [nestedLists, Value.numbers, Value.itemNumbers, ih, Value.itemNumbers, List.nil_append]

theorem ordered_nestedLists (n : Nat) : (nestedLists n).Ordered := by
  induction n with
  | zero => trivial
  | succ n ih => exact ⟨ih, trivial⟩

/-- The text of nested lists denotes them, up to the depth of a text. -/
theorem ofText?_nestedLists {n : Nat} (hn : n < Tree.maxDepth) :
    Value.ofText? (nestedLists n).compact = some (nestedLists n) := by
  have hfaithful : (nestedLists n).Faithful :=
    ⟨ordered_nestedLists n, by simp [numbers_nestedLists]⟩
  rw [hfaithful.ofText?_compact, nesting_nestedLists, if_pos (Nat.succ_le_of_lt hn)]

theorem realsReread_nestedLists (n : Nat) : (nestedLists n).RealsReread := by
  intro x hx
  rw [numbers_nestedLists] at hx
  exact absurd hx List.not_mem_nil

/-! ### Opening again -/

/-- A stored value that nests too deeply stays in the way, whatever is done. -/
theorem not_open?_of_stored {path : Path} {packed : Bool} {d : Document} {host : Host}
    (hkept : host.medium.Kept (fun _ => True) [d] path packed) (hfaithful : d.value.Faithful)
    (hdeep : Tree.maxDepth < d.value.nesting + 2) {errands : List Errand}
    (hsaved : Errand.AllSaved errands host) :
    ∃ e, Snapshot.open? (Errand.runAll errands host).medium.disk path packed = .error e := by
  obtain ⟨s, failures, hmedium, hkept⟩ := kept_runAll trivial (by simp) hsaved hkept
  have hdeep : Document.valueDepth < d.value.nesting := by
    unfold Tree.maxDepth at hdeep
    unfold Document.valueDepth Tree.maxDepth
    omega
  rw [hmedium]
  exact hkept.not_open? List.mem_cons_self hfaithful hdeep

/-- **A value that nests too deeply** is stored, and then the store is never opened again, whatever
is done before that. -/
theorem not_reopens_deep {settings : StoreSettings} {directory name : String} {level : Option Int}
    (hbackend : settings.backend = .filesystem directory name level)
    {disk : Disk} {clock : SteppingClock} {host : Host}
    (hopen : Host.open? settings disk clock = .ok host) (hempty : host.medium.documents = [])
    (hsaves : disk.Saves (Path.inDirectory directory name)) {text : String} {value : Value}
    (htext : Value.ofText? text = some value) (hreals : value.RealsReread)
    (hdeep : Tree.maxDepth < value.nesting + 2) (author : Author) (resource : Resource)
    (context : String) (errands : List Errand) (again : SteppingClock) :
    let put : Errand := .command author (.put resource context text none)
    (∃ printed, (put.steps.run Host.serve host).1 = .ok printed) ∧
      ∃ e, Host.open? settings (Errand.runAll (put :: errands) host).medium.disk again =
        .error e := by
  intro put
  -- the store was opened on a snapshot with nothing in it
  obtain ⟨⟨s, hs, hhost⟩, hagain⟩ := open?_again hbackend hopen
  obtain ⟨⟨rfl, hpath, -⟩, -⟩ := Snapshot.of_open? hs
  have hmedium : host.medium = .file s [] := by rw [hhost]
  have hsavable : host.medium.Savable := ⟨s, hmedium, by rw [Snapshot.Savable, hpath]; exact hsaves⟩
  -- a null does not nest
  have hnotNull : value.isNull = false := by
    cases value with
    | null => exact absurd hdeep (by decide)
    | _ => rfl
  obtain ⟨d, printed, rfl, hstored, hanswer⟩ :=
    run_put_empty hsavable hempty (by rw [hhost]) author resource context htext hnotNull
  refine ⟨⟨printed, hanswer⟩, ?_⟩
  -- every save succeeds, so the document stays and the file is kept in step
  have hsaved := allSaved_of_savable (put :: errands) hsavable
  have hstart : host.medium.Kept (fun _ => True) [] (Path.inDirectory directory name)
      level.isSome := by
    rw [hmedium]
    exact Medium.kept_of_open? hs (fun _ _ => trivial) (List.nil_subset _)
  -- so the document that was put is in the file after the first errand
  have hput : (put.steps.run Host.serve host).2.medium.Kept (fun _ => True) [d]
      (Path.inDirectory directory name) level.isSome := by
    have hfirst : Errand.AllSaved [put] host := ⟨hsaved.1, trivial⟩
    obtain ⟨s₁, failures, hmedium₁, hkept⟩ := kept_runAll trivial (by simp) hfirst hstart
    change (put.steps.run Host.serve host).2.medium = _ at hmedium₁
    change (put.steps.run Host.serve host).2.medium.documents = _ at hstored
    rw [hmedium₁, Medium.documents] at hstored
    refine ⟨s₁, failures, hmedium₁, { hkept with subset := ?_ }⟩
    rw [hstored]
    exact List.Subset.refl _
  -- and it stays there, which keeps the store from being opened
  obtain ⟨e, he⟩ := not_open?_of_stored hput ((Value.fits_of_ofText? htext).faithful hreals) hdeep
    hsaved.2
  refine ⟨.ofBackend e, ?_⟩
  rw [Errand.runAll, hagain, he]

/-- **A store is found again exactly if no value nests too deeply.** -/
theorem reopens_iff {settings : StoreSettings} {directory name : String} {level : Option Int}
    (hbackend : settings.backend = .filesystem directory name level)
    {disk : Disk} {clock : SteppingClock} {host : Host}
    (hopen : Host.open? settings disk clock = .ok host)
    {errands : List Errand} (hsaved : Errand.AllSaved errands host)
    (hparsed : ∀ c, .call c ∈ errands → ∀ v ∈ c.values, ∃ text, Value.ofText? text = some v)
    (hreals : ∀ v ∈ host.medium.documents.map Document.value ++ errands.flatMap Errand.values,
      v.RealsReread) (again : SteppingClock) :
    (∃ reopened, Host.open? settings (Errand.runAll errands host).medium.disk again =
        .ok reopened ∧
      reopened.medium.documents = (Errand.runAll errands host).medium.documents) ↔
      ∀ d ∈ (Errand.runAll errands host).medium.documents,
        d.value.nesting + 2 ≤ Tree.maxDepth := by
  obtain ⟨⟨s, hs, rfl⟩, hagain⟩ := open?_again hbackend hopen
  -- what was opened came from texts as well, so it is faithful
  have hstart : (Medium.file s []).Kept Value.Faithful [] (Path.inDirectory directory name)
      level.isSome := by
    refine Medium.kept_of_open? hs (fun d hd => ?_) (List.nil_subset _)
    have hfits := (Snapshot.of_open? hs).2 d hd
    exact hfits.faithful (hreals _ (List.mem_append_left _ (List.mem_map_of_mem hd)))
  -- and so is everything that the errands are given to write
  have hvalues : ∀ e ∈ errands, ∀ v ∈ e.values, v.Faithful := by
    intro e he v hv
    have htext : ∃ text, Value.ofText? text = some v := by
      cases e with
      | command author c => exact c.exists_text_of_value? (by simpa [Errand.values] using hv)
      | call c => exact hparsed c he v hv
    obtain ⟨text, htext⟩ := htext
    exact (Value.fits_of_ofText? htext).faithful
      (hreals v (List.mem_append_right _ (List.mem_flatMap.2 ⟨e, he, hv⟩)))
  -- so after the errands the file is in step, and all values are faithful
  obtain ⟨s', failures, hmedium', hkept⟩ :=
    kept_runAll Value.faithful_null hvalues hsaved hstart
  -- the file lays documents out in a list of structs, which are two containers more
  have hdepth (n : Nat) : n + 2 ≤ Tree.maxDepth ↔ n ≤ Document.valueDepth := by
    unfold Document.valueDepth Tree.maxDepth
    omega
  simp only [hmedium', hagain, Medium.disk, Medium.documents, hkept.open?_eq, hdepth]
  by_cases hfits : ∀ d ∈ s'.collection.documents, d.value.nesting ≤ Document.valueDepth
  · rw [if_pos hfits]
    exact iff_of_true ⟨_, rfl, rfl⟩ hfits
  · rw [if_neg hfits]
    refine iff_of_false ?_ hfits
    rintro ⟨reopened, hreopened, -⟩
    cases hreopened

theorem reopens_iff_put_delete :
    let resource : Resource := ⟨"alerting", "rules", "tenant-1"⟩
    let author : Author := ⟨"ada", "ada@example.com"⟩
    let errands : List Errand := [.command author (.put resource "" (nestedLists 0).compact none),
      .call (.delete author resource.defaultKey)]
    ∃ host reopened, Host.open? rootSettings {} ⟨1000, 10⟩ = .ok host ∧
      Errand.AllSaved errands host ∧
      Host.open? rootSettings (Errand.runAll errands host).medium.disk ⟨2000, 10⟩ = .ok reopened ∧
      reopened.medium.documents = (Errand.runAll errands host).medium.documents := by
  intro resource author errands
  -- the only value that is given to be written is the one of the command
  have hvalues : errands.flatMap Errand.values = [nestedLists 0] := by
    have htext : Value.ofText? (nestedLists 0).compact = some (nestedLists 0) :=
      ofText?_nestedLists (by decide)
    simp [errands, Errand.values, Command.value?, StoreCall.values, htext]
  have hsaved : Errand.AllSaved errands (rootHost ⟨1000, 10⟩) :=
    allSaved_of_savable errands savable_rootHost
  have hparsed : ∀ c, .call c ∈ errands → ∀ v ∈ c.values, ∃ text, Value.ofText? text = some v := by
    simp [errands, StoreCall.values]
  have hreals : ∀ v ∈ (rootHost ⟨1000, 10⟩).medium.documents.map Document.value ++
      errands.flatMap Errand.values, v.RealsReread := by
    rw [hvalues]
    exact List.forall_mem_singleton.2 (realsReread_nestedLists 0)
  -- values that do not nest stay so, as errands add only what they are given
  have hflat : ∀ d ∈ (Errand.runAll errands (rootHost ⟨1000, 10⟩)).medium.documents,
      d.value.nesting + 2 ≤ Tree.maxDepth := by
    have hgiven : ∀ e ∈ errands, ∀ v ∈ e.values, v.nesting + 2 ≤ Tree.maxDepth := by
      intro e he v hv
      have hv' : v ∈ errands.flatMap Errand.values := List.mem_flatMap.2 ⟨e, he, hv⟩
      rw [hvalues, List.mem_singleton] at hv'
      rw [hv']
      decide
    obtain ⟨s, failures, hmedium, hkept⟩ := kept_runAll (by decide) hgiven hsaved
      (Medium.kept_of_open? open?_rootPath (fun _ hd => absurd hd List.not_mem_nil)
        (List.nil_subset _))
    rw [hmedium]
    exact hkept.values
  have hbackend : rootSettings.backend = .filesystem "/" "configs.json" none := rfl
  obtain ⟨reopened, hreopen, hsame⟩ :=
    (reopens_iff hbackend (open?_root _) hsaved hparsed hreals ⟨2000, 10⟩).2 hflat
  exact ⟨_, reopened, open?_root _, hsaved, hreopen, hsame⟩

theorem not_reopens_nested :
    let resource : Resource := ⟨"alerting", "rules", "tenant-1"⟩
    let author : Author := ⟨"ada", "ada@example.com"⟩
    let put : Errand := .command author (.put resource "" (nestedLists 125).compact none)
    ∃ host, Host.open? rootSettings {} ⟨1000, 10⟩ = .ok host ∧ Errand.AllSaved [put] host ∧
      (∃ printed, (put.steps.run Host.serve host).1 = .ok printed) ∧
      ∃ e, Host.open? rootSettings (Errand.runAll [put] host).medium.disk ⟨2000, 10⟩ =
        .error e := by
  intro resource author put
  have hdeep : Tree.maxDepth < (nestedLists 125).nesting + 2 := by
    rw [nesting_nestedLists]
    decide
  refine ⟨rootHost _, open?_root _, allSaved_of_savable [put] savable_rootHost, ?_⟩
  exact not_reopens_deep rfl (open?_root _) rfl saves_root (ofText?_nestedLists (by decide))
    (realsReread_nestedLists 125) hdeep author resource "" [] ⟨2000, 10⟩

end Host

end ConfigLedger
