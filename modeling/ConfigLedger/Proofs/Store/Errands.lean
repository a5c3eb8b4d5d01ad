import ConfigLedger.Proofs.Backend.Snapshot
import ConfigLedger.Proofs.Store.Additions
import ConfigLedger.Proofs.Store.Writing

/-!
# Errands

An `Errand` is a command or an operation of the store. Errands that are carried out one after the
other keep the snapshot in step with its file, as long as every time the file is written that
succeeds (`Host.kept_runAll`). On a disk where the file can be saved that is no condition
(`Host.allSaved_of_savable`).

The first put into a file that can be saved is the one whose effect is stated in full
(`Host.run_put_empty`).
-/

namespace ConfigLedger

variable {V : Value → Prop} {old : List Document} {path : Path} {packed : Bool}

/-! ### Errands -/

/-- What is asked of a store: a command, or an operation of the store. -/
inductive Errand where
  | command (author : Author) (c : Command)
  | call (c : StoreCall)

namespace Errand

/-- What an errand is answered. -/
def Answer : Errand → Type
  | command .. => Except CommandError Value
  | call c => Except StoreError c.Answer

/-- The steps of an errand. -/
def steps : (e : Errand) → Procedure e.Answer
  | command author c => ExceptT.run (Command.execute author c)
  | call c => c.call.steps

/-- The values that an errand is given to write. -/
def values : Errand → List Value
  | command _ c => c.value?.toList
  | call c => c.values

/-- **An errand** adds the values it is given and tombstones. -/
theorem adds_steps (e : Errand) (hnull : V .null) (h : ∀ v ∈ e.values, V v) :
    e.steps.Adds V fun _ => True := by
  cases e with
  | command author c =>
    exact c.addsOnly_execute author hnull fun v hv => h v (by simp [values, hv])
  | call c => exact c.addsOnly hnull h

/-- The host after errands, carried out one after the other. -/
def runAll : List Errand → Host → Host
  | [], host => host
  | e :: rest, host => runAll rest (e.steps.run Host.serve host).2

end Errand

/-- The answer does not say that the file could not be written. -/
def Request.Saved : (r : Request) → r.Answer → Prop
  | insert _, answer => ∀ result, answer = some result → Snapshot.Saved result
  | insertIf _ _, answer => ∀ result, answer = some result → Snapshot.Saved result
  | insertAll _, answer => ∀ result, answer = some result → Snapshot.Saved result
  | _, _ => True

/-- Every time the file was written, that succeeded. -/
def Errand.AllSaved : List Errand → Host → Prop
  | [], _ => True
  | e :: rest, host =>
    e.steps.Along Host.serve Request.Saved host ∧
      AllSaved rest (e.steps.run Host.serve host).2

/-! ### One request -/

namespace Medium

/-- The medium is a snapshot that is kept at the end of a path. -/
def Kept (V : Value → Prop) (old : List Document) (path : Path) (packed : Bool)
    (m : Medium) : Prop :=
  ∃ s failures, m = file s failures ∧ s.Kept V old path packed

/-- The medium is a snapshot whose file can be saved, and no failure is due. -/
def Savable (m : Medium) : Prop :=
  ∃ s, m = file s [] ∧ s.Savable

/-- **A snapshot that was opened** is kept. -/
theorem kept_of_open? {disk : Disk} {s : Snapshot}
    (hopen : Snapshot.open? disk path packed = .ok s)
    (hvalues : ∀ d ∈ s.collection.documents, V d.value)
    (hold : old ⊆ s.collection.documents) : (file s []).Kept V old path packed := by
  obtain ⟨⟨-, hpath, hpacked⟩, -⟩ := Snapshot.of_open? hopen
  exact ⟨s, [], rfl, hpath, hpacked, .inr (Snapshot.fresh_of_open? hopen), hvalues, hold⟩

/-- The disk that a medium uses. -/
def disk : Medium → Disk
  | memory _ _ => {}
  | file s _ => s.disk

end Medium

namespace Host

/-- **One request** keeps the file in step, if that could be written. -/
theorem kept_serve {r : Request} {host : Host} (hvalues : ∀ d ∈ r.additions, V d.value)
    (hsaved : r.Saved (host.serve r).1) (h : host.medium.Kept V old path packed) :
    (host.serve r).2.medium.Kept V old path packed := by
  obtain ⟨s, failures, hmedium, hkept⟩ := h
  -- the three additions save the snapshot, and nothing else touches the file
  cases r with
  | insert d =>
    simp only [serve, hmedium, Medium.insert] at hsaved ⊢
    exact ⟨_, _, rfl, hkept.insert (hvalues d List.mem_cons_self) (hsaved _ rfl)⟩
  | insertIf d condition =>
    simp only [serve, hmedium, Medium.insertIf] at hsaved ⊢
    exact ⟨_, _, rfl, hkept.insertIf (hvalues d List.mem_cons_self) (hsaved _ rfl)⟩
  | insertAll documents =>
    simp only [serve, hmedium, Medium.insertAll] at hsaved ⊢
    exact ⟨_, _, rfl, hkept.insertAll hvalues (hsaved _ rfl)⟩
  | lockKey key =>
    -- monitors have no part in what is stored
    have hsame : (host.serve (.lockKey key)).2.medium = host.medium := by
      rw [serve]
      split <;> rfl
    exact ⟨s, failures, hsame.trans hmedium, hkept⟩
  | lockTenant tenant =>
    have hsame : (host.serve (.lockTenant tenant)).2.medium = host.medium := by
      rw [serve]
      split <;> rfl
    exact ⟨s, failures, hsame.trans hmedium, hkept⟩
  | _ => exact ⟨s, failures, hmedium, hkept⟩

/-- **All errands** keep the file in step. -/
theorem kept_runAll {errands : List Errand} {host : Host} (hnull : V .null)
    (hvalues : ∀ e ∈ errands, ∀ v ∈ e.values, V v) (hsaved : Errand.AllSaved errands host)
    (h : host.medium.Kept V old path packed) :
    (Errand.runAll errands host).medium.Kept V old path packed := by
  induction errands generalizing host with
  | nil => exact h
  | cons e rest ih =>
    -- the first errand keeps the file in step request by request
    obtain ⟨hfirst, hrest⟩ := List.forall_mem_cons.1 hvalues
    refine ih hrest hsaved.2 ?_
    exact (e.adds_steps hnull hfirst).run (fun host => host.medium.Kept V old path packed)
      (fun _ _ hadditions hanswer hkept => kept_serve hadditions hanswer hkept) hsaved.1 h

/-! ### Saves that cannot fail -/

/-- One request of a store on a disk where the file can be saved. -/
theorem saved_serve (r : Request) {host : Host} (h : host.medium.Savable) :
    r.Saved (host.serve r).1 ∧ (host.serve r).2.medium.Savable := by
  obtain ⟨s, hmedium, hs⟩ := h
  -- the save succeeds, and afterwards the next one would too
  cases r with
  | insert d =>
    obtain ⟨hsaved, hnext⟩ := hs.insert d
    simp only [serve, hmedium, Medium.insert]
    exact ⟨by rintro _ ⟨⟩; exact hsaved, _, rfl, hnext⟩
  | insertIf d condition =>
    obtain ⟨hsaved, hnext⟩ := hs.insertIf d condition
    simp only [serve, hmedium, Medium.insertIf]
    exact ⟨by rintro _ ⟨⟩; exact hsaved, _, rfl, hnext⟩
  | insertAll documents =>
    obtain ⟨hsaved, hnext⟩ := hs.insertAll documents
    simp only [serve, hmedium, Medium.insertAll]
    exact ⟨by rintro _ ⟨⟩; exact hsaved, _, rfl, hnext⟩
  | lockKey key =>
    refine ⟨trivial, s, ?_, hs⟩
    rw [serve]
    split <;> exact hmedium
  | lockTenant tenant =>
    refine ⟨trivial, s, ?_, hs⟩
    rw [serve]
    split <;> exact hmedium
  | _ => exact ⟨trivial, s, hmedium, hs⟩

/-- **Where the file can be saved**, it is saved every time. -/
theorem allSaved_of_savable (errands : List Errand) {host : Host} (h : host.medium.Savable) :
    Errand.AllSaved errands host := by
  induction errands generalizing host with
  | nil => trivial
  | cons e rest ih =>
    have hrun := Procedure.along_of_inv (p := e.steps) (fun host : Host => host.medium.Savable)
      (fun r _ h => saved_serve r h) h
    exact ⟨hrun.1, ih hrun.2⟩

end Host

/-! ### The first put -/

namespace Store

section

variable {s : Setting} {f : Snapshot}

/-- **The first write** to a snapshot file that can be saved. -/
theorem run_write_empty (hmedium : s.medium = .file f []) (hempty : f.collection = .empty)
    (hf : f.Savable) (hfree : s.monitors.held = []) (author : Author) (key : Key) {value : Value}
    (hvalue : value.isNull = false) :
    ∃ d written next, d.value = value ∧ next.medium.documents = [d] ∧
      (write author key value none).run s = (.ok written, next) := by
  -- the medium holds no documents yet
  have hkeeps : s.medium.Keeps .empty := by
    rw [hmedium, ← hempty]
    exact .file hf
  -- nothing is there, so the first version is free
  let p := Pending.ofWrite author key value (Collection.empty.latest key) (s.readings 0)
  have hinsert : Collection.empty.insert? p.document = some (Collection.empty.put p.document) :=
    rfl
  obtain ⟨written, next, hrun, hnext, -⟩ :=
    run_write_free hkeeps (by simp [hfree]) author hvalue hinsert
  exact ⟨p.document, written, next, rfl, hnext.documents_eq, hrun⟩

end

end Store

/-- A put without a precondition is a write of the value of its text. -/
theorem Command.execute_put {author : Author} {resource : Resource} {context text : String}
    {value : Value} (htext : Value.ofText? text = some value) :
    ExceptT.run (execute author (.put resource context text none)) =
      (Store.write author (resource.key context) value none).steps.bind fun outcome =>
        .done ((outcome.mapError CommandError.store).map Written.layout) := by
  rw [execute, htext]
  change (Procedure.bind (Store.write author (resource.key context) value none).steps _).bind _ = _
  rw [Procedure.bind_bind]
  congr 1
  funext outcome
  cases outcome <;> rfl

namespace Host

/-- **The first put** into a snapshot file that can be saved. -/
theorem run_put_empty {host : Host} (hsavable : host.medium.Savable)
    (hempty : host.medium.documents = []) (hfree : host.monitors.held = []) (author : Author)
    (resource : Resource) (context : String) {text : String} {value : Value}
    (htext : Value.ofText? text = some value) (hvalue : value.isNull = false) :
    let put := (Errand.command author (.put resource context text none)).steps.run Host.serve host
    ∃ d printed, d.value = value ∧ put.2.medium.documents = [d] ∧ put.1 = .ok printed := by
  intro put
  obtain ⟨f, hmedium, hf⟩ := hsavable
  have hempty : f.collection = .empty := by
    rw [hmedium] at hempty
    exact Collection.eq_empty hempty
  -- the write is the one in the snapshot that was just opened
  obtain ⟨d, written, next, hd, hdocuments, hwrite⟩ :=
    Store.run_write_empty (s := host.setting) hmedium hempty hf hfree author
      (resource.key context) hvalue
  -- a put is a write whose outcome is printed
  have hrun : (Errand.command author (.put resource context text none)).steps.run Setting.serve
      host.setting = (.ok written.layout, next) := by
    rw [Errand.steps, Command.execute_put htext]
    refine (Procedure.run_bind _ _ _ _).trans ?_
    change Procedure.run _ (.done (((Call.run _ host.setting).1.mapError _).map _))
      (Call.run (Store.write author (resource.key context) value none) host.setting).2 = _
    rw [hwrite]
    rfl
  obtain ⟨hanswer, hsetting⟩ :=
    host.run_setting (Errand.command author (.put resource context text none)).steps
  rw [hrun] at hanswer hsetting
  -- the host does what its setting does
  have hstored : put.2.setting.medium.documents = [d] := by
    rw [hsetting]
    exact hdocuments
  exact ⟨d, written.layout, hd, hstored, hanswer⟩

end Host

end ConfigLedger
