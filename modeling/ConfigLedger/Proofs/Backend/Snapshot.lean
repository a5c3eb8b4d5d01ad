import ConfigLedger.Backend.Snapshot
import ConfigLedger.Proofs.Backend.Collection
import ConfigLedger.Proofs.Backend.Disk
import ConfigLedger.Proofs.Document.Form

/-!
# Opening what was written

A snapshot is in step with its file if the file holds the text of its documents, or if it was
opened and nothing was written since. Every addition whose file is saved keeps it in step
(`Snapshot.Kept.insert` and its two siblings), and on a disk where the file can be saved at all
every addition saves it (`Snapshot.Savable.insert` and its two siblings).

Whether the file can be opened again is another matter. A document is written inside a list and
as a struct of its own, so its value stands two containers deeper in the file than where it was
read before it was written. The snapshot is found again if no value nests more than
`Document.valueDepth` containers, which is two less than a text may nest; one value beyond that,
and the whole file is refused (`Snapshot.Kept.open?_eq`).
-/

namespace ConfigLedger

namespace Document

/-- How many containers a value may nest inside a list of documents. -/
def valueDepth : Nat :=
  Tree.maxDepth - 2

/-- The document that a document is read as after it was written in a list. -/
def reread? (d : Document) : Option Document :=
  (d.value.tree.value? valueDepth).map fun v => { d with value := v }

end Document

namespace Collection

variable {c : Collection} {d : Document}

/-- A document that belongs behind all others is put there. -/
theorem putDocument_eq_append {l : List Document} (h : ∀ e ∈ l, e.Before d) :
    putDocument d l = l ++ [d] := by
  induction l with
  | nil => rfl
  | cons e rest ih =>
    obtain ⟨he, hrest⟩ := List.forall_mem_cons.1 h
    have hsame : ¬ d.sameVersion e = true := by
      intro hsame
      exact d.not_before_self (he.of_sameVersion_left hsame)
    have hbefore : ¬ d.Before e := fun hbefore => d.not_before_self (hbefore.trans he)
    rw [putDocument, if_neg hsame, if_neg hbefore, ih hrest, List.cons_append]

/-- **Documents in order** are collected as they are. -/
theorem documents_ofList {documents : List Document} (h : documents.Pairwise Document.Before) :
    (ofList documents).documents = documents := by
  -- what was collected before stands in front, so this is said of any collection
  have hgeneral (c : Collection) (h : (c.documents ++ documents).Pairwise Document.Before) :
      (documents.foldl put c).documents = c.documents ++ documents := by
    clear * - h
    induction documents generalizing c with
    | nil => simp
    | cons d rest ih =>
      -- the next document stands behind all that were collected
      have hlast : ∀ e ∈ c.documents, e.Before d := fun e he =>
        (List.pairwise_append.1 h).2.2 e he d List.mem_cons_self
      have hput : (c.put d).documents = c.documents ++ [d] := putDocument_eq_append hlast
      rw [List.foldl_cons, ih, hput, List.append_assoc]
      · rfl
      · rw [hput, List.append_assoc]
        exact h
  exact hgeneral empty h

theorem ofList_documents (c : Collection) : ofList c.documents = c := by
  refine eq_of_mem_iff fun d => ?_
  rw [documents_ofList c.ordered]

/-- What is collected was given. -/
theorem mem_of_mem_ofList {documents : List Document} (h : d ∈ (ofList documents).documents) :
    d ∈ documents := by
  -- by induction over what is given, so again this is said of any collection
  have hgeneral (c : Collection) (h : d ∈ (documents.foldl put c).documents) :
      d ∈ c.documents ∨ d ∈ documents := by
    clear * - h
    induction documents generalizing c with
    | nil => exact .inl h
    | cons e rest ih =>
      rcases ih (c.put e) h with h | h
      · rcases mem_of_mem_putDocument h with rfl | h
        · exact .inr List.mem_cons_self
        · exact .inl h
      · exact .inr (List.mem_cons_of_mem _ h)
  exact (hgeneral empty h).resolve_left List.not_mem_nil

end Collection

namespace Snapshot

variable {s : Snapshot} {V : Value → Prop} {old : List Document} {path : Path} {packed : Bool}

/-! ### What a file holds -/

/-- **Documents that were written** are read one by one. -/
theorem documentsOf?_textOf (documents : List Document) :
    documentsOf? (textOf documents) = documents.mapM Document.reread? := by
  rw [documentsOf?, textOf, Tree.ofText?_compact, Option.bind_some, Value.tree, Tree.elements?,
    if_neg (by decide), Value.itemTrees_eq_map, List.map_map, List.mapM_map]
  congr 1
  funext d
  exact d.ofTree?_layout Document.valueDepth

/-- The file holds the text of the documents. -/
def Written (s : Snapshot) : Prop :=
  s.disk.find s.path = .ok (.file ⟨s.packed, textOf s.collection.documents⟩)

/-- The snapshot is as it was opened. -/
def Fresh (s : Snapshot) : Prop :=
  open? s.disk s.path s.packed = .ok s

/-- What is read of the file of a snapshot that was written. -/
theorem Written.open? (h : s.Written) :
    Snapshot.open? s.disk s.path s.packed =
      match s.collection.documents.mapM Document.reread? with
      | some documents => .ok { s with collection := .ofList documents }
      | none => .error (.decode "the text is no list of documents") := by
  rw [Snapshot.open?, h]
  simp only [decode, documentsOf?_textOf, ne_eq, not_true_eq_false, if_false]
  cases s.collection.documents.mapM Document.reread? <;> rfl

theorem fits_of_documentsOf? {text : String} {documents : List Document}
    (h : documentsOf? text = some documents) {d : Document} (hd : d ∈ documents) :
    d.value.Fits Document.valueDepth := by
  obtain ⟨t, -, helements⟩ := Option.bind_eq_some_iff.1 h
  cases t with
  | list items =>
    rw [Tree.elements?, if_neg (by decide)] at helements
    obtain ⟨item, -, hread⟩ := exists_of_mem_mapM helements hd
    exact Document.fits_of_ofTree? hread
  | _ => cases helements

/-- What is opened remembers where it was opened, and its values fit into the depth that a list of
documents leaves. -/
theorem of_open? {disk : Disk} (h : open? disk path packed = .ok s) :
    (s.disk = disk ∧ s.path = path ∧ s.packed = packed) ∧
      ∀ d ∈ s.collection.documents, d.value.Fits Document.valueDepth := by
  rw [Snapshot.open?] at h
  split at h
  -- no file, so nothing to be read
  · obtain rfl := Except.ok.inj h
    exact ⟨⟨rfl, rfl, rfl⟩, fun d hd => absurd hd List.not_mem_nil⟩
  · cases h
  · cases h
  -- a file, each document of which was read from a tree
  · rename_i content _
    obtain ⟨documents, hdecode, heq⟩ := Disk.bind_eq_ok_iff.1 h
    obtain rfl := Except.ok.inj heq
    refine ⟨⟨rfl, rfl, rfl⟩, fun d hd => ?_⟩
    have hd' : d ∈ documents := Collection.mem_of_mem_ofList hd
    rw [decode] at hdecode
    split at hdecode
    · cases hdecode
    split at hdecode
    · rename_i documents' hread
      obtain rfl := Except.ok.inj hdecode
      exact fits_of_documentsOf? hread hd'
    · cases hdecode

/-- What is opened is as it was opened. -/
theorem fresh_of_open? {disk : Disk} (h : open? disk path packed = .ok s) : s.Fresh := by
  obtain ⟨⟨rfl, rfl, rfl⟩, -⟩ := of_open? h
  exact h

/-! ### Additions -/

/-- The result does not say that the file could not be written. -/
def Saved {α : Type} : Except BackendError α → Prop
  | .error (.io _) => False
  | _ => True

theorem saved_map {α β : Type} {f : α → β} {result : Except BackendError α} :
    Saved (result.map f) ↔ Saved result := by
  rcases result with (_ | _ | _ | _ | _) | _ <;> exact Iff.rfl

/-- The snapshot is in step with its file, its values have a property, and some old documents are
among its own. -/
structure Kept (V : Value → Prop) (old : List Document) (path : Path) (packed : Bool)
    (s : Snapshot) : Prop where
  path_eq : s.path = path
  packed_eq : s.packed = packed
  inStep : s.Written ∨ s.Fresh
  values : ∀ d ∈ s.collection.documents, V d.value
  subset : old ⊆ s.collection.documents

/-- **A save** brings the snapshot in step with its file again. -/
theorem Kept.persist (h : s.Kept V old path packed) {c : Collection}
    (hvalues : ∀ d ∈ c.documents, V d.value)
    (hsub : s.collection.documents ⊆ c.documents) {added : List Document} {failure : Option Failure}
    (hsaved : Saved ({ s with collection := c }.persist added failure).1) :
    ({ s with collection := c }.persist added failure).2.Kept V old path packed := by
  obtain ⟨rfl, rfl, -, -, hold⟩ := h
  -- the result tells of a save that failed, so this one did not
  have hsave : (s.disk.save s.path ⟨s.packed, textOf c.documents⟩ failure).1 = none := by
    by_contra hne
    obtain ⟨reason, hreason⟩ := Option.ne_none_iff_exists'.1 hne
    rw [Snapshot.persist] at hsaved
    split at hsaved
    · simp_all
    · exact hsaved
  obtain ⟨rfl, hsaves⟩ := Disk.of_save_eq_none hsave
  -- what was saved is what the file holds now
  obtain ⟨disk, heq, -, hfind⟩ := hsaves.save ⟨s.packed, textOf c.documents⟩
  rw [Snapshot.persist, heq]
  exact ⟨rfl, rfl, .inl hfind, hvalues, List.Subset.trans hold hsub⟩

/-- The values of a collection that one document was added to. -/
theorem Kept.values_of_insert? (h : s.Kept V old path packed) {d : Document} (hd : V d.value)
    {c : Collection} (hinsert : s.collection.insert? d = some c) :
    ∀ e ∈ c.documents, V e.value := by
  intro e he
  rcases (Collection.mem_of_insert?_eq_some hinsert).1 he with rfl | he
  · exact hd
  · exact h.values e he

theorem Kept.insert (h : s.Kept V old path packed) {d : Document} (hd : V d.value)
    {failure : Option Failure} (hsaved : Saved (s.insert d failure).1) :
    (s.insert d failure).2.Kept V old path packed := by
  rw [Snapshot.insert] at hsaved ⊢
  split
  · exact h
  · rename_i c hinsert
    rw [hinsert] at hsaved
    exact h.persist (h.values_of_insert? hd hinsert) (Collection.subset_insert? hinsert) hsaved

theorem Kept.insertIf (h : s.Kept V old path packed) {d : Document} (hd : V d.value)
    {condition : Predicate} {failure : Option Failure}
    (hsaved : Saved (s.insertIf d condition failure).1) :
    (s.insertIf d condition failure).2.Kept V old path packed := by
  rw [Snapshot.insertIf] at hsaved ⊢
  split
  · exact h
  · rename_i c hinsert
    rw [hinsert] at hsaved
    have hinsert := (Collection.insertIf?_eq_some condition hinsert).2
    exact h.persist (h.values_of_insert? hd hinsert) (Collection.subset_insert? hinsert)
      (saved_map.1 hsaved)

theorem Kept.insertAll (h : s.Kept V old path packed) {documents : List Document}
    (hdocuments : ∀ d ∈ documents, V d.value) {failure : Option Failure}
    (hsaved : Saved (s.insertAll documents failure).1) :
    (s.insertAll documents failure).2.Kept V old path packed := by
  -- what is in the collection afterwards was there or was given
  have hvalues : ∀ e ∈ (s.collection.insertAll documents).2.documents, V e.value := by
    intro e he
    rcases s.collection.mem_of_mem_insertAll he with he | he
    · exact h.values e he
    · exact hdocuments e he
  -- nothing is saved if nothing was added
  rw [Snapshot.insertAll] at hsaved ⊢
  dsimp only at hsaved ⊢
  split
  · rename_i hany
    rw [if_pos hany] at hsaved
    exact h.persist hvalues (s.collection.subset_insertAll documents) (saved_map.1 hsaved)
  · exact h

/-! ### Disks on which every save succeeds -/

/-- The file can be saved. -/
def Savable (s : Snapshot) : Prop :=
  s.disk.Saves s.path

theorem Savable.persist (h : s.Savable) (c : Collection) (added : List Document) :
    ∃ disk, { s with collection := c }.persist added none =
        (.ok (), { s with collection := c, disk }) ∧
      Savable { s with collection := c, disk } := by
  obtain ⟨disk, heq, hagree, -⟩ := h.save ⟨s.packed, textOf c.documents⟩
  refine ⟨disk, ?_, h.agree hagree⟩
  rw [Snapshot.persist, heq]

theorem Savable.insert (h : s.Savable) (d : Document) :
    Saved (s.insert d none).1 ∧ (s.insert d none).2.Savable := by
  rw [Snapshot.insert]
  split
  · exact ⟨trivial, h⟩
  · rename_i c _
    obtain ⟨disk, heq, hnext⟩ := h.persist c [d]
    rw [heq]
    exact ⟨trivial, hnext⟩

theorem Savable.insertIf (h : s.Savable) (d : Document) (condition : Predicate) :
    Saved (s.insertIf d condition none).1 ∧ (s.insertIf d condition none).2.Savable := by
  rw [Snapshot.insertIf]
  split
  · exact ⟨trivial, h⟩
  · rename_i c _
    obtain ⟨disk, heq, hnext⟩ := h.persist c [d]
    rw [heq]
    exact ⟨trivial, hnext⟩

theorem Savable.insertAll (h : s.Savable) (documents : List Document) :
    Saved (s.insertAll documents none).1 ∧ (s.insertAll documents none).2.Savable := by
  rw [Snapshot.insertAll]
  dsimp only
  split
  · obtain ⟨disk, heq, hnext⟩ := h.persist (s.collection.insertAll documents).2
      (additions documents (s.collection.insertAll documents).1)
    rw [heq]
    exact ⟨trivial, hnext⟩
  · exact ⟨trivial, h⟩

/-! ### Opening again -/

/-- **Opening finds the snapshot again** if no value nests too deeply, and fails otherwise. -/
theorem Kept.open?_eq (h : s.Kept Value.Faithful old path packed) :
    open? s.disk path packed =
      if ∀ d ∈ s.collection.documents, d.value.nesting ≤ Document.valueDepth then .ok s
      else .error (.decode "the text is no list of documents") := by
  obtain ⟨rfl, rfl, hwritten | hfresh, hvalues, -⟩ := h
  · -- the values are read one by one
    have hreread : ∀ d ∈ s.collection.documents, d.reread? =
        if d.value.nesting ≤ Document.valueDepth then some d else none := by
      intro d hd
      rw [Document.reread?, (hvalues d hd).value?_tree]
      split <;> rfl
    rw [hwritten.open?, mapM_eq_ite hreread]
    by_cases hfits : ∀ d ∈ s.collection.documents, d.value.nesting ≤ Document.valueDepth
    · rw [if_pos hfits, if_pos hfits]
      dsimp only
      rw [s.collection.ofList_documents]
    · rw [if_neg hfits, if_neg hfits]
  -- what was opened before fits, and nothing was saved since
  · rw [if_pos fun d hd => ((of_open? hfresh).2 d hd).nesting_le]
    exact hfresh

/-- **One value that nests too deeply** keeps the snapshot from being opened. -/
theorem Kept.not_open? (h : s.Kept V old path packed) {d : Document} (hd : d ∈ old)
    (hfaithful : d.value.Faithful) (hdeep : Document.valueDepth < d.value.nesting) :
    ∃ e, open? s.disk path packed = .error e := by
  obtain ⟨rfl, rfl, hwritten | hfresh, -, hsub⟩ := h
  -- its value is refused where the file was written
  · have hnone : s.collection.documents.mapM Document.reread? = none := by
      refine mapM_eq_none (hsub hd) ?_
      rw [Document.reread?, hfaithful.value?_tree, if_neg (Nat.not_le.2 hdeep)]
      rfl
    rw [hwritten.open?, hnone]
    exact ⟨_, rfl⟩
  -- and it cannot have come from a file that was opened
  · have hfits := ((of_open? hfresh).2 d (hsub hd)).nesting_le
    exact absurd hfits (Nat.not_le.2 hdeep)

end Snapshot

end ConfigLedger
