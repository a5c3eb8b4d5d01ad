import ConfigLedger.Proofs.Store.Endings

/-!
# What answers account for

A client never sees the documents, only the answers to its calls. Do the answers account for
everything that was stored?

They do, for one call at a time, whatever the versions are as long as there is a next one, and
whichever saves of the file fail (`StoreCall.accounts_run`). The documents that were there stay, and
those that come to them are the ones that are reported: one for each record that was written, and
one tombstone, a version above it, for each record that was deleted. An element of a bulk operation
that is answered an error has added nothing, and so has a call that is answered an error as a whole:
a batch whose file could not be written is taken back with all its elements.
-/

namespace ConfigLedger

variable {α : Type} {c c' c'' : Collection} {s : Setting} {key : Key}

/-! ### Growth -/

namespace Collection

/-- Some documents came to a collection, and it is the same apart from them. -/
def Gains (c c' : Collection) (added : List Document) : Prop :=
  c'.documents.Perm (c.documents ++ added)

theorem gains_nil (c : Collection) : c.Gains c [] := by
  rw [Gains, List.append_nil]

theorem Gains.trans {added more : List Document} (h : c.Gains c' added) (h' : c'.Gains c'' more) :
    c.Gains c'' (added ++ more) := by
  unfold Gains at *
  calc
    c''.documents.Perm (c'.documents ++ more) := h'
    _ |>.Perm ((c.documents ++ added) ++ more) := h.append_right more
    _ = c.documents ++ (added ++ more) := List.append_assoc _ _ _

theorem gains_nil_iff : c.Gains c' [] ↔ c' = c := by
  rw [Gains, List.append_nil]
  constructor
  · exact fun h => eq_of_mem_iff fun d => h.mem_iff
  · rintro rfl
    exact List.Perm.refl _

/-- A document that is added is the only one that comes. -/
theorem gains_insert? {d : Document} (h : c.insert? d = some c') : c.Gains c' [d] := by
  have hnew : d ∉ c.documents := fun hd => not_mem_of_insert?_eq_some h hd rfl rfl
  have hnodup : (c.documents ++ [d]).Nodup :=
    List.nodup_append.2 ⟨c.nodup_documents, List.nodup_singleton d, by
      rintro e he f hf rfl
      exact hnew (List.mem_singleton.1 hf ▸ he)⟩
  refine (List.perm_ext_iff_of_nodup c'.nodup_documents hnodup).2 fun e => ?_
  rw [mem_of_insert?_eq_some h, List.mem_append, List.mem_singleton, or_comm]

end Collection

/-! ### Reports -/

/-- An answer to a write reports the document of its record. -/
def Written.Reports (key : Key) (w : Written) (added : List Document) : Prop :=
  w.record.key = key ∧ added = [w.record.document]

/-- An answer to a deletion reports a tombstone one version above the record that was deleted, and
nothing if there was none. -/
def Record.ReportsDeleted (key : Key) : Option Record → List Document → Prop
  | none, added => added = []
  | some r, added => r.key = key ∧ ∃ d, added = [d] ∧ d.key = key ∧ d.isTombstone = true ∧
      d.version.toNat = r.version.toNat + 1

/-- An error reports nothing. -/
def outcomeReports (reports : α → List Document → Prop) : Except StoreError α → List Document → Prop
  | .ok a, added => reports a added
  | .error _, added => added = []

/-- The answers to the elements of a bulk operation report what was added, each its own part. -/
def Answers.Reports (reports : Key → α → List Document → Prop) :
    Answers α → List Document → Prop
  | [], added => added = []
  | (key, outcome) :: rest, added => ∃ first more, added = first ++ more ∧
      outcomeReports (reports key) outcome first ∧ Answers.Reports reports rest more

/-- **What an answer reports to have been added.** Every element of a bulk operation is answered,
and what only reads adds nothing. -/
def StoreCall.Reports : (call : StoreCall) → call.Answer → List Document → Prop
  | .write _ key _ _, w, added => Written.Reports key w added
  | .delete _ key, deleted, added => Record.ReportsDeleted key deleted added
  | .bulkWrite _ values, answers, added =>
    answers.map Prod.fst = values.keys ∧ Answers.Reports Written.Reports answers added
  | .bulkDelete _ keys, answers, added =>
    answers.map Prod.fst = keys ∧ Answers.Reports Record.ReportsDeleted answers added
  | .read _, _, added | .readMany _, _, added | .query _ _, _, added | .count _ _, _, added =>
    added = []

/-! ### Single elements -/

/-- The version that a write makes is what its answer reports. -/
theorem Written.reports_ofWrite {author : Author} {value : Value} {newest : Option Document}
    {now : UInt64} {w : Written}
    (hw : w.record.document = (Pending.ofWrite author key value newest now).document) :
    w.Reports key [(Pending.ofWrite author key value newest now).document] := by
  have hkey : w.record.key = key := congrArg Document.key hw
  exact ⟨hkey, by rw [hw]⟩

/-- The tombstone that a deletion makes is what its answer reports, if there is a next version. -/
theorem Record.reportsDeleted_ofDelete {r : Record} (hr : c.shown key = some r)
    (hbound : ∀ d ∈ c.documents, d.version.toNat + 1 < 2 ^ 64) (author : Author) (now : UInt64) :
    Record.ReportsDeleted key (some r) [(Pending.ofDelete author key r now).document] := by
  have hstored : r.document ∈ c.documents :=
    (Collection.mem_documents_of_latest (Collection.shown_eq_some_iff.1 hr).1).1
  have hversion : (r.version + 1).toNat = r.version.toNat + 1 := by
    rw [UInt64.toNat_add, UInt64.toNat_one]
    exact Nat.mod_eq_of_lt (hbound r.document hstored)
  exact ⟨Collection.key_of_shown hr, _, rfl, rfl, rfl, hversion⟩

/-! ### Bulk operations -/

section

variable {finish : Pending → Except StoreError α} {reports : Key → α → List Document → Prop}

/-- Whether the answer to an element, as soon as this is stored, reports what is stored. -/
def Prepared.Reportable (finish : Pending → Except StoreError α)
    (reports : Key → α → List Document → Prop) (key : Key) : Prepared α → Prop
  | .answered answer => outcomeReports (reports key) answer []
  | .pending p => ∃ a, finish p = .ok a ∧ reports key a [p.document]

/-- An element that is committed adds what its answer reports. -/
theorem Prepared.reports_commit {element : Prepared α} (h : element.Reportable finish reports key)
    (c : Collection) : ∃ added, c.Gains (element.commit finish c).2 added ∧
      outcomeReports (reports key) (element.commit finish c).1 added := by
  cases element with
  | answered answer => exact ⟨[], c.gains_nil, h⟩
  | pending p =>
    obtain ⟨a, hfinish, hreports⟩ := h
    rw [Prepared.commit, Memory.insert]
    cases hinsert : c.insert? p.document with
    | none =>
      -- a version that is taken is answered as a conflict
      exact ⟨[], c.gains_nil, rfl⟩
    | some c' =>
      -- it is stored, and the answer that is finished reports it
      refine ⟨[p.document], Collection.gains_insert? hinsert, ?_⟩
      show outcomeReports (reports key) (finish p) [p.document]
      rw [hfinish]
      exact hreports

/-- **A batch that is committed** adds what its answers report to have been added. -/
theorem Store.reports_commitEach {prepared : List (Key × Prepared α)}
    (h : ∀ e ∈ prepared, e.2.Reportable finish reports e.1) (c : Collection) :
    ∃ added, c.Gains (commitEach finish c prepared).2 added ∧
      Answers.Reports reports (commitEach finish c prepared).1 added := by
  -- the rest is committed to what the first element leaves, so the induction is for every `c`
  induction prepared generalizing c with
  | nil => exact ⟨[], c.gains_nil, rfl⟩
  | cons e rest ih =>
    obtain ⟨key, element⟩ := e
    obtain ⟨hfirst, hrest⟩ := List.forall_mem_cons.1 h
    obtain ⟨first, hgains, hreports⟩ := Prepared.reports_commit hfirst c
    obtain ⟨more, hmore, hanswers⟩ := ih hrest (element.commit finish c).2
    exact ⟨first ++ more, hgains.trans hmore, first, more, rfl, hreports, hanswers⟩

end

/-! ### Keys of answers -/

/-- A batch is answered element by element. -/
theorem Store.map_fst_commitEach (finish : Pending → Except StoreError α)
    (prepared : List (Key × Prepared α)) (c : Collection) :
    (commitEach finish c prepared).1.map Prod.fst = prepared.map Prod.fst := by
  induction prepared generalizing c with
  | nil => rfl
  | cons e rest ih =>
    obtain ⟨key, element⟩ := e
    show key :: (commitEach finish (element.commit finish c).2 rest).1.map Prod.fst = _
    rw [ih, List.map_cons]

theorem Draft.map_fst_fill (drafts : List (Key × Draft α)) (readings : Nat → UInt64) :
    (fill drafts readings).map Prod.fst = drafts.map Prod.fst := by
  induction drafts generalizing readings with
  | nil => rfl
  | cons draft rest ih =>
    obtain ⟨key, answer | pending⟩ := draft
    · rw [fill, List.map_cons, ih, List.map_cons]
    · rw [fill, List.map_cons, ih, List.map_cons]

theorem Store.map_fst_draftWrites (author : Author) (values : Entries Key Value) :
    (draftWrites author c values.toList).map Prod.fst = values.keys := by
  rw [draftWrites, List.map_map]
  rfl

theorem Store.map_fst_draftDeletes (author : Author) (seen keys : List Key) :
    (draftDeletes author c seen keys).map Prod.fst = keys := by
  induction keys generalizing seen with
  | nil => rfl
  | cons key rest ih => rw [draftDeletes, List.map_cons, ih]

/-! ### Calls -/

/-- A collection gained what an outcome reports. -/
def Accounts (reports : α → List Document → Prop) (c : Collection) (outcome : Except StoreError α)
    (c' : Collection) : Prop :=
  ∃ added, c.Gains c' added ∧ outcomeReports reports outcome added

theorem mayFail_accounts {reports : α → List Document → Prop} :
    MayFail (Accounts reports c) c :=
  fun _ _ => ⟨[], c.gains_nil, rfl⟩

namespace Store

theorem accounts_write (author : Author) (key : Key) (value : Value) (filter : Option Filter) :
    (write author key value filter).Ends c (Accounts (Written.Reports key) c) := by
  apply ends_write _ mayFail_accounts
  intro now w c' _ p hinsert hw _
  exact ⟨_, Collection.gains_insert? hinsert, Written.reports_ofWrite hw⟩

theorem accounts_delete (hbound : ∀ d ∈ c.documents, d.version.toNat + 1 < 2 ^ 64)
    (author : Author) (key : Key) :
    (delete author key).Ends c (Accounts (Record.ReportsDeleted key) c) := by
  apply ends_delete
  · intro _
    exact ⟨[], c.gains_nil, rfl⟩
  · intro r now c' hr hinsert
    have hreports := Record.reportsDeleted_ofDelete hr hbound author now
    exact ⟨_, Collection.gains_insert? hinsert, hreports⟩
  · exact mayFail_accounts

theorem accounts_bulkWrite (author : Author) (values : Entries Key Value) :
    (bulkWrite author values).Ends c
      (Accounts (StoreCall.bulkWrite author values).Reports c) := by
  -- every element that is prepared will report the document that it adds
  have hreportable (readings : Nat → UInt64) :
      ∀ e ∈ Draft.fill (draftWrites author c values.toList) readings,
        e.2.Reportable Pending.written Written.Reports e.1 := by
    apply forall_mem_fill_draftWrites author
      (Q := fun key element => element.Reportable Pending.written Written.Reports key)
    · -- an element that is refused adds nothing
      intro key e _
      rfl
    · intro key value now _ hvalue
      obtain ⟨w, hwritten, hw⟩ := Pending.written_ofWrite hvalue author key (c.latest key) now
      exact ⟨w, hwritten, Written.reports_ofWrite hw⟩
  apply ends_bulkWrite _ mayFail_accounts
  intro readings done
  obtain ⟨added, hgains, hreports⟩ := reports_commitEach (hreportable readings) c
  refine ⟨added, hgains, ?_, hreports⟩
  rw [map_fst_commitEach, Draft.map_fst_fill, map_fst_draftWrites]

theorem accounts_bulkDelete (hbound : ∀ d ∈ c.documents, d.version.toNat + 1 < 2 ^ 64)
    (author : Author) (keys : List Key) :
    (bulkDelete author keys).Ends c (Accounts (StoreCall.bulkDelete author keys).Reports c) := by
  have hreportable (readings : Nat → UInt64) :
      ∀ e ∈ Draft.fill (draftDeletes author c [] keys) readings,
        e.2.Reportable (fun p => .ok p.previous) Record.ReportsDeleted e.1 := by
    apply forall_mem_fill_draftDeletes author
      (Q := fun key element =>
        element.Reportable (fun p => .ok p.previous) Record.ReportsDeleted key)
    · -- a key without a record is answered that nothing was deleted
      intro key
      rfl
    · -- the record that was shown is the one that is reported
      intro key r now hr
      exact ⟨some r, rfl, Record.reportsDeleted_ofDelete hr hbound author now⟩
  apply ends_bulkDelete _ mayFail_accounts
  intro readings done
  obtain ⟨added, hgains, hreports⟩ := reports_commitEach (hreportable readings) c
  refine ⟨added, hgains, ?_, hreports⟩
  rw [map_fst_commitEach, Draft.map_fst_fill, map_fst_draftDeletes]

end Store

namespace StoreCall

/-- A call that only reads adds nothing, and there is nothing for it to report. -/
theorem accounts_of_unchanged {call : Call α} {reports : α → List Document → Prop}
    (hrun : ∀ s : Setting, s.medium.Holds c → ∃ outcome, call.run s = (outcome, s))
    (hreports : ∀ a, reports a []) : call.Ends c (Accounts reports c) := by
  refine Call.ends_of_run fun s hs => ?_
  obtain ⟨outcome, houtcome⟩ := hrun s hs
  refine ⟨outcome, s, houtcome, rfl, [], c.gains_nil, ?_⟩
  cases outcome with
  | error e => rfl
  | ok a => exact hreports a

theorem accounts_call (hbound : ∀ d ∈ c.documents, d.version.toNat + 1 < 2 ^ 64)
    (call : StoreCall) : call.call.Ends c (Accounts call.Reports c) := by
  cases call with
  | write author key value filter => exact Store.accounts_write author key value filter
  | delete author key => exact Store.accounts_delete hbound author key
  | bulkWrite author values => exact Store.accounts_bulkWrite author values
  | bulkDelete author keys => exact Store.accounts_bulkDelete hbound author keys
  | read key =>
    -- readings leave the collection as it is, and report nothing
    exact accounts_of_unchanged (fun s hs => ⟨_, hs.shows.run_read key⟩) fun _ => rfl
  | readMany keys =>
    exact accounts_of_unchanged (fun s hs => ⟨_, hs.shows.run_readMany keys⟩) fun _ => rfl
  | query resource options =>
    exact accounts_of_unchanged (fun s hs => ⟨_, hs.shows.run_query resource options⟩) fun _ => rfl
  | count resource filter =>
    exact accounts_of_unchanged (fun s hs => ⟨_, hs.shows.run_count resource filter⟩) fun _ => rfl

/-- **What a call adds is what its answer reports**, and a call that answers an error leaves the
documents exactly as they were. -/
theorem accounts_run (hs : s.medium.Holds c)
    (hbound : ∀ d ∈ c.documents, d.version.toNat + 1 < 2 ^ 64) (call : StoreCall) :
    ∃ added, (call.call.run s).2.medium.documents.Perm (s.medium.documents ++ added) ∧
      outcomeReports call.Reports (call.call.run s).1 added ∧
      ∀ e, (call.call.run s).1 = .error e →
        (call.call.run s).2.medium.documents = s.medium.documents := by
  obtain ⟨c', hc', added, hgains, hreports⟩ := accounts_call hbound call s hs
  rw [hs.documents_eq, hc'.documents_eq]
  refine ⟨added, hgains, hreports, fun e he => ?_⟩
  -- an error reports nothing, so nothing came, and the documents are in the same order too
  rw [he] at hreports
  obtain rfl : added = [] := hreports
  rw [Collection.gains_nil_iff.1 hgains]

theorem accounts_run_unsaved :
    let d := Document.sample 1 (.string "first")
    let c : Collection := { documents := [d] }
    let file : Snapshot := ⟨c, {}, Path.inDirectory "/" "configs.json", false⟩
    let s : Setting :=
      { Setting.idle c with medium := .file file [some (.create "no space left")] }
    let call : StoreCall := .bulkDelete d.author [d.key, d.key.resource.key "a", d.key]
    s.medium.Holds c ∧ (∀ e ∈ c.documents, e.version.toNat + 1 < 2 ^ 64) ∧
      ∃ added, (call.call.run s).2.medium.documents.Perm (s.medium.documents ++ added) ∧
        outcomeReports call.Reports (call.call.run s).1 added ∧
        ∀ e, (call.call.run s).1 = .error e →
          (call.call.run s).2.medium.documents = s.medium.documents := by
  intro d c file s call
  have hs : s.medium.Holds c := .file file [some (.create "no space left")]
  have hbound : ∀ e ∈ c.documents, e.version.toNat + 1 < 2 ^ 64 :=
    List.forall_mem_singleton.2 (by decide)
  exact ⟨hs, hbound, accounts_run hs hbound call⟩

end StoreCall
end ConfigLedger
