import ConfigLedger.Document.Basic
import ConfigLedger.Proofs.Number.Exact
import Mathlib.Data.List.Basic

/-!
# Fields and records of documents

What stands at the top level of a document, and the two directions between live documents and
records: `Document.record?` and `Record.document`.
-/

namespace ConfigLedger

namespace Document

/-! ### Fields of documents -/

variable (d : Document)

@[simp] theorem field_resourceName :
    d.field "resourceName" = some (.string d.key.resource.name) := rfl

@[simp] theorem field_resourceNamespace :
    d.field "resourceNamespace" = some (.string d.key.resource.space) := rfl

@[simp] theorem field_tenantId :
    d.field "tenantId" = some (.string d.key.resource.tenant) := rfl

@[simp] theorem field_context :
    d.field "context" = some (.string d.key.context) := rfl

@[simp] theorem field_configVersion :
    d.field "configVersion" = some (.number (.natural d.version)) := rfl

/-- The version is a binary64 number, so comparisons see it as it is. -/
def Exact (d : Document) : Prop :=
  d.version.toNat < Binary64.exactBound

end Document

/-! ### Records -/

/-- The version that a record is the view of. -/
def Record.document (r : Record) : Document :=
  ⟨r.key, r.version, r.author, r.value, r.created, r.updated⟩

theorem Document.record?_eq_some_iff {d : Document} {r : Record} :
    d.record? = some r ↔ d.value.isNull = false ∧ d = r.document := by
  obtain ⟨key, version, author, value, created, updated⟩ := d
  obtain ⟨key', version', value', author', created', updated'⟩ := r
  rw [record?, isTombstone, Record.document]
  -- a tombstone has no record, and the value of a record is not null
  split
  · simp_all
  · simp_all
    tauto

@[simp] theorem Record.record?_document {r : Record} :
    r.document.record? = some r ↔ r.value.isNull = false := by
  rw [Document.record?_eq_some_iff]
  exact and_iff_left rfl

/-- Live documents are the documents of their records. -/
theorem map_document_filterMap {l : List Document} (hl : ∀ d ∈ l, d.isTombstone = false) :
    (l.filterMap Document.record?).map Record.document = l := by
  induction l with
  | nil => rfl
  | cons d l ih =>
    obtain ⟨hd, hrest⟩ := List.forall_mem_cons.1 hl
    -- a document without a record would be a tombstone
    cases hr : d.record? with
    | none => simp [Document.record?, hd] at hr
    | some r =>
      rw [List.filterMap_cons_some hr, List.map_cons, ih hrest,
        (Document.record?_eq_some_iff.1 hr).2]

theorem filterMap_map_document {l : List Record} (hl : ∀ r ∈ l, r.value.isNull = false) :
    (l.map Record.document).filterMap Document.record? = l := by
  rw [List.filterMap_map]
  refine (List.filterMap_congr fun r hr => ?_).trans List.filterMap_some
  exact Record.record?_document.2 (hl r hr)

end ConfigLedger
