import ConfigLedger.Document.Form
import ConfigLedger.Proofs.Json.Records

/-!
# Documents read back

A document is written as a struct that names every known field once, and such a struct fills all
slots of a record in declared order (`Tree.slots?_tree_zip`). So everything in a document but its
value is always read back, and the value is read with one container less to go
(`Document.ofTree?_layout`).

What a tree denotes as a document is said without reading (`Document.Denoted`): each field stands
in its slot, and of the three that may be missing an empty slot counts as the text of its default.
The reader reads exactly that (`Document.ofTree?_eq_some_iff`). Both ways together make writing and
reading a document a round trip from either side (`Document.text_reread`).
-/

namespace ConfigLedger

namespace Document

theorem nodup_fieldNames : fieldNames.Nodup := by
  decide

/-- **A document is read back** if its value is, with one container less to go. -/
theorem ofTree?_layout (d : Document) (depth : Nat) :
    ofTree? (depth + 1) d.layout.tree =
      (d.value.tree.value? depth).map fun v => { d with value := v } := by
  rw [ofTree?, Tree.record?, layout, Tree.slots?_tree_zip nodup_fieldNames rfl]
  cases hvalue : d.value.tree.value? depth <;>
    simp [Tree.required?, Tree.withDefault?, Tree.string?, Tree.natural?, Tree.number?, Value.tree,
      Number.reread?_natural, Number.natural?, hvalue]

/-! ### What a tree denotes -/

/-- The tree denotes the document, whose value has `depth` containers to go: its slots hold the
fields. Without its author a document was made by an unknown one, and without a value it is a
tombstone. -/
def Denoted (depth : Nat) (d : Document) (t : Tree) : Prop :=
  ∃ id email value,
    t.slots? fieldNames = some [
      some (.text (some d.key.resource.name)), some (.text (some d.key.resource.space)),
      some (.text (some d.key.resource.tenant)), some (.text (some d.key.context)),
      some (.number (some (.natural d.version))), id, email, value,
      some (.number (some (.natural d.created))), some (.number (some (.natural d.updated)))] ∧
    id.getD (.text (some unknownAuthor)) = .text (some d.author.id) ∧
    email.getD (.text (some unknownAuthor)) = .text (some d.author.email) ∧
    (value.getD .null).value? depth = some d.value

/-- **What is read of a document** is what the tree denotes, with one container less to go for its
value. -/
theorem ofTree?_eq_some_iff {d : Document} {t : Tree} {depth : Nat} :
    ofTree? (depth + 1) t = some d ↔ d.Denoted depth t := by
  have hauthor : Tree.string? (.text (some unknownAuthor)) = some unknownAuthor := rfl
  have hvalue : Tree.value? depth .null = some .null := rfl
  constructor
  · intro h
    rw [ofTree?] at h
    obtain ⟨⟨inner, slots⟩, hrecord, hbody⟩ := Option.bind_eq_some_iff.1 h
    clear h
    obtain ⟨hdepth, hslots, -⟩ := Tree.of_record? hrecord
    obtain rfl : depth = inner := Nat.succ.inj hdepth
    -- the ten slots are read one by one in the order of the fields
    split at hbody
    · rename_i heq
      obtain ⟨rfl, rfl⟩ := Prod.mk.inj heq
      simp only [Option.bind_eq_bind, Option.bind_eq_some_iff] at hbody
      obtain ⟨_, hname, _, hspace, _, htenant, _, hcontext, _, hversion, _, hid, _, hemail, v, hv,
        _, hcreated, _, hupdated, hd⟩ := hbody
      obtain rfl := Option.some.inj hd
      -- what may be omitted is read as its default, and the rest must be given
      rw [Tree.withDefault?_eq hauthor] at hid hemail
      rw [Tree.withDefault?_eq hvalue] at hv
      rw [Tree.eq_text_of_required? hname, Tree.eq_text_of_required? hspace,
        Tree.eq_text_of_required? htenant, Tree.eq_text_of_required? hcontext,
        Tree.eq_natural_of_required? hversion, Tree.eq_natural_of_required? hcreated,
        Tree.eq_natural_of_required? hupdated] at hslots
      exact ⟨_, _, _, hslots, Tree.eq_text_of_string? hid, Tree.eq_text_of_string? hemail, hv⟩
    · cases hbody
  · rintro ⟨id, email, value, hslots, hid, hemail, hv⟩
    -- the other way round each slot holds what its reader asks for
    rw [← Tree.withDefault?_eq hvalue] at hv
    rw [ofTree?, Tree.record?, if_neg (Nat.succ_ne_zero depth), hslots, Nat.add_sub_cancel]
    simp [Tree.required?, Tree.withDefault?_eq hauthor, hid, hemail, hv, Tree.string?,
      Tree.natural?, Tree.number?, Number.natural?]

/-- **What is read of a document fits**, with one container less to go for its value. -/
theorem fits_of_ofTree? {d : Document} {t : Tree} {depth : Nat}
    (h : ofTree? (depth + 1) t = some d) : d.value.Fits depth := by
  obtain ⟨_, _, _, -, -, -, hv⟩ := ofTree?_eq_some_iff.1 h
  exact Tree.fits_of_value? _ hv

/-! ### Documents as texts -/

/-- The text of a document denotes it, unless its value nests too many containers. -/
theorem ofText?_text {d : Document} (h : d.value.Faithful) :
    ofText? d.text = if d.value.nesting ≤ 126 then some d else none := by
  rw [ofText?, text, Tree.ofText?_compact, Option.bind_some]
  -- the document itself is the first of the containers that a text may nest
  have hdepth : Tree.maxDepth = 126 + 1 := rfl
  rw [hdepth, ofTree?_layout, h.value?_tree]
  split <;> rfl

/-- **Documents survive being written and read.** The text of a document denotes it again, exactly
if its value nests at most 126 containers. A text denotes a document exactly if its tree does, in
any order and beside unknown fields, with an unknown author and no value where these are missing;
and the text of that document denotes it as well. -/
theorem text_reread :
    (∀ d : Document, d.value.Ordered → d.value.RealsReread →
      (ofText? d.text = some d ↔ d.value.nesting ≤ 126)) ∧
    (∀ text d, ofText? text = some d ↔ ∃ t, Tree.ofText? text = some t ∧ d.Denoted 126 t) ∧
    ∀ text d, ofText? text = some d → d.value.RealsReread → ofText? d.text = some d := by
  -- the text of a document is that of its layout, which is read back as far as the depth allows
  refine ⟨fun d hordered hreals => ?_, fun text d => ?_, fun text d hread hreals => ?_⟩
  · rw [ofText?_text (hordered.faithful hreals)]
    split <;> simp_all
  · rw [ofText?, Option.bind_eq_some_iff]
    exact exists_congr fun t => and_congr_right fun _ => ofTree?_eq_some_iff
  · obtain ⟨t, -, ht⟩ := Option.bind_eq_some_iff.1 hread
    -- what was read fits, so it is written and read like any document
    have hfits : d.value.Fits 126 := fits_of_ofTree? ht
    rw [ofText?_text (hfits.faithful hreals), if_pos hfits.nesting_le]

/-- A tombstone that was written without author and value, and a document of its key that lives. -/
theorem text_reread_tombstone :
    -- no author and no value, one field that is unknown, the others in another order
    let given : Value := .struct [
      ("updateTimestamp", .number (.natural 9)), ("creationTimestamp", .number (.natural 5)),
      ("configVersion", .number (.natural 2)), ("labels", .list [.string "x"]),
      ("context", .string "dev"), ("tenantId", .string "t"), ("resourceNamespace", .string "n"),
      ("resourceName", .string "r")]
    let d : Document := ⟨⟨⟨"r", "n", "t"⟩, "dev"⟩, 2, ⟨unknownAuthor, unknownAuthor⟩, .null, 5, 9⟩
    let live : Document := { d with value := .struct [("a", .list [.null])] }
    ofText? given.compact = some d ∧ d.Denoted 126 given.tree ∧ d.isTombstone = true ∧
      ofText? d.text = some d ∧ ofText? live.text = some live := by
  intro given d live
  have hread : ofText? given.compact = some d := by
    rw [ofText?, Tree.ofText?_compact, Option.bind_some]
    rfl
  have hreals : d.value.RealsReread := fun _ hx => absurd hx List.not_mem_nil
  obtain ⟨t, htree, hdenoted⟩ := (text_reread.2.1 given.compact d).1 hread
  rw [Tree.ofText?_compact] at htree
  obtain rfl := Option.some.inj htree
  have hlive : live.value.RealsReread := fun _ hx => absurd hx List.not_mem_nil
  exact ⟨hread, hdenoted, rfl, text_reread.2.2 given.compact d hread hreals,
    (text_reread.1 live ⟨List.pairwise_singleton _ _, ⟨trivial, trivial⟩, trivial⟩ hlive).2
      (by decide)⟩

end Document

end ConfigLedger
