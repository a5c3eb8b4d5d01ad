import ConfigLedger.Proofs.Backend.History

/-!
# One resource among others

All resources share one collection. `Collection.only` is what is left of it if all documents but
those of one resource are taken out. To a query that asks for that resource alone nothing is missing
there (`find_only`), and an addition to the resource has the same outcome there, also if it depends
on how many stored documents satisfy a condition, as long as the condition is about that resource
(`insert?_only`, `insertIf?_only`). An addition to another resource does not show there
(`only_of_insert?_of_ne`).
-/

namespace ConfigLedger
namespace Collection

variable {c c' : Collection} {d : Document} {key : Key} {resource : Resource}

/-- The documents of one resource. -/
def only (c : Collection) (resource : Resource) : Collection :=
  ⟨c.documents.filter fun d => decide (d.key.resource = resource), c.ordered.filter _⟩

@[simp] theorem mem_only :
    d ∈ (c.only resource).documents ↔ d ∈ c.documents ∧ d.key.resource = resource := by
  simp [only]

/-! ### Queries -/

/-- What asks for one resource selects among its documents. -/
theorem filter_only {p : Document → Bool} (hp : ∀ d, p d = true → d.key.resource = resource) :
    (c.only resource).documents.filter p = c.documents.filter p := by
  rw [only, List.filter_filter]
  refine List.filter_congr fun d _ => ?_
  -- what is accepted is of the resource anyway
  by_cases hd : p d = true
  · rw [hd, decide_eq_true (hp d hd), Bool.and_self]
  · rw [Bool.eq_false_iff.2 hd, Bool.false_and]

/-- **A query for one resource** finds the same among its documents. -/
theorem find_only {q : Query} (hq : ∀ d : Document, q.condition.all d.satisfies = true →
    d.key.resource = resource) : (c.only resource).find q = c.find q := by
  unfold find Query.select
  rw [filter_only hq]

theorem history_only (c : Collection) (key : Key) :
    (c.only key.resource).history key = c.history key :=
  filter_only fun _ hd => congrArg Key.resource (of_decide_eq_true hd)

theorem latest_only (c : Collection) (key : Key) :
    (c.only key.resource).latest key = c.latest key :=
  latest_congr (c.history_only key)

/-! ### Additions -/

theorem taken_only (c : Collection) (d : Document) :
    (c.only d.key.resource).taken d = c.taken d := by
  rw [Bool.eq_iff_iff, taken_iff, taken_iff]
  refine exists_congr fun e => ?_
  rw [mem_only, and_assoc]
  exact and_congr_right fun _ => and_iff_right_of_imp fun h => by rw [h.1]

/-- **An addition to a resource** has the same outcome among its documents. -/
theorem insert?_only (c : Collection) (d : Document) :
    (c.only d.key.resource).insert? d = (c.insert? d).map (·.only d.key.resource) := by
  rw [insert?, insert?, taken_only]
  split
  · -- the number is taken in both or in neither
    rfl
  · rw [Option.map_some]
    congr 1
    -- put among its documents or put first and then cut down, the members are the same
    refine eq_of_mem_iff fun e => ?_
    rw [mem_put, mem_only, mem_only, mem_put, and_right_comm, or_and_right]
    exact or_congr_left (and_iff_left_of_imp fun h => by rw [h]).symm

/-- An addition to another resource does not show. -/
theorem only_of_insert?_of_ne (h : c.insert? d = some c') (hne : d.key.resource ≠ resource) :
    c'.only resource = c.only resource := by
  refine eq_of_mem_iff fun e => ?_
  rw [mem_only, mem_only, mem_of_insert?_eq_some h]
  constructor
  · -- the document that is added is of another resource
    rintro ⟨rfl | he, hresource⟩
    · exact absurd hresource hne
    · exact ⟨he, hresource⟩
  · exact fun ⟨he, hresource⟩ => ⟨.inr he, hresource⟩

/-- **An addition under a condition** counts the same documents, if the condition is about the
resource that is added to. -/
theorem insertIf?_only {condition : Predicate} (c : Collection) (d : Document)
    (hcondition : ∀ e : Document, e.satisfies condition = true →
      e.key.resource = d.key.resource) :
    (c.only d.key.resource).insertIf? d condition =
      (c.insertIf? d condition).map (·.only d.key.resource) := by
  rw [insertIf?, insertIf?, filter_only hcondition]
  -- the condition is met by as many documents in both
  split
  · exact c.insert?_only d
  · rfl

/-! ### Collections that agree on a resource -/

/-- What is found of a key depends on what there is of its resource. -/
theorem latest_congr_only (h : c.only key.resource = c'.only key.resource) :
    c.latest key = c'.latest key := by
  rw [← c.latest_only, h, c'.latest_only]

end Collection
end ConfigLedger
