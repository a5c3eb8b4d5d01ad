/-!
# Keys

A `Resource` is a family of configurations that one tenant owns; a `Key` names one instance
of it, its context. Callers form keys with `Resource.key`, which puts `defaultContext` in
the place of an empty context. A stored document keeps the key it was stored under, whatever
its context is.

Keys are ordered by name, namespace, tenant and context (`Key.precedes`), each compared by
code points.
-/

namespace ConfigLedger

/-- The context of the single instance of a resource that has no other. -/
def defaultContext : String :=
  "DEFAULT-CONTEXT"

/-- A family of configurations owned by one tenant. -/
structure Resource where
  name : String
  /-- The namespace of the name. -/
  space : String
  tenant : String
deriving DecidableEq

/-- One instance of a resource. -/
structure Key where
  resource : Resource
  context : String
deriving DecidableEq

namespace Resource

/-- The key of an instance; an empty context means the default one. -/
def key (resource : Resource) (context : String) : Key :=
  ⟨resource, if context.isEmpty then defaultContext else context⟩

/-- The key of the default instance. -/
def defaultKey (resource : Resource) : Key :=
  ⟨resource, defaultContext⟩

/-- How a resource is shown to people. -/
def label (resource : Resource) : String :=
  resource.space ++ "/" ++ resource.name ++ "@" ++ resource.tenant

end Resource

namespace Key

/-- How a key is shown to people. -/
def label (key : Key) : String :=
  key.resource.label ++ "[" ++ key.context ++ "]"

/-- The parts of a key, the most significant one first. -/
def parts (key : Key) : List String :=
  [key.resource.name, key.resource.space, key.resource.tenant, key.context]

/-- A key is its parts. -/
theorem parts_inj {a b : Key} : a.parts = b.parts ↔ a = b := by
  obtain ⟨⟨_, _, _⟩, _⟩ := a
  obtain ⟨⟨_, _, _⟩, _⟩ := b
  simp [parts, and_assoc]

/-- The order of keys. -/
def precedes (a b : Key) : Bool :=
  decide (a.parts < b.parts)

/-- Different keys precede one another one way round. -/
theorem precedes_or_precedes {a b : Key} (h : a ≠ b) : a.precedes b ∨ b.precedes a := by
  have hparts : a.parts ≠ b.parts := fun hp => h (parts_inj.1 hp)
  simp only [precedes, decide_eq_true_eq]
  apply Classical.byContradiction
  intro hno
  rw [not_or, List.not_lt, List.not_lt] at hno
  exact hparts (List.le_antisymm hno.2 hno.1)

/-- No key precedes itself. -/
theorem not_precedes_self (a : Key) : a.precedes a = false := by
  simp [precedes]

/-- The order of keys is transitive. -/
theorem precedes_trans {a b c : Key} (hab : a.precedes b) (hbc : b.precedes c) :
    a.precedes c := by
  simp only [precedes, decide_eq_true_eq] at *
  exact List.lt_trans hab hbc

end Key

end ConfigLedger
