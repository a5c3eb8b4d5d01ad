import ConfigLedger.Key

/-!
# Key monitors

Whoever changes a key holds its monitor from reading the latest version to adding the next
one. A monitor has one holder at a time. Several keys are locked in their order, each once
(`lockOrder`), so that no two callers ever wait for each other.
-/

namespace ConfigLedger

/-- Adds a key to keys in rising order, unless it is among them. -/
def insertKey (key : Key) : List Key → List Key
  | [] => [key]
  | k :: rest =>
    if key = k then k :: rest
    else if key.precedes k then key :: k :: rest
    else k :: insertKey key rest

/-- The distinct keys of a list in rising order. -/
def lockOrder (keys : List Key) : List Key :=
  keys.foldr insertKey []

/-- Which keys are held. -/
structure KeyMonitors where
  held : List Key := []

namespace KeyMonitors

/-- Takes the monitor of a key, unless it is held. -/
def lock? (m : KeyMonitors) (key : Key) : Option KeyMonitors :=
  if key ∈ m.held then none else some ⟨key :: m.held⟩

/-- Gives the monitor of a key back. -/
def unlock (m : KeyMonitors) (key : Key) : KeyMonitors :=
  ⟨m.held.erase key⟩

/-- Takes the monitors of all distinct keys of a list, or none if one of them is held. -/
def lockAll? (m : KeyMonitors) (keys : List Key) : Option KeyMonitors :=
  (lockOrder keys).foldlM lock? m

end KeyMonitors

end ConfigLedger
