import ConfigLedger.Locks.KeyMonitors
import Mathlib.Data.List.Basic

/-!
# The order in which keys are locked

`lockOrder` lists the keys it is given (`mem_lockOrder`) in strictly rising order
(`pairwise_lockOrder`), hence each of them once (`nodup_lockOrder`).
-/

namespace ConfigLedger

theorem mem_insertKey {key x : Key} {l : List Key} : x ∈ insertKey key l ↔ x = key ∨ x ∈ l := by
  induction l with
  | nil => simp [insertKey]
  | cons k rest ih =>
    rw [insertKey]
    split
    · next heq =>
      subst heq
      simp
    · split
      · simp
      · rw [List.mem_cons, ih, List.mem_cons]
        exact or_left_comm

theorem pairwise_insertKey {key : Key} {l : List Key}
    (hl : l.Pairwise fun a b => a.precedes b = true) :
    (insertKey key l).Pairwise fun a b => a.precedes b = true := by
  induction l with
  | nil => simp [insertKey]
  | cons k rest ih =>
    obtain ⟨hk, hrest⟩ := List.pairwise_cons.1 hl
    rw [insertKey]
    split
    · -- the key is there already
      exact hl
    · next hne =>
      split
      -- the key stands in front of the first one, and so of all others
      · next hbefore =>
        refine List.pairwise_cons.2 ⟨fun x hx => ?_, hl⟩
        rcases List.mem_cons.1 hx with rfl | hx
        · exact hbefore
        · exact Key.precedes_trans hbefore (hk x hx)
      -- of two keys one precedes the other, so here it is the first one that does
      · next hbefore =>
        refine List.pairwise_cons.2 ⟨fun x hx => ?_, ih hrest⟩
        rcases mem_insertKey.1 hx with rfl | hx
        · exact (Key.precedes_or_precedes hne).resolve_left hbefore
        · exact hk x hx

@[simp] theorem mem_lockOrder {key : Key} {keys : List Key} :
    key ∈ lockOrder keys ↔ key ∈ keys := by
  induction keys with
  | nil => simp [lockOrder]
  | cons k rest ih =>
    rw [List.mem_cons, ← ih]
    exact mem_insertKey

theorem pairwise_lockOrder (keys : List Key) :
    (lockOrder keys).Pairwise fun a b => a.precedes b = true := by
  induction keys with
  | nil => exact List.Pairwise.nil
  | cons k rest ih => exact pairwise_insertKey ih

/-- Each key is locked once. -/
theorem nodup_lockOrder (keys : List Key) : (lockOrder keys).Nodup :=
  (pairwise_lockOrder keys).imp fun {a b} hbefore hab => by
    rw [hab, Key.not_precedes_self] at hbefore
    cases hbefore

end ConfigLedger
