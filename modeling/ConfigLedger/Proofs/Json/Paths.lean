import ConfigLedger.Document.Basic
import Mathlib.Data.List.TakeWhile

/-!
# Paths put together

Two paths with a dot between them lead where the second one leads from the place that the first one
leads to (`Value.lookup_append`). It does not matter whether a segment is empty, is a key or is a
position. The cuts at the dots are the same (`Value.segments_append`), and segments are followed one
after the other (`Value.descend_append`).

Only the empty path does not fit in. Alone it has no segments to follow, but next to a dot it is the
segment of an empty key. So the fields of a document are put together in the same way, whatever
comes first, except for `config.` (`Document.field_append`).
-/

namespace ConfigLedger

variable {p q : String}

theorem toList_append_dot (p q : String) :
    (p ++ "." ++ q).toList = p.toList ++ '.' :: q.toList := by
  simp

namespace Value

/-- The segments of two paths put together are those of both. -/
theorem segments_append (p q : String) : segments (p ++ "." ++ q) = segments p ++ segments q := by
  have hsplit : (p.toList ++ '.' :: q.toList).splitOn '.' =
      p.toList.splitOn '.' ++ q.toList.splitOn '.' :=
    List.splitOnP_append_cons _ _ (beq_self_eq_true _)
  unfold segments
  rw [toList_append_dot, hsplit, List.map_append]

/-- **Segments are followed one after the other.** -/
theorem descend_append (v : Value) (front back : List String) :
    v.descend (front ++ back) = (v.descend front).bind fun w => w.descend back := by
  induction front generalizing v with
  | nil => rfl
  | cons segment rest ih =>
    calc
      v.descend (segment :: (rest ++ back))
        = (v.child segment).bind fun w => w.descend (rest ++ back) := rfl
      _ = (v.child segment).bind fun w => (w.descend rest).bind fun u => u.descend back := by
          simp only [ih]
      _ = (v.descend (segment :: rest)).bind fun u => u.descend back :=
          (Option.bind_assoc _ _ _).symm

/-- A path that is not empty is followed segment by segment. -/
theorem lookup_of_ne_empty (v : Value) (hp : p ≠ "") : v.lookup p = v.descend (segments p) := by
  unfold lookup
  rw [if_neg (by simpa using hp)]

/-- **Two paths put together** lead from where the first one leads to where the second one leads
from there, and nowhere if the first one leads nowhere. -/
theorem lookup_append (v : Value) (hp : p ≠ "") (hq : q ≠ "") :
    v.lookup (p ++ "." ++ q) = (v.lookup p).bind fun w => w.lookup q := by
  -- two paths with a dot between them are never empty, so each side is cut into its segments
  have hpq : p ++ "." ++ q ≠ "" := by
    intro h
    have hlist := congrArg String.toList h
    rw [toList_append_dot] at hlist
    simp at hlist
  calc
    v.lookup (p ++ "." ++ q) = v.descend (segments p ++ segments q) := by
        rw [lookup_of_ne_empty v hpq, segments_append]
    _ = (v.descend (segments p)).bind fun w => w.descend (segments q) := descend_append v _ _
    _ = (v.lookup p).bind fun w => w.lookup q := by
        simp only [lookup_of_ne_empty _ hp, lookup_of_ne_empty _ hq]

/-- An empty key, a position in a list, a struct with a numeric key, and an empty key again. -/
theorem lookup_append_odd_segments :
    let v : Value := .struct [("", .list [.null, .struct [("7", .struct [("", .string "here")])]])]
    ".1" ≠ "" ∧ "7." ≠ "" ∧ v.lookup ".1.7." = some (.string "here") ∧
      v.lookup (".1" ++ "." ++ "7.") = (v.lookup ".1").bind fun w => w.lookup "7." := by
  intro v
  have hp : ".1" ≠ "" := by decide
  have hq : "7." ≠ "" := by decide
  exact ⟨hp, hq, by rfl, lookup_append v hp hq⟩

/-- Nothing stands inside a text or a number. -/
theorem lookup_of_kind {v : Value} (hv : v.kind = .string ∨ v.kind = .number) (hq : q ≠ "") :
    v.lookup q = none := by
  rw [lookup_of_ne_empty v hq]
  -- only structs and lists have anything inside
  have hchild : ∀ segment, v.child segment = none := by
    intro segment
    cases v with
    | string s => rfl
    | number n => rfl
    | _ => simp [kind] at hv
  -- a path has a segment, be it an empty one
  cases hsegments : segments q with
  | nil => simp [segments] at hsegments
  | cons segment rest =>
    unfold descend
    rw [hchild, Option.bind_none]

end Value

/-! ### Documents -/

namespace Document

theorem forall_ne_dot (hp : '.' ∉ p.toList) : ∀ c ∈ p.toList, (c != '.') = true := by
  intro c hc
  simpa using ne_of_mem_of_not_mem hc hp

/-- A path with a dot leads into the value, or nowhere. -/
theorem field_append_of_no_dot (d : Document) (hp : '.' ∉ p.toList) (q : String) :
    d.field (p ++ "." ++ q) = if p = "config" then d.value.lookup q else none := by
  unfold field
  rw [toList_append_dot, List.takeWhile_append_of_pos (forall_ne_dot hp),
    List.dropWhile_append_of_pos (forall_ne_dot hp)]
  simp

/-- A path without dots leads to the value, or to a text or a number, or nowhere. -/
theorem kind_of_field (d : Document) (hp : '.' ∉ p.toList) (hconfig : p ≠ "config") {v : Value}
    (hv : d.field p = some v) : v.kind = .string ∨ v.kind = .number := by
  have hhead : String.ofList (p.toList.takeWhile (· != '.')) = p := by
    rw [List.takeWhile_eq_self_iff.2 (forall_ne_dot hp), String.ofList_toList]
  unfold field at hv
  rw [hhead, List.dropWhile_eq_nil_iff.2 (forall_ne_dot hp)] at hv
  dsimp only at hv
  split at hv
  · exact absurd rfl hconfig
  all_goals cases hv <;> simp [Value.kind]

/-- **The fields of a document** are put together like paths. Only `config.` leads to the value,
though its last segment is empty. -/
theorem field_append (d : Document) (hp : p ≠ "config.") (hq : q ≠ "") :
    d.field (p ++ "." ++ q) = (d.field p).bind fun v => v.lookup q := by
  by_cases hdot : '.' ∈ p.toList
  · -- the first dot parts the name of the field from the path inside it
    obtain ⟨front, back, hsplit, hfront⟩ := List.eq_append_cons_of_mem hdot
    obtain ⟨name, rfl⟩ : ∃ name, front = String.toList name := ⟨String.ofList front, by simp⟩
    obtain ⟨path, rfl⟩ : ∃ path, back = String.toList path := ⟨String.ofList back, by simp⟩
    obtain rfl : p = name ++ "." ++ path := by
      rw [← String.toList_inj, toList_append_dot, hsplit]
    have hassoc : name ++ "." ++ path ++ "." ++ q = name ++ "." ++ (path ++ "." ++ q) := by
      simp only [String.append_assoc]
    rw [hassoc, d.field_append_of_no_dot hfront, d.field_append_of_no_dot hfront]
    -- the value is searched further, and any other field with a dot in its name is missing
    by_cases hname : name = "config"
    · have hpath : path ≠ "" := by
        rintro rfl
        exact hp (by rw [hname]; rfl)
      rw [if_pos hname, if_pos hname, Value.lookup_append d.value hpath hq]
    · rw [if_neg hname, if_neg hname, Option.bind_none]
  · -- without a dot the path names a field of the document itself
    rw [d.field_append_of_no_dot hdot]
    by_cases hname : p = "config"
    · subst hname
      rfl
    · -- the metadata are texts and numbers
      rw [if_neg hname]
      cases hv : d.field p with
      | none => rfl
      | some v => rw [Option.bind_some, Value.lookup_of_kind (d.kind_of_field hdot hname hv) hq]

end Document

end ConfigLedger
