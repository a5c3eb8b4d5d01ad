import ConfigLedger.Proofs.Store.Traffic

/-!
# Calls that wait for each other

In a `Traffic` nothing keeps one call from another. In a `Crew` the calls have to take the monitors
of keys. A monitor is a mutex that a cache hands out. A call that asks for the monitor of a key is
given a mutex, waits until nobody holds it, and then takes it; others may act in between. There is
no deadline, so a call that waits is never turned away.

The cache forgets a mutex that was not used for a while, and makes another one when it is asked for
the key again. So it is left open which mutex it returns (`Cache`), apart from what it guarantees:
as long as a mutex is held or waited for, it is the one that is returned for its key
(`Cache.Steady`). That is enough for the monitors to do what they are for: nobody ever holds a key
that someone else holds (`Crew.Exclusive.nodup_held`).
-/

namespace ConfigLedger

variable {M : Type}

/-- What a call saw: a query, the keys whose monitors it held then, and the collection that the
query was answered from. -/
structure Sighting where
  query : Query
  held : List Key
  collection : Collection

namespace Request

/-- Whether a monitor is asked for or given back. -/
def onMonitor : Request → Bool
  | lockKey _ | unlockKey _ => true
  | _ => false

/-- What is seen when a request is served. -/
def sightings (held : List Key) (c : Collection) : Request → List Sighting
  | find q => [⟨q, held, c⟩]
  | _ => []

end Request

/-- A call on its way. -/
structure Worker (M : Type) where
  call : StoreCall
  /-- What is left of it. -/
  rest : Procedure (Except StoreError call.Answer)
  /-- The mutex that it was given and waits for, with its key. -/
  awaits : Option (Key × M)
  /-- The mutexes that it holds, with their keys. -/
  holds : List (Key × M)
  /-- What it saw, in this order. -/
  sightings : List Sighting

namespace Worker

/-- The keys whose monitors the call holds. -/
def held (w : Worker M) : List Key :=
  w.holds.map Prod.fst

/-- The mutexes that the call holds. -/
def mutexes (w : Worker M) : List M :=
  w.holds.map Prod.snd

/-- The mutexes that the call holds or waits for, with their keys. -/
def uses (w : Worker M) : List (Key × M) :=
  w.awaits.toList ++ w.holds

end Worker

/-- A call at its start. -/
def StoreCall.worker (call : StoreCall) : Worker M :=
  ⟨call, call.call.steps.elementwise, none, [], []⟩

/-- Calls on their way, and the collection that they work on. -/
structure Crew (M : Type) where
  collection : Collection
  workers : List (Worker M)

/-- Which mutexes a cache may return for a key, as things stand. -/
abbrev Cache (M : Type) : Type :=
  Crew M → Key → M → Prop

/-- As long as someone holds the mutex of a key or waits for it, the cache returns this one. -/
def Cache.Steady (cache : Cache M) : Prop :=
  ∀ t key m, cache t key m → ∀ w ∈ t.workers, ∀ m', (key, m') ∈ w.uses → m' = m

/-- A step of one of the calls, which may change the collection. -/
inductive Worker.Step (cache : Cache M) (t : Crew M) : Worker M → Worker M → Collection → Prop where
  /-- The cache returns a mutex. -/
  | await {call : StoreCall} {key : Key} {m : M} (h : cache t key m)
      (next : Bool → Procedure (Except StoreError call.Answer)) (holds : List (Key × M))
      (sightings : List Sighting) :
      Step cache t ⟨call, .ask (.lockKey key) next, none, holds, sightings⟩
        ⟨call, .ask (.lockKey key) next, some (key, m), holds, sightings⟩ t.collection
  /-- Nobody holds the mutex. -/
  | acquire {call : StoreCall} {key : Key} {m : M} (h : ∀ w ∈ t.workers, m ∉ w.mutexes)
      (next : Bool → Procedure (Except StoreError call.Answer)) (holds : List (Key × M))
      (sightings : List Sighting) :
      Step cache t ⟨call, .ask (.lockKey key) next, some (key, m), holds, sightings⟩
        ⟨call, next true, none, (key, m) :: holds, sightings⟩ t.collection
  | release {call : StoreCall} {key : Key}
      (next : Unit → Procedure (Except StoreError call.Answer)) (holds : List (Key × M))
      (sightings : List Sighting) :
      Step cache t ⟨call, .ask (.unlockKey key) next, none, holds, sightings⟩
        ⟨call, next (), none, holds.eraseP fun use => use.1 = key, sightings⟩ t.collection
  /-- The collection serves any other request. -/
  | serve {call : StoreCall} {r : Request} {answer : r.Answer} {c : Collection}
      (hr : r.onMonitor = false) (h : t.collection.Served r answer c)
      (next : r.Answer → Procedure (Except StoreError call.Answer)) (holds : List (Key × M))
      (sightings : List Sighting) :
      Step cache t ⟨call, .ask r next, none, holds, sightings⟩
        ⟨call, next answer, none, holds,
          sightings ++ r.sightings (holds.map Prod.fst) t.collection⟩ c

/-- A mutex comes into use only if the cache returned it. -/
theorem Worker.Step.uses {cache : Cache M} {t : Crew M} {w w' : Worker M} {c : Collection}
    (h : w.Step cache t w' c) :
    (∃ key m, cache t key m ∧ w'.uses = (key, m) :: w.uses) ∨ w'.uses ⊆ w.uses := by
  cases h with
  | @await call key m h next holds sightings => exact .inl ⟨key, m, h, rfl⟩
  | acquire h next holds sightings => exact .inr (List.Subset.refl _)
  | release next holds sightings => exact .inr List.eraseP_subset
  | serve hr h next holds sightings => exact .inr (List.Subset.refl _)

/-- A mutex comes to be held only if nobody held it. -/
theorem Worker.Step.mutexes {cache : Cache M} {t : Crew M} {w w' : Worker M} {c : Collection}
    (h : w.Step cache t w' c) :
    (∃ m, (∀ u ∈ t.workers, m ∉ u.mutexes) ∧ w'.mutexes = m :: w.mutexes) ∨
      w'.mutexes.Sublist w.mutexes := by
  cases h with
  | await h next holds sightings => exact .inr (List.Sublist.refl _)
  | @acquire call key m h next holds sightings => exact .inl ⟨m, h, rfl⟩
  | release next holds sightings => exact .inr (List.eraseP_sublist.map _)
  | serve hr h next holds sightings => exact .inr (List.Sublist.refl _)

/-! ### Lists of users -/

/-- If one of several users comes to hold one thing more, which nobody held, or nothing more, then
nothing is held twice. -/
theorem nodup_flatMap_of_replace {α β : Type} {f : α → List β} {before after : List α} {a a' : α}
    (h : ((before ++ a :: after).flatMap f).Nodup)
    (ha : (∃ b ∉ (before ++ a :: after).flatMap f, f a' = b :: f a) ∨ (f a').Sublist (f a)) :
    ((before ++ a' :: after).flatMap f).Nodup := by
  simp only [List.flatMap_append, List.flatMap_cons] at h ha ⊢
  rcases ha with ⟨b, hfree, heq⟩ | hsub
  · rw [heq, List.cons_append, List.nodup_middle]
    exact List.nodup_cons.2 ⟨hfree, h⟩
  · exact h.sublist ((hsub.append_right _).append_left _)

/-- If one of several users comes to use one thing more, which fits to all that is used, or nothing
more, all things that are used fit to each other. -/
theorem forall_of_replace {α β : Type} {R : β → β → Prop} {f : α → List β} {before after : List α}
    {a a' : α}
    (h : ∀ x ∈ (before ++ a :: after).flatMap f, ∀ y ∈ (before ++ a :: after).flatMap f, R x y)
    (ha : (∃ b, f a' = b :: f a ∧ R b b ∧
      ∀ x ∈ (before ++ a :: after).flatMap f, R x b ∧ R b x) ∨ f a' ⊆ f a) :
    ∀ x ∈ (before ++ a' :: after).flatMap f, ∀ y ∈ (before ++ a' :: after).flatMap f, R x y := by
  have hown : f a ⊆ (before ++ a :: after).flatMap f := fun x hx =>
    List.mem_flatMap.2 ⟨a, List.mem_append_right _ List.mem_cons_self, hx⟩
  -- what is used afterwards is used by `a'`, or it was used before
  have hothers {x : β} (hx : x ∈ (before ++ a' :: after).flatMap f) :
      x ∈ f a' ∨ x ∈ (before ++ a :: after).flatMap f := by
    simp only [List.flatMap_append, List.flatMap_cons, List.mem_append] at hx ⊢
    tauto
  intro x hx y hy
  rcases ha with ⟨b, heq, hself, hb⟩ | hsub
  · -- one thing more: it fits to itself, and to all that was used before
    have hold {x : β} (hx : x ∈ (before ++ a' :: after).flatMap f) :
        x = b ∨ x ∈ (before ++ a :: after).flatMap f := by
      refine (hothers hx).elim (fun hin => ?_) .inr
      rw [heq] at hin
      exact (List.mem_cons.1 hin).imp_right fun hmem => hown hmem
    rcases hold hx with rfl | hx <;> rcases hold hy with rfl | hy
    · exact hself
    · exact (hb y hy).2
    · exact (hb x hx).1
    · exact h x hx y hy
  · -- nothing more, so all of it was used before
    have hold {x : β} (hx : x ∈ (before ++ a' :: after).flatMap f) :
        x ∈ (before ++ a :: after).flatMap f :=
      (hothers hx).elim (fun hin => hown (hsub hin)) id
    exact h x (hold hx) y (hold hy)

/-- If no mutex is listed twice, and one mutex for each key, no key is listed twice. -/
theorem nodup_fst_of_agree {l : List (Key × M)} (hmutexes : (l.map Prod.snd).Nodup)
    (hagree : ∀ x ∈ l, ∀ y ∈ l, x.1 = y.1 → x.2 = y.2) : (l.map Prod.fst).Nodup := by
  refine List.pairwise_map.2 ((List.pairwise_map.1 hmutexes).imp_of_mem ?_)
  intro x y hx hy hne heq
  exact hne (hagree x hx y hy heq)

namespace Crew

/-- The start of a call, or a step of one of them. -/
inductive Step (cache : Cache M) : Crew M → Crew M → Prop where
  | start (t : Crew M) (call : StoreCall) :
      Step cache t { t with workers := call.worker :: t.workers }
  | work {c c' : Collection} {w w' : Worker M} (before after : List (Worker M))
      (h : w.Step cache ⟨c, before ++ w :: after⟩ w' c') :
      Step cache ⟨c, before ++ w :: after⟩ ⟨c', before ++ w' :: after⟩

/-- Any number of steps, in any order. -/
def Steps (cache : Cache M) : Crew M → Crew M → Prop :=
  Relation.ReflTransGen (Step cache)

theorem Step.subset {cache : Cache M} {t t' : Crew M} (h : Step cache t t') :
    t.collection.documents ⊆ t'.collection.documents := by
  cases h with
  | start t call => exact List.Subset.refl _
  | work before after h =>
    cases h with
    | serve hr h next holds sightings => exact h.subset
    | _ => exact List.Subset.refl _

/-! ### Mutual exclusion -/

/-- The mutexes that are held or waited for, with their keys. -/
def uses (t : Crew M) : List (Key × M) :=
  t.workers.flatMap Worker.uses

/-- No mutex is held twice, and everyone who uses a key uses the same mutex. -/
structure Exclusive (t : Crew M) : Prop where
  nodup : (t.workers.flatMap Worker.mutexes).Nodup
  agree : ∀ x ∈ t.uses, ∀ y ∈ t.uses, x.1 = y.1 → x.2 = y.2

/-- **No key is held twice.** -/
theorem Exclusive.nodup_held {t : Crew M} (h : t.Exclusive) :
    (t.workers.flatMap Worker.held).Nodup := by
  have huses {x : Key × M} (hx : x ∈ t.workers.flatMap Worker.holds) : x ∈ t.uses := by
    obtain ⟨w, hw, hmem⟩ := List.mem_flatMap.1 hx
    exact List.mem_flatMap.2 ⟨w, hw, List.mem_append_right _ hmem⟩
  have hmutexes : ((t.workers.flatMap Worker.holds).map Prod.snd).Nodup := by
    rw [List.map_flatMap]
    exact h.nodup
  rw [show t.workers.flatMap Worker.held = (t.workers.flatMap Worker.holds).map Prod.fst from
    List.map_flatMap.symm]
  -- two holders of one key would hold the same mutex
  exact nodup_fst_of_agree hmutexes fun x hx y hy => h.agree x (huses hx) y (huses hy)

/-- **Mutual exclusion is kept.** The cache returns a mutex that is in use, if there is one, and
only a mutex that nobody holds is taken. -/
theorem Exclusive.step {cache : Cache M} (hcache : cache.Steady) {t t' : Crew M} (h : t.Exclusive)
    (hstep : Step cache t t') : t'.Exclusive := by
  cases hstep with
  -- a call that begins uses nothing
  | start t call => exact ⟨h.nodup, h.agree⟩
  | @work c c' w w' before after hwork =>
    obtain ⟨hnodup, hagree⟩ := h
    constructor
    · -- a mutex that comes to be held was held by nobody
      refine nodup_flatMap_of_replace hnodup (hwork.mutexes.imp_left ?_)
      rintro ⟨m, hfree, heq⟩
      refine ⟨m, fun hmem => ?_, heq⟩
      obtain ⟨u, hu, hm⟩ := List.mem_flatMap.1 hmem
      exact hfree u hu hm
    · refine forall_of_replace hagree (hwork.uses.imp_left ?_)
      rintro ⟨key, m, hget, heq⟩
      -- the mutex that the cache returned is the one that others use for the key
      have hnew {x : Key × M} (hx : x ∈ uses ⟨c, before ++ w :: after⟩) (hkey : x.1 = key) :
          x.2 = m := by
        obtain ⟨u, hu, hmem⟩ := List.mem_flatMap.1 hx
        exact hcache _ key m hget u hu x.2 (hkey ▸ hmem)
      refine ⟨(key, m), heq, fun _ => rfl, fun x hx => ⟨hnew hx, fun hkey => ?_⟩⟩
      exact (hnew hx hkey.symm).symm

/-- **No key is ever held twice**, whatever calls were started and in whatever order they went
on. -/
theorem nodup_held_of_steps {cache : Cache M} (hcache : cache.Steady) {c : Collection} {t : Crew M}
    (h : Steps cache ⟨c, []⟩ t) : (t.workers.flatMap Worker.held).Nodup := by
  have hexclusive : t.Exclusive := by
    induction h with
    | refl => exact ⟨List.nodup_nil, by simp [uses]⟩
    | tail _ hstep ih => exact ih.step hcache hstep
  exact hexclusive.nodup_held

end Crew
end ConfigLedger
