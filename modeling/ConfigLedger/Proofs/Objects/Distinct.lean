import ConfigLedger.Proofs.Objects.Decoding

/-!
# Objects that differ in an aspect

The objects of a tenant are distinct in an aspect if no two of them agree in it and everything that
is shown of the tenant decodes (`ObjectStore.Distinct`). Then a list holds all of them, and each
value of the aspect once (`ObjectStore.Distinct.list`).

How may an addition change that? Whatever the versions are, afterwards its key shows the addition or
what it showed before. So a tombstone only makes objects disappear (`Collection.Fades`), which keeps
the others distinct. An object keeps them distinct if its value of the aspect is vacant
(`ObjectStore.Distinct.insert?`), and a value that is vacant stays so while objects disappear.
-/

namespace ConfigLedger

variable {τ κ : Type} {c c' c'' : Collection} {d : Document} {resource : Resource}

namespace Collection

/-- Of a resource one collection shows nothing that another one does not show. -/
def Fades (resource : Resource) (c c' : Collection) : Prop :=
  ∀ key r, key.resource = resource → c'.shown key = some r → c.shown key = some r

theorem Fades.refl (resource : Resource) (c : Collection) : c.Fades resource c :=
  fun _ _ _ hr => hr

theorem Fades.trans (h : Fades resource c c') (h' : Fades resource c' c'') :
    Fades resource c c'' :=
  fun key r hkey hr => h key r hkey (h' key r hkey hr)

/-- **A tombstone makes nothing appear**, whatever it is put behind or before. -/
theorem fades_of_tombstone (hd : d.isTombstone = true) (h : c.insert? d = some c') :
    Fades resource c c' := by
  intro key r _ hr
  rcases shown_of_insert? h key with hsame | ⟨-, hadded⟩
  · exact hsame ▸ hr
  · rw [hadded, Document.record?, if_pos hd] at hr
    cases hr

theorem fades_of_ne (hne : d.key.resource ≠ resource) (h : c.insert? d = some c') :
    Fades resource c c' := by
  intro key r hkey hr
  rcases shown_of_insert? h key with hsame | ⟨rfl, -⟩
  · exact hsame ▸ hr
  · exact absurd hkey hne

end Collection

namespace ObjectStore

variable (store : ObjectStore τ) (aspect : τ → κ)

/-- An object lives under a key. -/
def Lives (c : Collection) (key : Key) (x : τ) : Prop :=
  ∃ r, c.shown key = some r ∧ store.codec.decode r.value = .ok x

/-- What is shown of a tenant decodes, and its objects differ in an aspect. -/
structure Distinct (tenant : String) (c : Collection) : Prop where
  decodes : ∀ key r, key.resource = store.resource tenant → c.shown key = some r →
    ∃ x, store.codec.decode r.value = .ok x
  apart : ∀ key key' x x', key.resource = store.resource tenant →
    key'.resource = store.resource tenant → store.Lives c key x → store.Lives c key' x' →
      aspect x = aspect x' → key = key'

/-- No object of a tenant agrees with a given one in an aspect. -/
def Vacant (tenant : String) (x : τ) (c : Collection) : Prop :=
  ∀ key y, key.resource = store.resource tenant → store.Lives c key y → aspect y ≠ aspect x

variable {store aspect} {tenant : String} {x y : τ} {key : Key}

theorem Lives.of_fades (h : Collection.Fades resource c c') (hkey : key.resource = resource)
    (hx : store.Lives c' key x) : store.Lives c key x := by
  obtain ⟨r, hr, hdecode⟩ := hx
  exact ⟨r, h key r hkey hr, hdecode⟩

/-- What lives after an addition lived before it, or it is what was added. -/
theorem Lives.of_insert? (hd : store.codec.decode d.value = .ok x) (h : c.insert? d = some c')
    (hy : store.Lives c' key y) : store.Lives c key y ∨ (key = d.key ∧ y = x) := by
  obtain ⟨r, hr, hdecode⟩ := hy
  rcases Collection.shown_of_insert? h key with hsame | ⟨rfl, hadded⟩
  · exact .inl ⟨r, hsame ▸ hr, hdecode⟩
  · right
    obtain ⟨-, hrecord⟩ := Document.record?_eq_some_iff.1 (hadded.symm.trans hr)
    have hvalue : d.value = r.value := by rw [hrecord, Record.document]
    rw [hvalue, hdecode] at hd
    exact ⟨rfl, Except.ok.inj hd⟩

theorem Vacant.of_fades (h : store.Vacant aspect tenant x c)
    (hfades : Collection.Fades (store.resource tenant) c c') : store.Vacant aspect tenant x c' :=
  fun key y hkey hy => h key y hkey (hy.of_fades hfades hkey)

namespace Distinct

theorem of_none (h : ∀ key, key.resource = store.resource tenant → c.shown key = none) :
    store.Distinct aspect tenant c := by
  constructor
  · intro key r hkey hr
    rw [h key hkey] at hr
    cases hr
  · rintro key key' x x' hkey - ⟨r, hr, -⟩
    rw [h key hkey] at hr
    cases hr

theorem of_fades (h : store.Distinct aspect tenant c)
    (hfades : Collection.Fades (store.resource tenant) c c') :
    store.Distinct aspect tenant c' := by
  constructor
  · intro key r hkey hr
    exact h.decodes key r hkey (hfades key r hkey hr)
  · intro key key' x x' hkey hkey' hx hx'
    exact h.apart key key' x x' hkey hkey' (hx.of_fades hfades hkey) (hx'.of_fades hfades hkey')

/-- **An object whose value of the aspect is vacant keeps the objects distinct**, also if it takes
the place of another one. -/
theorem insert? (h : store.Distinct aspect tenant c) (hvacant : store.Vacant aspect tenant x c)
    (hd : store.codec.decode d.value = .ok x) (hinsert : c.insert? d = some c') :
    store.Distinct aspect tenant c' := by
  -- decoding: a key shows what it showed, or the addition, and both decode
  constructor
  · intro key r hkey hr
    rcases Collection.shown_of_insert? hinsert key with hsame | ⟨-, hadded⟩
    · exact h.decodes key r hkey (hsame ▸ hr)
    · obtain ⟨-, hrecord⟩ := Document.record?_eq_some_iff.1 (hadded.symm.trans hr)
      exact ⟨x, by rw [← hd, hrecord, Record.document]⟩
  · intro key key' y y' hkey hkey' hy hy' hsame
    -- of two objects that agree, neither or both are the one that was added
    rcases hy.of_insert? hd hinsert with hold | ⟨rfl, rfl⟩ <;>
      rcases hy'.of_insert? hd hinsert with hold' | ⟨rfl, rfl⟩
    · exact h.apart key key' y y' hkey hkey' hold hold' hsame
    · exact absurd hsame (hvacant key y hkey hold)
    · exact absurd hsame.symm (hvacant key' y' hkey' hold')
    · rfl

/-- **Distinct objects are listed**: what is got under any context is in the list, and no value of
the aspect is there twice. -/
theorem list (h : store.Distinct aspect tenant c) {s : Setting} (hs : s.medium.Shows c) :
    ∃ objects, (store.list tenant {}).run s = (.ok objects, s) ∧
      (objects.map fun o => aspect o.data).Nodup ∧
      ∀ context, ∃ found, (store.get tenant context).run s = (.ok found, s) ∧
        ∀ o ∈ found, o ∈ objects := by
  refine ⟨_, store.run_list hs tenant, ?_, fun context => ?_⟩
  · have hlists := Store.lists_all hs (store.resource tenant)
    rw [List.Nodup, List.pairwise_map, objects, List.pairwise_filterMap]
    -- two records of the list stand in different contexts
    refine (List.pairwise_map.1 hlists.nodup).imp_of_mem ?_
    intro r r' hr hr' hne o ho o' ho' hsame
    obtain ⟨hresource, hread, -⟩ := (hlists.mem_iff r).1 hr
    obtain ⟨hresource', hread', -⟩ := (hlists.mem_iff r').1 hr'
    -- each of them is a live object under its own key
    have hlives {r : Record} {o : Object τ} (hread : (Store.read r.key).run s = (.ok (some r), s))
        (ho : (store.decoded r).toOption = some o) : store.Lives c r.key o.data :=
      ⟨r, hs.run_read_iff.1 hread, store.decode_of_decoded (store.toOption_decoded.1 ho)⟩
    exact hne (congrArg Key.context
      (h.apart _ _ _ _ hresource hresource' (hlives hread ho) (hlives hread' ho') hsame))
  · -- what is got under a context is shown there, so it is on the list as far as it decodes
    rw [store.run_get hs]
    cases hshown : c.shown ((store.resource tenant).key context) with
    | none => exact ⟨none, rfl, by simp⟩
    | some r =>
      obtain ⟨x, hx⟩ := h.decodes _ r rfl hshown
      have hdecoded := store.decoded_of_decode hx
      dsimp only
      rw [hdecoded]
      refine ⟨_, rfl, ?_⟩
      rintro o ⟨⟩
      exact store.mem_objects_listed.2 ⟨_, r, rfl, hshown, hdecoded⟩

end Distinct

end ObjectStore
end ConfigLedger
