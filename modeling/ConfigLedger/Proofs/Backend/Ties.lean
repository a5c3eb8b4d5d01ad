import ConfigLedger.Proofs.Backend.History

/-!
# Versions that are rounded to one number

Versions are 64-bit naturals, but the query for the latest version of a key compares them as
binary64 numbers. Rounding keeps the order, so nothing is found before the newest version of the
key except what is rounded to the same number. As a collection lists the versions of a key by
rising version and the sort is stable, it is the lowest of these that is found
(`latest_of_newest`).

So the newest version is found exactly if the history is settled at its end, that is if no other
version of the key is rounded to the number of the newest one (`latest_eq_newest_iff`). As long as
the versions of a key are binary64 numbers themselves, its history is settled (`ExactAt.settled`).
-/

namespace ConfigLedger

open Binary64 (ofUInt64 ofUInt64_eq_iff rank_ofUInt64_le)

namespace Collection

variable {c c' : Collection} {d e : Document} {key : Key}

/-- No other version of the key is rounded to the number of its newest version. -/
def Settled (c : Collection) (key : Key) : Prop :=
  ∀ e, c.newest key = some e →
    ∀ d ∈ c.history key, ofUInt64 d.version = ofUInt64 e.version → d = e

theorem compareBy_newestFirst_eq_iff (d e : Document) :
    compareBy Document.field [newestFirst] d e = .eq ↔
      ofUInt64 d.version = ofUInt64 e.version := by
  rw [Document.compareBy_newestFirst, compare_eq_iff_eq, ofUInt64_eq_iff, eq_comm]

/-- The falling sort puts no version before the newest one that is not rounded to its number. -/
theorem isLE_newest (h : c.newest key = some e) (hd : d ∈ c.history key) :
    (compareBy Document.field [newestFirst] e d).isLE = true := by
  obtain ⟨hmem, hkey⟩ := mem_history.1 hd
  have hrank : (ofUInt64 d.version).rank ≤ (ofUInt64 e.version).rank :=
    rank_ofUInt64_le (version_le_newest h hmem hkey)
  rw [Document.compareBy_newestFirst, Ordering.isLE_iff_ne_gt]
  exact compare_le_iff_le.2 hrank

/-- **What is found of a key** is the lowest of the versions that are rounded to the number of the
newest one. -/
theorem latest_of_newest (h : c.newest key = some e) :
    c.latest key =
      (c.history key).find? fun d => decide (ofUInt64 d.version = ofUInt64 e.version) := by
  have hmem : e ∈ c.history key := List.mem_of_getLast? h
  have htied : (fun d => compareBy Document.field [newestFirst] d e == .eq) =
      fun d => decide (ofUInt64 d.version = ofUInt64 e.version) := by
    ext d
    rw [Bool.eq_iff_iff, beq_iff_eq, decide_eq_true_iff, compareBy_newestFirst_eq_iff]
  rw [latest, head?_sortBy hmem fun d hd => isLE_newest h hd, htied]

theorem latest_of_newest_eq_none (h : c.newest key = none) : c.latest key = none := by
  have hnil : c.history key = [] := List.getLast?_eq_none_iff.1 h
  simp [latest, hnil, sortBy]

/-- Where there are versions one is found, and it is rounded to the number of the newest one. -/
theorem exists_latest (h : c.newest key = some e) :
    ∃ d, c.latest key = some d ∧ ofUInt64 d.version = ofUInt64 e.version := by
  have hmem : e ∈ c.history key := List.mem_of_getLast? h
  rw [latest_of_newest h]
  cases hfound : (c.history key).find? fun d =>
      decide (ofUInt64 d.version = ofUInt64 e.version) with
  | none => simpa using List.find?_eq_none.1 hfound e hmem
  | some d => exact ⟨d, rfl, by simpa using List.find?_some hfound⟩

theorem exists_newest (hd : d ∈ c.documents) : ∃ e, c.newest d.key = some e := by
  cases hnewest : c.newest d.key with
  | none => exact absurd rfl (newest_eq_none_iff.1 hnewest d hd)
  | some e => exact ⟨e, rfl⟩

/-- The only version of a key is found. -/
theorem latest_of_only (hd : d ∈ c.documents) (honly : ∀ e ∈ c.documents, e.key = d.key → e = d) :
    c.latest d.key = some d := by
  obtain ⟨e, hnewest⟩ := exists_newest hd
  obtain ⟨found, hlatest, -⟩ := exists_latest hnewest
  obtain ⟨hfound, hkey⟩ := mem_documents_of_latest hlatest
  rw [hlatest, honly found hfound hkey]

/-- **The newest version is found exactly if no other one is rounded to its number.** -/
theorem latest_eq_newest_iff : c.latest key = c.newest key ↔ c.Settled key := by
  constructor
  · intro hlatest e hnewest d hd htie
    -- of the versions with this number the newest one was found first, so none is lower
    rw [hnewest, latest_of_newest hnewest] at hlatest
    obtain ⟨-, before, behind, hhistory, hbefore⟩ := List.find?_eq_some_iff_append.1 hlatest
    -- the history rises, so what comes after `e` is higher
    have hpair := c.pairwise_history key
    rw [hhistory] at hd hpair
    rcases List.mem_append.1 hd with hd | hd
    · have hapart := hbefore d hd
      simp [htie] at hapart
    · rcases List.mem_cons.1 hd with rfl | hd
      · rfl
      -- and none is higher, as it is the newest
      · have hlt : e.version < d.version :=
          (List.pairwise_cons.1 (List.pairwise_append.1 hpair).2.1).1 d hd
        have hmem : d ∈ c.history key := by
          rw [hhistory]
          simp [hd]
        obtain ⟨hmem, hkey⟩ := mem_history.1 hmem
        exact absurd (version_le_newest hnewest hmem hkey) (UInt64.not_le.2 hlt)
  · -- the version that is found has the number of the newest one, so it is the newest one
    intro hsettled
    cases hnewest : c.newest key with
    | none => exact latest_of_newest_eq_none hnewest
    | some e =>
      obtain ⟨d, hlatest, htie⟩ := exists_latest hnewest
      have hmem : d ∈ c.history key := mem_history.2 (mem_documents_of_latest hlatest)
      rw [hlatest, hsettled e hnewest d hmem htie]

/-! ### The version behind the one that is found -/

/-- The version behind the one that is found of a key is rounded to a larger number. -/
def NextRises (c : Collection) (key : Key) : Prop :=
  ∀ d, c.latest key = some d → (ofUInt64 d.version).rank < (ofUInt64 (d.version + 1)).rank

/-- Nothing that is stored under a key is rounded to a larger number than what is found. -/
theorem rank_le_latest (h : c.latest key = some e) (hd : d ∈ c.documents) (hkey : d.key = key) :
    (ofUInt64 d.version).rank ≤ (ofUInt64 e.version).rank := by
  subst hkey
  obtain ⟨f, hnewest⟩ := exists_newest hd
  obtain ⟨e', he', htie⟩ := exists_latest hnewest
  obtain rfl : e' = e := Option.some.inj (he'.symm.trans h)
  rw [htie]
  exact rank_ofUInt64_le (version_le_newest hnewest hd rfl)

/-- Of two versions that are rounded to one number the lower one is found. -/
theorem latest_ne_of_tied (hd : d ∈ c.documents) (he : e ∈ c.documents) (hkey : e.key = d.key)
    (hlt : e.version < d.version) (htie : ofUInt64 e.version = ofUInt64 d.version) :
    c.latest d.key ≠ some d := by
  intro hfound
  obtain ⟨f, hnewest⟩ := exists_newest hd
  rw [latest_of_newest hnewest] at hfound
  -- the one that is found is the first with the number of the newest version
  obtain ⟨hdf, before, behind, hhistory, hbefore⟩ := List.find?_eq_some_iff_append.1 hfound
  have hmem : e ∈ c.history d.key := mem_history.2 ⟨he, hkey⟩
  have hpair := c.pairwise_history d.key
  rw [hhistory] at hmem hpair
  rcases List.mem_append.1 hmem with he | he
  · -- in front of what is found nothing has the number of the newest version
    have hapart := hbefore e he
    rw [htie, hdf] at hapart
    cases hapart
  · rcases List.mem_cons.1 he with rfl | he
    · -- behind it all versions are higher
      exact UInt64.lt_irrefl _ hlt
    · have hgt := (List.pairwise_cons.1 (List.pairwise_append.1 hpair).2.1).1 e he
      exact UInt64.lt_irrefl _ (UInt64.lt_trans hlt hgt)

/-- **An addition behind the version that is found** is found itself exactly if its number is a
larger one. -/
theorem latest_of_insert?_iff (h : c.insert? d = some c')
    (hnext : ∀ e, c.latest d.key = some e → d.version = e.version + 1) :
    c'.latest d.key = some d ↔ c.NextRises d.key := by
  have hd : d ∈ c'.documents := (mem_of_insert?_eq_some h).2 (.inl rfl)
  constructor
  · intro hfound e hlatest
    have hversion := hnext e hlatest
    obtain ⟨he, hkey⟩ := mem_documents_of_latest hlatest
    have hstays : e ∈ c'.documents := subset_insert? h he
    rw [← hversion]
    refine lt_of_le_of_ne (rank_le_latest hfound hstays hkey) fun heq => ?_
    -- both are rounded to one number, so the lower one would have been found
    have htie : ofUInt64 e.version = ofUInt64 d.version := ofUInt64_eq_iff.2 heq
    by_cases hlast : e.version = 18446744073709551615
    · -- the next version would be zero, which is rounded to another number
      rw [hversion, hlast] at htie
      exact absurd htie (by decide +kernel)
    · -- the next version is higher, as it did not wrap around
      have hbelow : e.version.toNat + 1 < 2 ^ 64 := by
        have hne : e.version.toNat ≠ 18446744073709551615 := fun heq =>
          hlast (UInt64.toNat_inj.1 heq)
        have hle := e.version.toNat_lt
        omega
      have hlt : e.version < d.version := by
        rw [hversion, UInt64.lt_iff_toNat_lt, UInt64.toNat_add, UInt64.toNat_one,
          Nat.mod_eq_of_lt hbelow]
        exact Nat.lt_succ_self _
      exact latest_ne_of_tied hd hstays hkey hlt htie hfound
  · intro hrises
    rcases latest_of_insert? h d.key with hsame | ⟨-, hfound⟩
    · -- what was found before is not found any more, as the addition has a larger number
      obtain ⟨f, hnewest⟩ := exists_newest hd
      obtain ⟨e, hlatest, -⟩ := exists_latest hnewest
      have hbefore : c.latest d.key = some e := hsame.symm.trans hlatest
      have hle := rank_le_latest hlatest hd rfl
      rw [hnext e hbefore] at hle
      exact absurd (hrises e hbefore) (not_lt.2 hle)
    · exact hfound

/-! ### Versions that can be told apart -/

theorem ExactAt.settled (h : c.ExactAt key) : c.Settled key := by
  intro e hnewest d hd htie
  obtain ⟨hdmem, hdkey⟩ := mem_history.1 hd
  obtain ⟨hemem, hekey⟩ := mem_documents_of_newest hnewest
  have hequal : (ofUInt64 d.version).equal (ofUInt64 e.version) = true := by
    rw [htie, Binary64.equal, beq_self_eq_true]
  have hversion :=
    (Binary64.equal_ofUInt64 (h d hd) (h e (mem_history.2 ⟨hemem, hekey⟩))).1 hequal
  exact eq_of_sameVersion hdmem hemem
    (Document.sameVersion_iff.2 ⟨hdkey.trans hekey.symm, hversion⟩)

/-- **The query for the latest version of a key finds its newest version**, where the versions of
the key can be told apart. -/
theorem ExactAt.latest_eq (h : c.ExactAt key) : c.latest key = c.newest key :=
  latest_eq_newest_iff.2 h.settled

theorem Exact.latest_eq (h : c.Exact) (key : Key) : c.latest key = c.newest key :=
  (h.exactAt key).latest_eq

/-! ### Two versions -/

section

variable (hkey : d.key = e.key) (hlt : d.version < e.version)

/-- Two versions of one key. -/
def pair (d e : Document) (hkey : d.key = e.key) (hlt : d.version < e.version) : Collection :=
  ⟨[d, e], List.pairwise_pair.2 (.inr ⟨hkey, hlt⟩)⟩

theorem history_pair : (pair d e hkey hlt).history e.key = [d, e] := by
  simp [history, pair, hkey]

theorem newest_pair : (pair d e hkey hlt).newest e.key = some e := by
  rw [newest, history_pair]
  rfl

/-- Of two versions that are rounded to one number the lower one is found. -/
theorem latest_pair (htie : ofUInt64 d.version = ofUInt64 e.version) :
    (pair d e hkey hlt).latest e.key = some d := by
  rw [latest_of_newest (newest_pair hkey hlt), history_pair]
  exact List.find?_cons_of_pos (decide_eq_true htie)

theorem settled_pair (hapart : ofUInt64 d.version ≠ ofUInt64 e.version) :
    (pair d e hkey hlt).Settled e.key := by
  intro newest hnewest f hf htie
  rw [newest_pair] at hnewest
  obtain rfl := Option.some.inj hnewest
  rw [history_pair] at hf
  rcases List.mem_pair.1 hf with rfl | rfl
  · exact absurd htie hapart
  · rfl

end

/-- The first natural that is no binary64 number is rounded down. -/
theorem ofUInt64_exactBound : ofUInt64 9007199254740992 = ofUInt64 9007199254740993 := by
  decide +kernel

end Collection
end ConfigLedger
