import ConfigLedger.Backend.Disk

/-!
# Saving and finding files

What is saved at the end of a path is found there again (`Disk.Saves.save`), and a disk that lets
one content be saved lets any other be saved (`Disk.saves_iff`).

Where a path leads depends on the directories alone. Saving puts files where no directory is and
takes them away again, so all disks on the way agree on their directories (`Disk.Agree`).
-/

namespace ConfigLedger

namespace Disk

variable {a b c : Disk} {path : Path} {place : Place} {content : Content}

/-! ### Disks with the same directories -/

/-- The disks have the same directories. -/
def Agree (a b : Disk) : Prop :=
  ∀ place, a.at? place = some .directory ↔ b.at? place = some .directory

theorem Agree.symm (h : a.Agree b) : b.Agree a :=
  fun place => (h place).symm

theorem Agree.trans (h : a.Agree b) (h' : b.Agree c) : a.Agree c :=
  fun place => (h place).trans (h' place)

/-- The root is a directory. -/
theorem ne_nil_of_not_directory (h : a.at? place ≠ some .directory) : place ≠ [] := by
  rintro rfl
  exact h rfl

theorem agree_erase (h : a.at? place ≠ some .directory) : a.Agree (a.erase place) := by
  intro other
  by_cases hother : other = place
  · subst hother
    have hempty : (a.erase other).at? other = none := by
      rw [at?, if_neg (by simpa using ne_nil_of_not_directory h), List.lookup_eq_none_iff]
      intro entry hentry
      have hne : entry.1 ≠ other := by simpa using (List.mem_filter.1 hentry).2
      exact bne_iff_ne.2 hne.symm
    simp [h, hempty]
  · rw [at?_erase_of_ne hother]

theorem agree_put (h : a.at? place ≠ some .directory) (content : Content) :
    a.Agree (a.put place (.file content)) := by
  intro other
  by_cases hother : other = place
  · subst hother
    simp [h, at?_put_self (ne_nil_of_not_directory h)]
  · rw [at?_put_of_ne hother]

theorem Agree.enter (h : a.Agree b) {name : String} {target : Place}
    (henter : a.enter place name = .ok target) : b.enter place name = .ok target := by
  rw [Disk.enter] at henter
  split at henter
  · cases henter
  · cases henter
  · rename_i hdirectory
    rw [Disk.enter, (h place).1 hdirectory]
    exact henter

/-- **Paths lead to the same places.** -/
theorem Agree.walk (h : a.Agree b) {names : List String} (hwalk : a.walk names = .ok place) :
    b.walk names = .ok place := by
  rw [Disk.walk] at hwalk ⊢
  -- the way may start anywhere, or else the induction does not go through
  generalize ([] : Place) = start at hwalk ⊢
  induction names generalizing start with
  | nil => exact hwalk
  | cons name names ih =>
    rw [List.foldlM_cons] at hwalk ⊢
    cases henter : a.enter start name with
    | error e =>
      rw [henter] at hwalk
      cases hwalk
    | ok next =>
      rw [henter] at hwalk
      rw [h.enter henter]
      exact ih next hwalk

/-! ### Saving -/

theorem bind_eq_ok_iff {ε α β : Type} {x : Except ε α} {f : α → Except ε β} {y : β} :
    (x >>= f) = .ok y ↔ ∃ r, x = .ok r ∧ f r = .ok y := by
  cases x with
  | error e => exact ⟨fun h => (nomatch h), fun ⟨_, h, _⟩ => (nomatch h)⟩
  | ok r => exact ⟨fun h => ⟨r, rfl, h⟩, fun ⟨_, hr, h⟩ => Except.ok.inj hr ▸ h⟩

theorem walk_append (names : List String) (name : String) :
    a.walk (names ++ [name]) = a.walk names >>= fun around => a.enter around name := by
  rw [walk, List.foldlM_append]
  congr 1
  funext around
  rw [List.foldlM_cons]
  exact bind_pure _

/-- A file can be written where a path leads to no directory. -/
theorem writable_eq_ok_iff : a.writable path = .ok place ↔
    ∃ names, namesOf path = .ok names ∧ a.walk names = .ok place ∧
      a.at? place ≠ some .directory := by
  simp only [writable, bind_eq_ok_iff]
  refine exists_congr fun names => and_congr_right fun _ => ?_
  constructor
  · rintro ⟨target, hwalk, h⟩
    split at h
    · cases h
    · rename_i hne
      obtain rfl := Except.ok.inj h
      exact ⟨hwalk, hne⟩
  · rintro ⟨hwalk, hne⟩
    refine ⟨place, hwalk, ?_⟩
    split
    · contradiction
    · rfl

/-- A file can be renamed where a path ends with a name of its own and leads to no directory. -/
theorem renamable_eq_ok_iff : a.renamable path = .ok place ↔
    ∃ names name, namesOf path = .ok (names ++ [name]) ∧ name ≠ "." ∧ name ≠ ".." ∧
      a.walk (names ++ [name]) = .ok place ∧ path.slash = false ∧
      a.at? place ≠ some .directory := by
  simp only [renamable, bind_eq_ok_iff]
  constructor
  · rintro ⟨names, hnames, around, haround, target, htarget, h⟩
    split at h
    · cases h
    rename_i hname
    split at h
    · cases h
    rename_i hslash
    split at h
    · cases h
    rename_i hne
    obtain rfl := Except.ok.inj h
    -- the root has no name, and counts as a single dot
    obtain ⟨init, name, rfl⟩ : ∃ init name, names = init ++ [name] := by
      rcases names.eq_nil_or_concat with rfl | ⟨init, name, rfl⟩
      · simp at hname
      · exact ⟨init, name, List.concat_eq_append⟩
    simp only [List.dropLast_concat, List.getLast?_append, List.getLast?_singleton, Option.some_or,
      Option.getD_some] at haround htarget hname
    refine ⟨init, name, hnames, by simp_all, by simp_all, ?_, by simpa using hslash, hne⟩
    rw [walk_append, haround]
    exact htarget
  · rintro ⟨names, name, hnames, hdot, hdots, hwalk, hslash, hne⟩
    rw [walk_append] at hwalk
    obtain ⟨around, haround, htarget⟩ := bind_eq_ok_iff.1 hwalk
    refine ⟨_, hnames, around, by simpa using haround, place, by simpa using htarget, ?_⟩
    rw [List.getLast?_concat, Option.getD_some, if_neg (by simp [hdot, hdots]),
      if_neg (by simp [hslash])]
    split
    · contradiction
    · rfl

theorem Agree.writable (h : a.Agree b) (hwritable : a.writable path = .ok place) :
    b.writable path = .ok place := by
  obtain ⟨names, hnames, hwalk, hne⟩ := writable_eq_ok_iff.1 hwritable
  exact writable_eq_ok_iff.2 ⟨names, hnames, h.walk hwalk, fun h' => hne ((h place).2 h')⟩

theorem Agree.renamable (h : a.Agree b) (hrenamable : a.renamable path = .ok place) :
    b.renamable path = .ok place := by
  obtain ⟨names, name, hnames, hdot, hdots, hwalk, hslash, hne⟩ := renamable_eq_ok_iff.1 hrenamable
  exact renamable_eq_ok_iff.2
    ⟨names, name, hnames, hdot, hdots, h.walk hwalk, hslash, fun h' => hne ((h place).2 h')⟩

/-- The disk lets a file be saved at the end of a path, if nothing else makes that fail. -/
def Saves (disk : Disk) (path : Path) : Prop :=
  ∃ temporary place, disk.writable path.temporary = .ok temporary ∧ disk.renamable path = .ok place

theorem Saves.agree (hsaves : a.Saves path) (h : a.Agree b) : b.Saves path := by
  obtain ⟨temporary, place, htemporary, hplace⟩ := hsaves
  exact ⟨temporary, place, h.writable htemporary, h.renamable hplace⟩

/-- **A disk that lets one content be saved** lets any other be saved. -/
theorem saves_iff (content : Content) :
    a.Saves path ↔ (a.save path content none).1 = none := by
  cases htemporary : a.writable path.temporary with
  | error e => simp [Saves, save, htemporary]
  | ok temporary =>
    obtain ⟨_, _, _, hne⟩ := writable_eq_ok_iff.1 htemporary
    have hagree : a.Agree (a.put temporary (.file content)) := agree_put hne content
    cases hplace : (a.put temporary (.file content)).renamable path with
    | error e =>
      -- the file that was just written does not make the renaming fail
      have hnot (place : Place) : a.renamable path ≠ .ok place := by
        intro h
        rw [hagree.renamable h] at hplace
        cases hplace
      simp [Saves, save, htemporary, hplace, hnot]
    | ok place => simp [Saves, save, htemporary, hplace, hagree.symm.renamable hplace]

/-- A save that succeeds meets no failure. -/
theorem of_save_eq_none {failure : Option Failure} (h : (a.save path content failure).1 = none) :
    failure = none ∧ a.Saves path := by
  rcases failure with _ | failure
  · exact ⟨rfl, (saves_iff content).2 h⟩
  · have hne : (a.save path content (some failure)).1 ≠ none := by
      unfold save
      cases a.writable path.temporary <;> cases failure <;> simp
    exact absurd h hne

/-- A file is found where a path leads to it. -/
theorem find_eq_ok {names : List String} (hnames : namesOf path = .ok names)
    (hwalk : a.walk names = .ok place) (hslash : path.slash = false)
    (hfile : a.at? place = some (.file content)) : a.find path = .ok (.file content) := by
  simp only [find, bind_eq_ok_iff]
  refine ⟨names, hnames, place, hwalk, ?_⟩
  rw [hfile, hslash]
  rfl

/-- **What is saved is found**, and the directories stay as they are. -/
theorem Saves.save (h : a.Saves path) (content : Content) :
    ∃ b, a.save path content none = (none, b) ∧ a.Agree b ∧
      b.find path = .ok (.file content) := by
  obtain ⟨temporary, place, htemporary, hplace⟩ := h
  -- the temporary file is written, and the path still leads to its place
  obtain ⟨_, _, _, hne⟩ := writable_eq_ok_iff.1 htemporary
  have hwritten : a.Agree (a.put temporary (.file content)) := agree_put hne content
  have hplace' := hwritten.renamable hplace
  obtain ⟨names, name, hnames, -, -, hwalk, hslash, hne'⟩ := renamable_eq_ok_iff.1 hplace'
  have hfile : (a.put temporary (.file content)).at? temporary = some (.file content) :=
    at?_put_self (ne_nil_of_not_directory hne)
  -- the file takes its place, and leaves the temporary one
  have hmove : (a.put temporary (.file content)).move temporary place =
      ((a.put temporary (.file content)).erase temporary).put place (.file content) := by
    rw [move, hfile]
  have herased : (a.put temporary (.file content)).Agree
      ((a.put temporary (.file content)).erase temporary) :=
    agree_erase (by simp [hfile])
  have hmoved : (a.put temporary (.file content)).Agree
      ((a.put temporary (.file content)).move temporary place) := by
    rw [hmove]
    exact herased.trans (agree_put (fun h => hne' ((herased place).2 h)) content)
  -- the path leads to the place that the file was moved to
  refine ⟨(a.put temporary (.file content)).move temporary place, ?_, hwritten.trans hmoved, ?_⟩
  · simp [Disk.save, htemporary, hplace']
  · refine find_eq_ok hnames (hmoved.walk hwalk) hslash ?_
    rw [hmove]
    exact at?_put_self (ne_nil_of_not_directory hne')

end Disk

end ConfigLedger
