import ConfigLedger.Proofs.Backend.Disk
import Mathlib.Data.List.Induction
import Mathlib.Data.List.TakeWhile

/-!
# Where the temporary file lies

The temporary file of a path lies in the directory of the file itself, and its name is the last name
of the path with `.tmp` in the place of its extension (`Disk.of_writable_temporary`). What a path
finds depends on the directories on the way and on what is at its last name
(`Disk.find_of_walk`), so writing the temporary file changes nothing for the path but where both
have the same name. That is the case for names that end with `.tmp` already (`Path.NamedTemporary`,
`Path.stem_append_tmp_eq_iff`).
-/

namespace ConfigLedger

/-! ### Names -/

namespace Path

/-- The last name of the path is that of a temporary file: something, and `.tmp` behind it. -/
def NamedTemporary (path : Path) : Prop :=
  ∃ stem, stem ≠ "" ∧ path.trimmed.getLast? = some (stem ++ ".tmp")

/-- The names in front of the last one. -/
def namesAround (path : Path) : List String :=
  path.trimmed.dropLast.filter (· ≠ "")

variable {path : Path} {name : String}

theorem stem_append_tmp {stem : String} (h : stem ≠ "") : Path.stem (stem ++ ".tmp") = stem := by
  have hne : stem.toList ≠ [] := by simpa using h
  simp [Path.stem, hne]

theorem stem_ne_empty (h : name ≠ "") : Path.stem name ≠ "" := by
  rw [Path.stem]
  split
  · exact h
  · rename_i hstem
    simpa using hstem

/-- **A name is that of its own temporary file** exactly if it ends with `.tmp`, with something in
front of that. -/
theorem stem_append_tmp_eq_iff (hname : name ≠ "") :
    Path.stem name ++ ".tmp" = name ↔ ∃ stem, stem ≠ "" ∧ name = stem ++ ".tmp" := by
  constructor
  · exact fun h => ⟨Path.stem name, stem_ne_empty hname, h.symm⟩
  · rintro ⟨stem, hstem, rfl⟩
    rw [stem_append_tmp hstem]

/-- Behind the last name there are slashes and single dots at most. -/
theorem exists_segments_eq (path : Path) :
    ∃ behind, path.segments = path.trimmed ++ behind ∧ ∀ s ∈ behind, s = "" ∨ s = "." := by
  let behind := path.segments.reverse.takeWhile fun s => s == "" || s == "."
  refine ⟨behind.reverse, ?_, fun s hs => ?_⟩
  · rw [trimmed, ← List.reverse_append, List.takeWhile_append_dropWhile, List.reverse_reverse]
  · have := List.mem_takeWhile_imp (List.mem_reverse.1 hs)
    simpa using this

theorem ne_of_getLast? (h : path.trimmed.getLast? = some name) : name ≠ "" ∧ name ≠ "." := by
  rw [trimmed, List.getLast?_reverse] at h
  have := List.head?_dropWhile_not (fun s => s == "" || s == ".") path.segments.reverse
  rw [h] at this
  simpa using this

/-- The names of a path: those around the last one, that one, and single dots. -/
theorem exists_names_eq (h : path.trimmed.getLast? = some name) :
    ∃ dots, path.names = path.namesAround ++ name :: List.replicate dots "." ∧
      (path.segments = path.trimmed ↔ dots = 0 ∧ path.slash = false) := by
  -- behind the last name there are only dots and the empty segments of slashes, which are no names
  obtain ⟨behind, hsegments, hbehind⟩ := path.exists_segments_eq
  obtain ⟨around, htrimmed⟩ := List.getLast?_eq_some_iff.1 h
  have hdots : behind.filter (· ≠ "") = List.replicate (behind.filter (· ≠ "")).length "." := by
    refine List.eq_replicate_iff.2 ⟨rfl, fun s hs => ?_⟩
    obtain ⟨hs, hne⟩ := List.mem_filter.1 hs
    exact (hbehind s hs).resolve_left (by simpa using hne)
  refine ⟨(behind.filter (· ≠ "")).length, ?_, ?_⟩
  · rw [← hdots, names, hsegments, List.filter_append, namesAround, htrimmed]
    simp [(ne_of_getLast? h).1]
  · rw [hsegments, List.append_right_eq_self]
    constructor
    · rintro rfl
      refine ⟨rfl, ?_⟩
      rw [slash, hsegments, List.append_nil, h]
      simpa using (ne_of_getLast? h).1
    · -- with no dots there are slashes only, and the last one would be at the end
      rintro ⟨hlength, hslash⟩
      rcases behind.eq_nil_or_concat with hnil | ⟨init, s, rfl⟩
      · exact hnil
      · have hs : s = "" := by
          by_contra hne
          have hmem : s ∈ (init.concat s).filter (· ≠ "") := by simp [hne]
          exact List.ne_nil_of_mem hmem (List.eq_nil_of_length_eq_zero hlength)
        rw [slash, hsegments] at hslash
        simp [hs] at hslash

/-- A path without a last name, or with two dots for it, has no temporary file of its own. -/
theorem temporary_eq_self (h : path.trimmed.getLast? = none ∨ path.trimmed.getLast? = some "..") :
    path.temporary = path := by
  rcases h with h | h <;> simp [temporary, h]

/-- The names of the temporary file are those around the last name and one more, which is made of
the last name or leads back. -/
theorem names_temporary (h : path.trimmed.getLast? = some name) (hparent : name ≠ "..") :
    ∃ last, path.temporary.names = path.namesAround ++ [last] ∧
      (last = Path.stem name ++ ".tmp" ∨ last = "..") := by
  have htemporary : path.temporary = ⟨path.trimmed.dropLast ++
      [if path.trimmed = path.segments ∧ Path.stem name = "." then ".."
        else Path.stem name ++ ".tmp"]⟩ := by
    rw [temporary, h]
    simp
  -- cut off behind its dot, the name may be two dots, which lead back
  rw [htemporary]
  split_ifs
  · exact ⟨"..", by simp [names, namesAround], .inr rfl⟩
  · exact ⟨_, by simp [names, namesAround], .inl rfl⟩

end Path

/-! ### Following paths -/

namespace Disk

variable {disk a b : Disk} {path : Path} {name : String} {place around : Place}

theorem enter_eq_ok_iff : disk.enter around name = .ok place ↔
    disk.at? around = some .directory ∧ (name = "." ∧ place = around ∨
      name = ".." ∧ place = around.tail ∨
      name ≠ "." ∧ name ≠ ".." ∧ name.utf8ByteSize ≤ nameLimit ∧ place = name :: around) := by
  rw [enter]
  cases disk.at? around with
  | none => simp
  | some occupant =>
    cases occupant with
    | file content => simp
    | directory =>
      -- a name is looked up in a directory only, and `.`, `..` and long names are told apart in
      -- turn
      dsimp only
      by_cases hdot : name = "."
      · simp [hdot, eq_comm]
      by_cases hdots : name = ".."
      · simp [hdots, eq_comm]
      by_cases hlong : nameLimit < name.utf8ByteSize
      · simp [hdot, hdots, hlong, Nat.not_le.2 hlong]
      · simp [hdot, hdots, hlong, Nat.not_lt.1 hlong, eq_comm]

/-- A way that was followed leads through directories. -/
theorem at?_of_suffix {names : List String} (h : disk.walk names = .ok place) {outer : Place}
    (hsuffix : outer <:+ place) (hne : outer ≠ place) : disk.at? outer = some .directory := by
  -- the way is cut at its last name
  induction names using List.reverseRecOn generalizing place outer with
  | nil =>
    obtain rfl := Except.ok.inj h
    exact absurd (List.suffix_nil.1 hsuffix) hne
  | append_singleton names name ih =>
    rw [walk_append] at h
    obtain ⟨around, haround, henter⟩ := bind_eq_ok_iff.1 h
    -- what is around the place that was entered is one of the directories on the way
    have hwithin {outer : Place} (hsuffix : outer <:+ around) :
        disk.at? outer = some .directory := by
      by_cases heq : outer = around
      · exact heq ▸ (enter_eq_ok_iff.1 henter).1
      · exact ih haround hsuffix heq
    obtain ⟨-, ⟨-, rfl⟩ | ⟨-, rfl⟩ | ⟨-, -, -, rfl⟩⟩ := enter_eq_ok_iff.1 henter
    · exact hwithin hsuffix
    · exact hwithin (hsuffix.trans (List.tail_suffix _))
    · exact hwithin ((List.suffix_cons_iff.1 hsuffix).resolve_left hne)

/-- A way that ends with dots, or goes nowhere, ends at a directory. -/
theorem at?_of_dots {names : List String} (h : disk.walk names = .ok place)
    (hlast : ∀ name, names.getLast? = some name → name = "." ∨ name = "..") :
    disk.at? place = some .directory := by
  -- only the last step matters
  rcases names.eq_nil_or_concat with rfl | ⟨init, name, rfl⟩
  · obtain rfl := Except.ok.inj h
    rfl
  rw [List.concat_eq_append] at h hlast
  have hname := hlast name List.getLast?_concat
  rw [walk_append] at h
  obtain ⟨around, haround, henter⟩ := bind_eq_ok_iff.1 h
  obtain ⟨hdirectory, ⟨-, rfl⟩ | ⟨-, rfl⟩ | ⟨hdot, hdots, -⟩⟩ := enter_eq_ok_iff.1 henter
  · exact hdirectory
  · -- `..` leads to what is around a place, and at the root it stays there
    cases around with
    | nil => rfl
    | cons inner outer => exact at?_of_suffix haround (List.suffix_cons _ _) (by simp)
  · exact absurd hname (not_or.2 ⟨hdot, hdots⟩)

/-- Single dots lead nowhere else, but only a directory has them. -/
theorem foldlM_enter_dots (disk : Disk) (place : Place) (dots : Nat) :
    (List.replicate dots ".").foldlM disk.enter place =
      if dots = 0 then .ok place else disk.enter place "." := by
  induction dots with
  | zero => rfl
  | succ n ih =>
    -- the first dot stays where it is if it leads anywhere, so the others repeat it
    rw [List.replicate_succ, List.foldlM_cons, if_neg (Nat.succ_ne_zero n)]
    cases henter : disk.enter place "." with
    | error e => rfl
    | ok next =>
      obtain ⟨-, ⟨-, rfl⟩ | ⟨h, -⟩ | ⟨h, -⟩⟩ := enter_eq_ok_iff.1 henter
      · change (List.replicate n ".").foldlM disk.enter next = _
        rw [ih, henter, ite_self]
      · exact absurd h (by decide)
      · exact absurd rfl h

/-- What is found at the end of a path whose last name leads to a place. What is no directory is
only found without slashes and dots behind its name. -/
def ending (path : Path) : Option Occupant → Except PathError Occupant
  | none => .error .missing
  | some (.file content) =>
    if path.segments = path.trimmed then .ok (.file content) else .error .notDirectory
  | some .directory => .ok .directory

theorem eq_names_of_namesOf {names : List String} (h : namesOf path = .ok names) :
    names = path.names := by
  rw [namesOf] at h
  split_ifs at h
  exact (Except.ok.inj h).symm

/-- Where the names of a path lead, up to the last name and behind it. -/
theorem walk_names (hlast : path.trimmed.getLast? = some name) (hparent : name ≠ "..")
    (hwalk : disk.walk path.namesAround = .ok around) (haround : disk.at? around = some .directory)
    {dots : Nat} (hnames : path.names = path.namesAround ++ name :: List.replicate dots ".") :
    disk.walk path.names =
      if nameLimit < name.utf8ByteSize then .error .nameTooLong
      else if dots = 0 then .ok (name :: around) else disk.enter (name :: around) "." := by
  have hdot : name ≠ "." := (Path.ne_of_getLast? hlast).2
  -- up to the last name the way is as given, and what is left are this name and the dots
  rw [hnames, walk, List.foldlM_append, ← walk, hwalk]
  change (disk.enter around name >>= (List.replicate dots ".").foldlM disk.enter) = _
  rw [enter, haround]
  simp only [hdot, hparent, if_false]
  split_ifs with hlong hnone
  · rfl
  · rw [hnone]
    rfl
  · change (List.replicate dots ".").foldlM disk.enter (name :: around) = _
    rw [foldlM_enter_dots, if_neg hnone]

/-- **What a path finds** depends on the directories on the way and on what is at its last name. -/
theorem find_of_walk (hlast : path.trimmed.getLast? = some name) (hparent : name ≠ "..")
    (hwalk : disk.walk path.namesAround = .ok around)
    (haround : disk.at? around = some .directory) :
    disk.find path = namesOf path >>= fun _ =>
      if nameLimit < name.utf8ByteSize then .error .nameTooLong
      else ending path (disk.at? (name :: around)) := by
  -- cut the names before the last one that is no dot
  obtain ⟨dots, hnames, htrimmed⟩ := Path.exists_names_eq hlast
  rw [find]
  -- a path that is no text the disk takes finds nothing on either side
  cases hnamesOf : namesOf path with
  | error e => rfl
  | ok names =>
    obtain rfl := eq_names_of_namesOf hnamesOf
    change (disk.walk path.names >>= fun place => _) = if _ then _ else _
    rw [walk_names hlast hparent hwalk haround hnames]
    -- a name that is too long fails before it is looked up
    by_cases hlong : nameLimit < name.utf8ByteSize
    · rw [if_pos hlong, if_pos hlong]
      rfl
    rw [if_neg hlong, if_neg hlong]
    by_cases hnone : dots = 0
    · -- the name is the last part of the path but for slashes
      rw [if_pos hnone]
      change (match disk.at? (name :: around) with
        | none => _ | some (.file content) => _ | some .directory => _) = _
      have hslash : path.segments = path.trimmed ↔ path.slash = false := by simp [htrimmed, hnone]
      rcases disk.at? (name :: around) with _ | _ | content
      · rfl
      · rfl
      · cases hs : path.slash <;> simp [ending, hslash, hs]
    · -- a dot stands behind the name, so only a directory is of use
      rw [if_neg hnone, enter]
      have hbehind : path.segments ≠ path.trimmed := by simp [htrimmed, hnone]
      rcases hat : disk.at? (name :: around) with _ | _ | content
      · rfl
      · change (match disk.at? (name :: around) with
          | none => _ | some (.file content) => _ | some .directory => _) = _
        rw [hat]
        rfl
      · rw [ending, if_neg hbehind]
        rfl

/-! ### The place of the temporary file -/

/-- A path whose last name is missing or two dots leads to a directory. -/
theorem not_writable_of_parent (hlast : ∀ name, path.names.getLast? = some name →
    name = "." ∨ name = "..") : disk.writable path ≠ .ok place := by
  intro h
  obtain ⟨names, hnames, hwalk, hne⟩ := writable_eq_ok_iff.1 h
  obtain rfl := eq_names_of_namesOf hnames
  exact hne (at?_of_dots hwalk hlast)

/-- **The temporary file lies beside the file**, under its name with `.tmp` in the place of the
extension. -/
theorem of_writable_temporary (h : disk.writable path.temporary = .ok place) :
    ∃ name around, path.trimmed.getLast? = some name ∧ name ≠ ".." ∧
      disk.walk path.namesAround = .ok around ∧ disk.at? around = some .directory ∧
      place = (Path.stem name ++ ".tmp") :: around ∧ disk.at? place ≠ some .directory ∧
      (Path.stem name ++ ".tmp").utf8ByteSize ≤ nameLimit := by
  cases hlast : path.trimmed.getLast? with
  | none =>
    -- nothing but slashes and dots, which lead to the root
    obtain ⟨behind, hsegments, hbehind⟩ := path.exists_segments_eq
    rw [List.getLast?_eq_none_iff.1 hlast, List.nil_append] at hsegments
    rw [Path.temporary_eq_self (.inl hlast)] at h
    refine absurd h (not_writable_of_parent fun name hname => .inl ?_)
    have hmem : name ∈ path.names := List.mem_of_getLast? hname
    rw [Path.names, hsegments, List.mem_filter] at hmem
    exact (hbehind name hmem.1).resolve_left (by simpa using hmem.2)
  | some name =>
    obtain ⟨hempty, hdot⟩ := Path.ne_of_getLast? hlast
    by_cases hparent : name = ".."
    · -- the directory around, with more dots behind it
      subst hparent
      rw [Path.temporary_eq_self (.inr hlast)] at h
      refine absurd h (not_writable_of_parent fun name hname => ?_)
      obtain ⟨dots, hnames, -⟩ := Path.exists_names_eq hlast
      rw [hnames, List.getLast?_append] at hname
      rcases List.mem_cons.1 (List.mem_of_getLast? hname) with hname | hname
      · exact .inr hname
      · exact .inl (List.eq_of_mem_replicate hname)
    · -- the last name is one of a file, so the temporary file lies in the same directory
      obtain ⟨last, hnames, hcases⟩ := Path.names_temporary hlast hparent
      rcases hcases with rfl | rfl
      · -- `.tmp` takes the place of the extension
        obtain ⟨names, hnamesOf, hwalk, hne⟩ := writable_eq_ok_iff.1 h
        rw [eq_names_of_namesOf hnamesOf, hnames, walk_append] at hwalk
        obtain ⟨around, haround, henter⟩ := bind_eq_ok_iff.1 hwalk
        refine ⟨name, around, rfl, hparent, haround, ?_⟩
        -- the name is longer than any dots
        have hlong : 4 ≤ (Path.stem name ++ ".tmp").utf8ByteSize := by
          rw [String.utf8ByteSize_append]
          exact Nat.le_add_left _ _
        obtain ⟨hdirectory, ⟨hlast, -⟩ | ⟨hlast, -⟩ | ⟨-, -, hsize, hplace⟩⟩ :=
          enter_eq_ok_iff.1 henter
        · rw [hlast] at hlong
          exact absurd hlong (by decide)
        · rw [hlast] at hlong
          exact absurd hlong (by decide)
        · exact ⟨hdirectory, hplace, hne, hsize⟩
      · -- the name leads back, to a directory
        refine absurd h (not_writable_of_parent fun name hname => .inr ?_)
        rw [hnames, List.getLast?_concat] at hname
        exact (Option.some.inj hname).symm

/-! ### Saves that fail -/

/-- **A save that failed** left the disk as it was, or some content in the temporary file. -/
theorem of_save_eq_some {content : Content} {failure : Option Failure} {reason : String}
    (h : (disk.save path content failure).1 = some reason) :
    (disk.save path content failure).2 = disk ∨
      ∃ place left, disk.writable path.temporary = .ok place ∧
        (disk.save path content failure).2 = disk.put place (.file left) := by
  -- what is left depends on how far the save came
  unfold save at h ⊢
  cases hwritable : disk.writable path.temporary with
  | error e => exact .inl rfl
  | ok place =>
    rw [hwritable] at h
    rcases failure with _ | _ | ⟨_, left⟩ | _
    · -- the disk does not fail, but the renaming may be refused
      dsimp only at h ⊢
      split at h
      · exact .inr ⟨place, content, rfl, rfl⟩
      · cases h
    · exact .inl rfl
    · exact .inr ⟨place, left, rfl, rfl⟩
    · exact .inr ⟨place, content, rfl, rfl⟩

/-- The path is that of its own temporary file, which can be written, and it leads to a file or to
where one can be created. -/
structure Clashes (disk : Disk) (path : Path) : Prop where
  named : path.NamedTemporary
  writable : ∃ place, disk.writable path.temporary = .ok place
  ends : (∃ content, disk.find path = .ok (.file content)) ∨ disk.find path = .error .missing

theorem namesOf_ne_missing : namesOf path ≠ .error .missing := by
  rw [namesOf]
  split_ifs <;> simp

/-- What a path finds before and after its temporary file was written. -/
theorem find_put_temporary (h : disk.writable path.temporary = .ok place) (left : Content) :
    ¬ path.NamedTemporary ∧ (disk.put place (.file left)).find path = disk.find path ∨
      path.NamedTemporary ∧ ∃ occupant, occupant ≠ some .directory ∧
        (disk.find path = namesOf path >>= fun _ => ending path occupant) ∧
        (disk.put place (.file left)).find path =
          namesOf path >>= fun _ => ending path (some (.file left)) := by
  -- the temporary file is put beside the last name, and the directories stay
  obtain ⟨name, around, hlast, hparent, hwalk, haround, rfl, hne, hsize⟩ := of_writable_temporary h
  have hagree : disk.Agree (disk.put _ (.file left)) := agree_put hne left
  have hafter := find_of_walk hlast hparent (hagree.walk hwalk) ((hagree around).1 haround)
  have hbefore := find_of_walk hlast hparent hwalk haround
  have hnamed : path.NamedTemporary ↔ Path.stem name ++ ".tmp" = name := by
    rw [Path.stem_append_tmp_eq_iff (Path.ne_of_getLast? hlast).1]
    simp [Path.NamedTemporary, hlast]
  rw [hnamed, hbefore, hafter]
  by_cases hsame : Path.stem name ++ ".tmp" = name
  · -- the temporary file is what the path leads to
    refine .inr ⟨hsame, disk.at? (name :: around), ?_, ?_, ?_⟩
    · rwa [hsame] at hne
    · rw [hsame] at hsize
      simp only [Nat.not_lt.2 hsize, if_false]
    · rw [hsame] at hsize
      simp only [Nat.not_lt.2 hsize, if_false, hsame, at?_put_self (List.cons_ne_nil _ _)]
  · -- it lies beside that
    have hother : (name :: around) ≠ (Path.stem name ++ ".tmp") :: around :=
      fun heq => hsame (List.cons.inj heq).1.symm
    exact .inl ⟨hsame, by rw [at?_put_of_ne hother]⟩

/-- **Beside its temporary file** a path finds what it found before. -/
theorem find_put_of_not_clashes (h : disk.writable path.temporary = .ok place)
    (hclash : ¬ disk.Clashes path) (left : Content) :
    (disk.put place (.file left)).find path = disk.find path := by
  rcases find_put_temporary h left with ⟨-, heq⟩ | ⟨hnamed, occupant, hne, hbefore, hafter⟩
  · exact heq
  -- the names are the same before and after
  rw [hbefore, hafter]
  cases hnames : namesOf path with
  | error e => rfl
  | ok names =>
    -- a file that the path finds in spite of its name has something behind that name
    have hends := fun hends => hclash ⟨hnamed, ⟨place, h⟩, hends⟩
    rw [hbefore, hnames] at hends
    change ending path (some (.file left)) = ending path occupant
    change ((∃ content, ending path occupant = .ok (.file content)) ∨
      ending path occupant = .error .missing) → False at hends
    rcases occupant with _ | _ | content
    · exact absurd (.inr rfl) hends
    · exact absurd rfl hne
    · have hbehind : path.segments ≠ path.trimmed := by
        intro htrimmed
        exact hends (.inl ⟨content, by rw [ending, if_pos htrimmed]⟩)
      rw [ending, ending, if_neg hbehind, if_neg hbehind]

/-- **A path that is that of its own temporary file** finds what was written there. -/
theorem Clashes.find_put (h : disk.Clashes path) (hplace : disk.writable path.temporary = .ok place)
    (left : Content) :
    (disk.put place (.file left)).find path = ending path (some (.file left)) := by
  rcases find_put_temporary hplace left with ⟨hnot, -⟩ | ⟨-, occupant, -, hbefore, hafter⟩
  · exact absurd h.named hnot
  -- the file is there, so only the names of the path can still be wrong
  rw [hafter]
  cases hnames : namesOf path with
  | error e =>
    -- the path finds something, or at least that nothing is there, so its names can be used
    rw [hnames] at hbefore
    obtain ⟨content, hends⟩ | hends := h.ends
    · rw [hbefore] at hends
      cases hends
    · rw [hbefore] at hends
      obtain rfl := Except.error.inj hends
      exact absurd hnames namesOf_ne_missing
  | ok names => rfl

end Disk

end ConfigLedger
