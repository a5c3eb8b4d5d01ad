import ConfigLedger.Backend.Path

/-!
# The disk of a snapshot

A `Disk` says which directories there are and what files hold. `Disk.walk` follows the names
of a path, each of which must be entered from a directory; it may end where nothing is,
which is where a file can be created.

Saving a file takes three steps (`Disk.save`): the content is written to a temporary file,
which is created first and renamed to the file last. Each step fails where the path does not
allow it, and it may also fail for other reasons: a `Failure` says which one does and what
it leaves behind.
-/

namespace ConfigLedger

/-- What a file holds: a text, packed or plain. Packing loses nothing, and a text packed by nobody
cannot be unpacked. -/
structure Content where
  packed : Bool
  text : String
deriving DecidableEq

/-- Why a path cannot be used. -/
inductive PathError where
  | missing
  | busy
  | notDirectory
  | isDirectory
  | nameTooLong
  | nullCharacter
deriving DecidableEq, Repr

/-- The message of an error. -/
def PathError.message : PathError → String
  | missing => "No such file or directory (os error 2)"
  | busy => "Device or resource busy (os error 16)"
  | notDirectory => "Not a directory (os error 20)"
  | isDirectory => "Is a directory (os error 21)"
  | nameTooLong => "File name too long (os error 36)"
  | nullCharacter => "file name contained an unexpected NUL byte"

/-- Which step of saving a file fails, and with which message. -/
inductive Failure where
  | create (reason : String)
  /-- The temporary file is left with part of the content. -/
  | write (reason : String) (left : Content)
  | rename (reason : String)

/-- A place on a disk: its name, the name of the directory it is in, and so on up to the root. -/
abbrev Place :=
  List String

/-- What is at a place. -/
inductive Occupant where
  | directory
  | file (content : Content)
deriving DecidableEq

/-- What is at which place. The root is always a directory. -/
structure Disk where
  occupants : List (Place × Occupant) := []

namespace Disk

/-- What is at a place, if anything is. -/
def at? (disk : Disk) (place : Place) : Option Occupant :=
  if place.isEmpty then some .directory else disk.occupants.lookup place

/-- The disk with a place emptied. -/
def erase (disk : Disk) (place : Place) : Disk :=
  ⟨disk.occupants.filter fun entry => entry.1 != place⟩

/-- The disk with something at a place, instead of what was there. -/
def put (disk : Disk) (place : Place) (occupant : Occupant) : Disk :=
  ⟨(place, occupant) :: (disk.erase place).occupants⟩

/-- The disk without what is inside a directory, and without the directory. -/
def eraseAll (disk : Disk) (place : Place) : Disk :=
  ⟨disk.occupants.filter fun entry => !(place.isSuffixOf entry.1)⟩

/-- The names of what is directly in a directory. -/
def namesIn (disk : Disk) (place : Place) : List String :=
  disk.occupants.filterMap fun entry => match entry.1 with
    | name :: around => if around = place then some name else none
    | [] => none

/-- Emptying a place leaves all other places as they are. -/
theorem at?_erase_of_ne {disk : Disk} {place other : Place} (h : other ≠ place) :
    (disk.erase place).at? other = disk.at? other := by
  simp only [at?, erase]
  congr 1
  induction disk.occupants with
  | nil => rfl
  | cons entry rest ih =>
    obtain ⟨p, o⟩ := entry
    -- an entry of the place itself is gone, and is not what is looked for
    by_cases hp : p = place
    · have : (other == p) = false := by simpa [hp] using h
      simp only [hp, bne_self_eq_false, Bool.false_eq_true, not_false_eq_true,
        List.filter_cons_of_neg, ih, List.lookup_cons]
      rw [← hp, this]
    · simp only [bne_iff_ne, ne_eq, hp, not_false_eq_true, List.filter_cons_of_pos,
        List.lookup_cons, ih]

/-- What is put at a place other than the root is there. -/
theorem at?_put_self {disk : Disk} {place : Place} {occupant : Occupant} (h : place ≠ []) :
    (disk.put place occupant).at? place = some occupant := by
  simp [at?, put, h]

/-- Putting something at a place leaves all other places as they are. -/
theorem at?_put_of_ne {disk : Disk} {place other : Place} {occupant : Occupant}
    (h : other ≠ place) : (disk.put place occupant).at? other = disk.at? other := by
  have hne : (other == place) = false := by simpa using h
  have erased : (disk.erase place).at? other = disk.at? other := at?_erase_of_ne h
  simp only [at?, put, List.lookup_cons, hne] at erased ⊢
  exact erased

/-! ### Following paths -/

/-- The number of bytes that a name may have. -/
def nameLimit : Nat :=
  255

/-- The number of bytes that the text of a path may have. -/
def textLimit : Nat :=
  4095

/-- Goes from a directory to the place of a name in it. -/
def enter (disk : Disk) (place : Place) (name : String) : Except PathError Place :=
  match disk.at? place with
  | none => .error .missing
  | some (.file _) => .error .notDirectory
  | some .directory =>
    if name = "." then .ok place
    else if name = ".." then .ok place.tail
    else if nameLimit < name.utf8ByteSize then .error .nameTooLong
    else .ok (name :: place)

/-- Follows names from the root. -/
def walk (disk : Disk) (names : List String) : Except PathError Place :=
  names.foldlM disk.enter []

/-- The names of a path whose text can be used. -/
def namesOf (path : Path) : Except PathError (List String) :=
  if path.names.any (·.contains '\x00') then .error .nullCharacter
  else if textLimit < path.size then .error .nameTooLong
  else .ok path.names

/-- What is at the end of a path. -/
def find (disk : Disk) (path : Path) : Except PathError Occupant := do
  match disk.at? (← disk.walk (← namesOf path)) with
  | none => .error .missing
  | some (.file content) => if path.slash then .error .notDirectory else .ok (.file content)
  | some .directory => .ok .directory

/-- What a file holds, if there is one at the end of a path. -/
def read? (disk : Disk) (path : Path) : Option Content :=
  match disk.find path with
  | .ok (.file content) => some content
  | _ => none

/-- Where a file can be written: where no directory is. -/
def writable (disk : Disk) (path : Path) : Except PathError Place := do
  let place ← disk.walk (← namesOf path)
  match disk.at? place with
  | some .directory => .error .isDirectory
  | _ => .ok place

/-- Where a file can be renamed to. The path must end with a name of its own, and with no slash
behind it. -/
def renamable (disk : Disk) (path : Path) : Except PathError Place := do
  let names ← namesOf path
  let around ← disk.walk names.dropLast
  -- a path without names ends at the directory that it starts from
  let name := names.getLast?.getD "."
  let place ← disk.enter around name
  if name = "." || name = ".." then .error .busy
  else if path.slash then .error .notDirectory
  else match disk.at? place with
    | some .directory => .error .isDirectory
    | _ => .ok place

/-- The disk after the file at a place took another place. -/
def move (disk : Disk) (source target : Place) : Disk :=
  match disk.at? source with
  | some occupant => (disk.erase source).put target occupant
  | none => disk

/-! ### Saving -/

/-- Saves a content at the end of a path: the message of the step that failed, if one did, and the
disk afterwards. -/
def save (disk : Disk) (path : Path) (content : Content) (failure : Option Failure) :
    Option String × Disk :=
  match disk.writable path.temporary, failure with
  | .error e, _ => (some e.message, disk)
  | .ok _, some (.create reason) => (some reason, disk)
  | .ok temporary, some (.write reason left) => (some reason, disk.put temporary (.file left))
  | .ok temporary, some (.rename reason) => (some reason, disk.put temporary (.file content))
  | .ok temporary, none =>
    -- from here on the temporary file holds everything, and stays if it cannot be renamed
    let written := disk.put temporary (.file content)
    match written.renamable path with
    | .error e => (some e.message, written)
    | .ok place => (none, written.move temporary place)

/-- Whether the directory around the end of a path exists. -/
def holds (disk : Disk) (path : Path) : Bool :=
  match path.parent? with
  | none => false
  | some around => match disk.find around with
    | .ok .directory => true
    | _ => false

end Disk

end ConfigLedger
