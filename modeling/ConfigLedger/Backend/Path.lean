/-!
# Paths

A `Path` is a text that leads from the root of a disk to a file or a directory: slashes
separate the names on the way, and several of them separate as well as one. The name of a
single dot stays where it is, and two dots lead back to the directory around.

`Path.temporary` is the path of the file that a snapshot is written to before it takes its
name: the same, with the extension of the last name replaced by `tmp`.
-/

namespace ConfigLedger

/-- A way from the root of a disk. It starts there, with a slash in front or without. -/
structure Path where
  /-- What the slashes separate. Nothing stands where two meet, and where one is the first or the
  last character. -/
  segments : List String
deriving DecidableEq, Repr

namespace Path

/-- The path that a text spells. -/
def ofText (text : String) : Path :=
  ⟨(text.toList.splitOn '/').map String.ofList⟩

/-- The text that spells a path. -/
def text (path : Path) : String :=
  String.intercalate "/" path.segments

/-- The path of a file in a directory. With a slash in front the text of the file spells a path of
its own. -/
def inDirectory (directory file : String) : Path :=
  if file.toList.head? == some '/' then ofText file
  else if directory.toList.getLast? == some '/' then ofText (directory ++ file)
  else ofText (directory ++ "/" ++ file)

/-- The names on the way. -/
def names (path : Path) : List String :=
  path.segments.filter (· ≠ "")

/-- Whether nothing stands behind the last slash, so that only a directory can be meant. -/
def slash (path : Path) : Bool :=
  path.segments.getLast? == some ""

/-- The number of bytes of the text. -/
def size (path : Path) : Nat :=
  path.text.utf8ByteSize

/-- The segments up to the last name that is no single dot. -/
def trimmed (path : Path) : List String :=
  (path.segments.reverse.dropWhile fun segment => segment == "" || segment == ".").reverse

/-- The path to what holds the end of a path; there is none around the root. -/
def parent? (path : Path) : Option Path :=
  if path.trimmed.isEmpty then none else some ⟨path.trimmed.dropLast⟩

/-- A name without its extension, which starts at the last dot, unless the name starts there. -/
def stem (name : String) : String :=
  let stem := ((name.toList.reverse.dropWhile (· != '.')).drop 1).reverse
  if stem.isEmpty then name else String.ofList stem

/-- The path with the extension of its last name replaced by `tmp`. A path that ends with two dots,
or is the root, has no such name and stays what it is.

The extension is first cut off behind its dot, at the end of the text. If that leaves two dots,
they are no name any more, and the path leads to the directory around. -/
def temporary (path : Path) : Path :=
  match path.trimmed.getLast? with
  | none | some ".." => path
  | some name =>
    let last :=
      if path.trimmed = path.segments ∧ stem name = "." then ".." else stem name ++ ".tmp"
    ⟨path.trimmed.dropLast ++ [last]⟩

end Path

end ConfigLedger
