import ConfigLedger.Key

/-!
# Commands and their arguments

A `Command` is one thing that the command line can do with a store. It is read from a list
of arguments that starts with the name of the command (`Command.ofArguments?`). All other
arguments are options, written `--name value` or `--name=value`; a value in an argument of
its own does not start with a dash, unless it is nothing but a dash. An option may be given
once, except `--merge`, which adds up.
-/

namespace ConfigLedger

/-- One thing to do with a store. -/
inductive Command where
  /-- Show the value in a context, or the merge of several contexts if there are any. -/
  | get (resource : Resource) (context : String) (merge : List String)
  /-- Write a value, both it and the precondition given as texts. -/
  | put (resource : Resource) (context value : String) (precondition : Option String)
  | delete (resource : Resource) (context : String)
  | list (resource : Resource) (filter : Option String) (limit : Option Int64) (offset : Int64)
      (sortPath : Option String)
  /-- Show the effective values of one scope or of all stored scopes. -/
  | resolve (resource : Resource) (scope : Option String) (separator : Char)
deriving DecidableEq

/-- Options in the order in which they were given. -/
abbrev Options : Type :=
  List (String × String)

namespace Options

/-- The options that arguments spell, each of which must be known. -/
def ofArguments? (known : List String) : List String → Option Options
  | [] => some []
  | argument :: rest =>
    match argument.toList with
    -- this mark ends the options, and nothing may follow it
    | ['-', '-'] => if rest.isEmpty then some [] else none
    | '-' :: '-' :: body =>
      let name := String.ofList (body.takeWhile (· != '='))
      if name ∉ known then none
      else match body.dropWhile (· != '='), rest with
        | _ :: value, rest =>
          -- the value stands behind an equality sign
          (ofArguments? known rest).map fun options => (name, String.ofList value) :: options
        | [], value :: rest =>
          -- or it is the next argument
          if value.startsWith "-" && value ≠ "-" then none
          else (ofArguments? known rest).map fun options => (name, value) :: options
        | [], [] => none
    | _ => none

/-- The values given for an option. -/
def all (options : Options) (name : String) : List String :=
  (options.filter fun option => option.1 == name).map (·.2)

/-- The value of an option that may be given once. -/
def single? (options : Options) (name : String) : Option (Option String) :=
  match options.all name with
  | [] => some none
  | [value] => some (some value)
  | _ => none

/-- The value of an option that must be given once. -/
def required? (options : Options) (name : String) : Option String :=
  (options.single? name).join

/-- The value of an option that may be given once, or nothing written. -/
def orEmpty? (options : Options) (name : String) : Option String :=
  (options.single? name).map (·.getD "")

/-- The value of an option that may be given once and is read by `read`. -/
def parsed? {α : Type} (options : Options) (name : String) (read : String → Option α) :
    Option (Option α) :=
  match options.single? name with
  | some (some value) => (read value).map some
  | some none => some none
  | none => none

/-- The resource that is named by three options. -/
def resource? (options : Options) : Option Resource := do
  some ⟨← options.required? "resource", ← options.required? "namespace",
    ← options.required? "tenant"⟩

end Options

/-- The integer that decimal digits spell behind an optional sign, if it has 64 bits. -/
def integerArgument? (s : String) : Option Int64 :=
  let (negative, digits) : Bool × List Char := match s.toList with
    | '-' :: rest => (true, rest)
    | '+' :: rest => (false, rest)
    | cs => (false, cs)
  if digits.isEmpty || !digits.all Char.isDigit then none
  else
    let n := digits.foldl (fun n c => 10 * n + (c.toNat - '0'.toNat)) 0
    let i : Int := if negative then -(n : Int) else n
    if Int64.minValue.toInt ≤ i ∧ i ≤ Int64.maxValue.toInt then some (Int64.ofInt i) else none

/-- The one character of a text. -/
def characterArgument? (s : String) : Option Char :=
  match s.toList with
  | [c] => some c
  | _ => none

namespace Command

/-- The options that every command has. -/
private def common : List String :=
  ["tenant", "namespace", "resource"]

/-- The command that arguments spell. -/
def ofArguments? : List String → Option Command
  | "get" :: rest => do
    let options ← Options.ofArguments? (common ++ ["context", "merge"]) rest
    let context ← options.single? "context"
    let merge := options.all "merge"
    -- one context and a list of contexts exclude each other
    if context.isSome && !merge.isEmpty then none
    else some (get (← options.resource?) (context.getD "") merge)
  | "put" :: rest => do
    let options ← Options.ofArguments? (common ++ ["context", "value", "if"]) rest
    some (put (← options.resource?) (← options.orEmpty? "context") (← options.required? "value")
      (← options.single? "if"))
  | "delete" :: rest => do
    let options ← Options.ofArguments? (common ++ ["context"]) rest
    some (delete (← options.resource?) (← options.orEmpty? "context"))
  | "list" :: rest => do
    let options ← Options.ofArguments? (common ++ ["filter", "limit", "offset", "sort-path"]) rest
    some (list (← options.resource?) (← options.single? "filter")
      (← options.parsed? "limit" integerArgument?)
      ((← options.parsed? "offset" integerArgument?).getD 0) (← options.single? "sort-path"))
  | "resolve" :: rest => do
    let options ← Options.ofArguments? (common ++ ["scope", "separator"]) rest
    some (resolve (← options.resource?) (← options.single? "scope")
      ((← options.parsed? "separator" characterArgument?).getD '/'))
  | _ => none

end Command

end ConfigLedger
