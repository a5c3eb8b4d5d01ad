import ConfigLedger.Filter.Expression
import ConfigLedger.Predicate

/-!
# Compiling filters

`Filter.compile` turns a filter into a predicate on documents: every path is moved below
`config`, so that a filter sees the value of a document and nothing else, and the constant
gets the kind that its value shows. Whatever is ambiguous is refused instead of being
converted: a list must not be empty and must hold texts only, numbers only or truth values
only; `in` needs a list, the order relations need a scalar. Operands are compiled from left
to right and before their own connective is looked at, and the first error ends it.
-/

namespace ConfigLedger

/-- What a relation needs its constant to be. -/
inductive ConstantForm where
  | list | scalar
deriving DecidableEq, Repr

/-- The name of a form in messages. -/
def ConstantForm.name : ConstantForm → String
  | list => "list"
  | scalar => "scalar"

/-- Why a filter cannot be used. -/
inductive FilterError where
  | unknownConnective
  | unknownRelation
  | emptyPath
  | emptyList (path : String)
  /-- The kinds of the first element and of the first one that differs from it. -/
  | mixedList (path : String) (first other : Kind)
  /-- A struct or null cannot be a constant. -/
  | unsupportedConstant (path : String) (kind : Kind)
  /-- A list of lists, structs or nulls cannot be a constant. -/
  | unsupportedElement (path : String)
  | mismatch (path : String) (relation : Relation) (expected : ConstantForm)
  /-- The text of the filter could not be read. -/
  | malformed (reason : String)
deriving DecidableEq

/-- The message of an error. -/
def FilterError.message : FilterError → String
  | unknownConnective => "unknown logical operator while building filter"
  | unknownRelation => "unknown relational operator while building filter"
  | emptyPath => "filter path is empty"
  | emptyList path => "list constant for `" ++ path ++ "` is empty"
  | mixedList path first other =>
    "list constant for `" ++ path ++ "` mixes " ++ first.name ++ " and " ++ other.name ++
      " elements"
  | unsupportedConstant path kind => "unsupported " ++ kind.name ++ " constant for `" ++ path ++ "`"
  | unsupportedElement path => "unsupported nested list element constant for `" ++ path ++ "`"
  | mismatch path relation expected =>
    "operator " ++ relation.title ++ " on `" ++ path ++ "` requires a " ++ expected.name ++
      " constant"
  | malformed reason => "invalid filter expression: " ++ reason

namespace Filter

/-- The path of a document field below which the value lies. -/
def configPath (path : String) : String :=
  "config." ++ path

/-- The texts among values. -/
private def strings : List Value → List String :=
  List.filterMap fun | .string s => some s | _ => none

/-- The numbers among values. -/
private def numbers : List Value → List Binary64 :=
  List.filterMap fun | .number n => some n.toBinary64 | _ => none

/-- The truth values among values. -/
private def bools : List Value → List Bool :=
  List.filterMap fun | .bool b => some b | _ => none

/-- The constant of a list value. -/
def listConstant (path : String) (items : List Value) : Except FilterError Constant :=
  match items with
  | [] => .error (.emptyList path)
  | first :: _ =>
    -- the first element sets the kind for all of them
    match (items.map Value.kind).find? (· != first.kind) with
    | some other => .error (.mixedList path first.kind other)
    | none => match first.kind with
      | .string => .ok (.strings (strings items))
      | .number => .ok (.numbers (numbers items))
      | .bool => .ok (.bools (bools items))
      | .null | .list | .struct => .error (.unsupportedElement path)

/-- The constant of a value. -/
def constant (path : String) : Value → Except FilterError Constant
  | .string s => .ok (.string s)
  | .number n => .ok (.number n.toBinary64)
  | .bool b => .ok (.bool b)
  | .list items => listConstant path items
  | .null => .error (.unsupportedConstant path .null)
  | .struct _ => .error (.unsupportedConstant path .struct)

/-- A comparison with a constant that must be of the given form, or of either. -/
def comparison (path : String) (relation : Relation) (value : Value)
    (comparison : Comparison) (expected : Option ConstantForm) : Except FilterError Predicate := do
  let c ← constant path value
  match expected, c.isList with
  | some .list, false => throw (.mismatch path relation .list)
  | some .scalar, true => throw (.mismatch path relation .scalar)
  | _, _ => return .compare (configPath path) comparison c

/-- The predicate of a relation. -/
def compileRelation (path : String) (relation : Relation) (value : Value) :
    Except FilterError Predicate :=
  if path.isEmpty then .error .emptyPath
  else match relation with
    | .unspecified => .error .unknownRelation
    | .present => .ok (.present (configPath path) true)
    | .absent => .ok (.present (configPath path) false)
    | .equalTo => comparison path relation value .equalTo none
    | .notEqualTo => comparison path relation value .notEqualTo none
    | .among => comparison path relation value .among (some .list)
    | .notAmong => comparison path relation value .notAmong (some .list)
    | .lessThan => comparison path relation value .lessThan (some .scalar)
    | .greaterThan => comparison path relation value .greaterThan (some .scalar)
    | .atMost => comparison path relation value .atMost (some .scalar)
    | .atLeast => comparison path relation value .atLeast (some .scalar)

mutual

/-- The predicate of a filter. -/
def compile : Filter → Except FilterError Predicate
  | relational path relation value => compileRelation path relation value
  | logical connective operands => do
    -- an error of an operand goes before that of the connective
    let predicates ← compileAll operands
    match connective with
    | .and => return .all predicates
    | .or => return .any predicates
    | .unspecified => throw .unknownConnective

/-- The predicates of filters, up to the first error. -/
def compileAll : List Filter → Except FilterError (List Predicate)
  | [] => return []
  | f :: rest => do
    let p ← f.compile
    let ps ← compileAll rest
    return p :: ps

end

/-- The filter that a text denotes, or the error of a text that denotes none. -/
def parse (s : String) : Except FilterError Filter :=
  match ofText? s with
  | some f => .ok f
  | none => .error (.malformed "no filter in the given text")

end Filter

end ConfigLedger
