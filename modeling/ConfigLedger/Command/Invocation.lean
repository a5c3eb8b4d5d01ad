import ConfigLedger.Command.Arguments
import ConfigLedger.Document.Basic

/-!
# Invocations

An `Invocation` is what one start of the program is asked for. Its options come first: the
settings file, which must be named, and the author of what is written, whose address counts
only together with the identifier. Then follows what is to be done, a command or
`check-config`.
-/

namespace ConfigLedger

/-- What is to be done in one start of the program. -/
inductive Task where
  /-- Read and validate the settings, and nothing else. -/
  | checkSettings
  | run (command : Command)
deriving DecidableEq

/-- One start of the program. -/
structure Invocation where
  settingsFile : String
  author : Author
  task : Task
deriving DecidableEq

/-- The task that arguments spell. -/
def Task.ofArguments? : List String → Option Task
  | ["check-config"] => some checkSettings
  | arguments => (Command.ofArguments? arguments).map run

namespace Invocation

/-- The options at the start, and the arguments from the first on that is neither an option nor the
value of one. -/
def splitOptions : List String → List String × List String
  | [] => ([], [])
  | argument :: rest =>
    if !argument.startsWith "-" then ([], argument :: rest)
    else
      let option := if argument = "-c" then "--config" else argument
      match rest with
      | value :: rest =>
        -- an option that has its value in it takes no other one
        if option.contains '=' then
          let (options, others) := splitOptions (value :: rest)
          (option :: options, others)
        else
          let (options, others) := splitOptions rest
          (option :: value :: options, others)
      | [] => ([option], [])

/-- The author that two options name. -/
def author? (id email : Option String) : Option Author :=
  match id, email with
  | some id, email => some ⟨id, email.getD unknownAuthor⟩
  | none, none => some ⟨unknownAuthor, unknownAuthor⟩
  | none, some _ => none

/-- The invocation that arguments spell. -/
def ofArguments? (arguments : List String) : Option Invocation := do
  let (options, others) := splitOptions arguments
  let options ← Options.ofArguments? ["config", "user-id", "user-email"] options
  let author ← author? (← options.single? "user-id") (← options.single? "user-email")
  some ⟨← options.required? "config", author, ← Task.ofArguments? others⟩

end Invocation

end ConfigLedger
