/-
# Options and usage errors

What options a command has, and what can be wrong with the arguments it is given.
-/
import ApiSchema.ScalarOption

namespace ApiSchema.Command

/-! ## Options -/

/-- What an option takes. -/
inductive Kind
  /-- Nothing; the option is there or not. -/
  | flag
  | text
  /-- The path of something that is there. -/
  | existing
  | choice (words : List String)
deriving DecidableEq, Inhabited

structure OptionSpec where
  /-- The long name, with its dashes. -/
  long : String
  /-- The letter of the short name. -/
  short : Option Char := none
  kind : Kind := .text
  required : Bool := false
  /-- Whether every value counts; otherwise only the last one does. -/
  repeated : Bool := false
deriving DecidableEq, Inhabited

namespace OptionSpec

def takesValue (spec : OptionSpec) : Bool := spec.kind != .flag

def shortName (letter : Char) : String := String.ofList ['-', letter]

/-- The names of an option as messages show them. -/
def hint (spec : OptionSpec) : String :=
  let names := spec.long :: (spec.short.map shortName).toList
  " / ".intercalate (names.map fun name => "'" ++ name ++ "'")

end OptionSpec

/-! ## Errors -/

/-- What is wrong with the arguments of a command. -/
inductive UsageError
  | noSuchOption (name : String)
  /-- The arguments end where the value of an option should be. -/
  | valueMissing (name : String)
  /-- A value is attached to an option that takes none. -/
  | valueNotTaken (name : String)
  | optionMissing (spec : OptionSpec)
  | notAChoice (spec : OptionSpec) (words : List String) (value : String)
  | noSuchPath (spec : OptionSpec) (path : String)
  | extraArguments (arguments : List String)
  | scalar (error : OptionError)
  | noSuchCommand (name : String)
  | commandMissing
deriving DecidableEq, Inhabited

namespace UsageError

def message : UsageError → String
  | noSuchOption name => "No such option " ++ Text.displayQuoted name ++ "."
  | valueMissing name => "Option " ++ Text.displayQuoted name ++ " requires an argument."
  | valueNotTaken name => "Option " ++ Text.displayQuoted name ++ " does not take a value."
  | optionMissing spec => "Missing option " ++ spec.hint ++ "."
  | notAChoice spec words value =>
    "Invalid value for " ++ spec.hint ++ ": " ++ Text.displayQuoted value ++ " is not one of " ++
      ", ".intercalate (words.map Text.displayQuoted) ++ "."
  | noSuchPath spec path =>
    "Invalid value for " ++ spec.hint ++ ": Path " ++ Text.displayQuoted path ++
      " does not exist."
  | extraArguments arguments =>
    (if arguments.length = 1 then "Got unexpected extra argument ("
      else "Got unexpected extra arguments (") ++ " ".intercalate arguments ++ ")"
  | scalar error => "Invalid value for --scalar: " ++ error.message
  | noSuchCommand name => "No such command " ++ Text.displayQuoted name ++ "."
  | commandMissing => "Missing command."

/-- Whether the usage of the command is shown before the message. It is not if the options cannot be
told from their values. -/
def showsUsage : UsageError → Bool
  | valueMissing _ => false
  | valueNotTaken _ => false
  | _ => true

end UsageError

def programName : String := "main"

/-- How a command is called; without a name, the program itself. -/
def usage : Option String → String
  | some command => "Usage: " ++ programName ++ " " ++ command ++ " [OPTIONS]\n"
  | none => "Usage: " ++ programName ++ " [OPTIONS] COMMAND [ARGS]...\n"

def fullName : Option String → String
  | some command => programName ++ " " ++ command
  | none => programName

/-- All that is printed for a usage error of a command. -/
def UsageError.report (command : Option String) (error : UsageError) : String :=
  (if error.showsUsage then
    usage command ++ "Try '" ++ fullName command ++ " --help' for help.\n\n"
  else "") ++ "Error: " ++ error.message ++ "\n"

end ApiSchema.Command
