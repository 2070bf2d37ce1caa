/-
# Arguments

Arguments are read from left to right. An option is followed by its value, or has it attached: after
an equals sign to a long name, directly to a short one. Short names may share one dash. Two dashes
alone end the options. What has been read is then checked, first the options that are there in the
order of their first occurrence, and then those that are missing.
-/
import ApiSchema.Command.Usage
import ApiSchema.Files.Folder

namespace ApiSchema.Command

/-- The options with their values in the order in which they occur, and the other arguments. -/
structure Arguments where
  /-- Long names and values; the value of a flag is empty. -/
  given : List (String × String)
  rest : List String
deriving DecidableEq, Inhabited

namespace Arguments

/-! ## Contents -/

def empty : Arguments := ⟨[], []⟩

def values (arguments : Arguments) (long : String) : List String :=
  (arguments.given.filter (·.1 == long)).map (·.2)

/-- The value of an option, which is the last one given. -/
def value? (arguments : Arguments) (long : String) : Option String :=
  (arguments.values long).getLast?

/-- Whether an option is given. -/
def has (arguments : Arguments) (long : String) : Bool :=
  arguments.given.any (·.1 == long)

/-- The arguments with an option after the others. -/
def add (arguments : Arguments) (long value : String) : Arguments :=
  { arguments with given := arguments.given ++ [(long, value)] }

/-! ## Reading -/

/-- What has been read, and the option that waits for its value with the name it was given by. -/
structure Reader where
  arguments : Arguments
  waiting : Option (OptionSpec × String)

/-- Reads short names that share a dash. -/
def readShort (specs : List OptionSpec) (arguments : Arguments) :
    List Char → Except UsageError Reader
  | [] => .ok ⟨arguments, none⟩
  | letter :: letters =>
    match specs.find? (·.short == some letter) with
    | none => .error (.noSuchOption (OptionSpec.shortName letter))
    | some spec =>
      if !spec.takesValue then readShort specs (arguments.add spec.long "") letters
      else if letters.isEmpty then .ok ⟨arguments, some (spec, OptionSpec.shortName letter)⟩
      else .ok ⟨arguments.add spec.long (String.ofList letters), none⟩

/-- Reads a long name, with a value if an equals sign follows it. -/
def readLong (specs : List OptionSpec) (arguments : Arguments) (argument : List Char) :
    Except UsageError Reader :=
  let name := String.ofList (argument.takeWhile (· != '='))
  let attached := argument.dropWhile (· != '=')
  match specs.find? (·.long == name) with
  | none => .error (.noSuchOption name)
  | some spec =>
    match spec.takesValue, attached with
    | true, [] => .ok ⟨arguments, some (spec, name)⟩
    | true, _ :: value => .ok ⟨arguments.add spec.long (String.ofList value), none⟩
    | false, [] => .ok ⟨arguments.add spec.long "", none⟩
    | false, _ => .error (.valueNotTaken name)

/-- Reads the names of options. -/
def readOption (specs : List OptionSpec) (arguments : Arguments) (argument : List Char) :
    Except UsageError Reader :=
  match argument with
  | '-' :: '-' :: _ => readLong specs arguments argument
  | _ => readShort specs arguments (argument.drop 1)

/-- Whether an argument has names of options in it. A dash alone has not. -/
def isOption (argument : String) : Bool :=
  match argument.toList with
  | '-' :: _ :: _ => true
  | _ => false

/-- Reads arguments. Unless `mixed`, options end before the first other argument. -/
def readFrom (specs : List OptionSpec) (mixed : Bool) (reader : Reader) :
    List String → Except UsageError Arguments
  | [] =>
    match reader.waiting with
    | some (_, name) => .error (.valueMissing name)
    | none => .ok reader.arguments
  | argument :: others =>
    let arguments := reader.arguments
    match reader.waiting with
    | some (spec, _) => readFrom specs mixed ⟨arguments.add spec.long argument, none⟩ others
    | none =>
      if argument = "--" then .ok { arguments with rest := arguments.rest ++ others }
      else if isOption argument then do
        let reader ← readOption specs arguments argument.toList
        readFrom specs mixed reader others
      else if mixed then
        readFrom specs mixed ⟨{ arguments with rest := arguments.rest ++ [argument] }, none⟩ others
      else .ok { arguments with rest := argument :: others }

def read (specs : List OptionSpec) (mixed : Bool) (arguments : List String) :
    Except UsageError Arguments :=
  readFrom specs mixed ⟨empty, none⟩ arguments

/-! ## Checking -/

def checkValue (folder : Folder) (spec : OptionSpec) (value : String) : Except UsageError Unit :=
  match spec.kind with
  | .choice words => if words.contains value then .ok () else .error (.notAChoice spec words value)
  | .existing => if folder.has value then .ok () else .error (.noSuchPath spec value)
  | _ => .ok ()

def checkOption (folder : Folder) (arguments : Arguments) (spec : OptionSpec) :
    Except UsageError Unit :=
  let values := arguments.values spec.long
  if values.isEmpty then
    if spec.required then .error (.optionMissing spec) else .ok ()
  else if spec.repeated then values.forM (checkValue folder spec)
  else values.getLast?.toList.forM (checkValue folder spec)

/-- The options in the order in which they are checked. -/
def checkOrder (specs : List OptionSpec) (arguments : Arguments) : List OptionSpec :=
  let names := (arguments.given.map (·.1)).eraseDups
  names.filterMap (fun name => specs.find? (·.long == name)) ++
    specs.filter fun spec => !arguments.has spec.long

def check (folder : Folder) (specs : List OptionSpec) (arguments : Arguments) :
    Except UsageError Unit := do
  (checkOrder specs arguments).forM (checkOption folder arguments)
  if !arguments.rest.isEmpty then throw (.extraArguments arguments.rest)

end Arguments

end ApiSchema.Command
