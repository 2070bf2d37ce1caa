/-
# Scalar options

An option `NAME=CODE` sets the code of a scalar. Name and code are what stands before and after the
first equals sign, without blanks around them.
-/
import ApiSchema.Assoc
import ApiSchema.Text.Blank
import ApiSchema.Value.Display

namespace ApiSchema

/-- An option that is not of the expected form. -/
structure OptionError where
  value : String
deriving DecidableEq, Inhabited

def OptionError.message (e : OptionError) : String :=
  "Expected NAME=CODE, got " ++ Text.displayQuoted e.value

/-- A text without the blanks around it. -/
def trimmed (cs : List Char) : String := String.ofList (Text.trimBlank cs)

/-- The name and the code of an option. Neither may be missing; either may consist of blanks. -/
def scalarOption (value : String) : Except OptionError (String × String) :=
  let name := value.toList.takeWhile (· != '=')
  let code := (value.toList.dropWhile (· != '=')).drop 1
  if name.isEmpty || code.isEmpty then .error ⟨value⟩ else .ok (trimmed name, trimmed code)

/-- The code of each scalar; a later option goes before an earlier one. -/
def scalarOptions (values : List String) : Except OptionError (List (String × String)) := do
  return Assoc.ofList (← values.mapM scalarOption)

end ApiSchema
