import Propositional.Json.Value
import Propositional.Truth.Limits

/-!
# Limits as JSON

A record whose fields may be left out: any of them in an object, the trailing ones in an array. What is left
out is as in the standard limits.
-/

namespace Propositional.Limits

def toJson (limits : Limits) : Json :=
  .object [("max_variables", .natural limits.maxVariables),
    ("max_table_variables", .natural limits.maxTableVariables)]

/-- The number that is given, or else the standard one; a value that is no number is refused. -/
def wordOr? (standard : Nat) : Option Json → Option Nat
  | none => some standard
  | some j => j.word?

/-- The limits of which only some are given. -/
def ofParts? (search table : Option Json) : Option Limits := do
  return ⟨← wordOr? standard.maxVariables search, ← wordOr? standard.maxTableVariables table⟩

def ofJson? : Json → Option Limits
  | .object fields => ofParts? (fields.lookup "max_variables") (fields.lookup "max_table_variables")
  | .array [] => ofParts? none none
  | .array [search] => ofParts? (some search) none
  | .array [search, table] => ofParts? (some search) (some table)
  | _ => none

end Propositional.Limits
