import Propositional.Json.Value
import Propositional.Language.Formula

/-!
# Formulas as JSON

Each node is a variant with fields of its own, which are written and read as an object.
-/

namespace Propositional

namespace Connective

def toJson : Connective → Json
  | .and => .string "And"
  | .or => .string "Or"
  | .implies => .string "Implies"

def ofJson? (j : Json) : Option Connective :=
  match j.variant? with
  | some ("And", .null) => some .and
  | some ("Or", .null) => some .or
  | some ("Implies", .null) => some .implies
  | _ => none

end Connective

namespace Formula

def toJson : Formula String → Json
  | .var name => .object [("Variable", .object [("name", .string name)])]
  | .not f => .object [("UnaryOp", .object [("op", .string "Not"), ("operand", f.toJson)])]
  | .binary c l r => .object [("BinaryOp",
      .object [("op", c.toJson), ("left", l.toJson), ("right", r.toJson)])]

def ofJson? (j : Json) : Option (Formula String) :=
  match _hj : j.variant? with
  | some ("Variable", content) =>
      match content.fields? ["name"] with
      | some [name] => return .var (← name.text?)
      | _ => none
  | some ("UnaryOp", content) =>
      match _hc : content.fields? ["op", "operand"] with
      | some [op, operand] =>
          match op.variant? with
          | some ("Not", .null) => return .not (← ofJson? operand)
          | _ => none
      | _ => none
  | some ("BinaryOp", content) =>
      match _hc : content.fields? ["op", "left", "right"] with
      | some [op, left, right] =>
          return .binary (← Connective.ofJson? op) (← ofJson? left) (← ofJson? right)
      | _ => none
  | _ => none
termination_by sizeOf j
decreasing_by
  all_goals exact Nat.lt_of_lt_of_le (Json.sizeOf_lt_of_mem_fields? _hc (by simp)) (Json.sizeOf_variant?_le _hj)

end Formula

end Propositional
