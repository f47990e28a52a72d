import Propositional.Language.Formula
import Propositional.Language.Token

/-!
# Formulas in postorder

A formula is listed in postorder with every operator behind its operands, the left one first. The list needs
no parentheses, and the formula is built from it again with a stack of finished operands.
-/

namespace Propositional

/-- Why a list of kinds is not the postorder of a formula. -/
inductive ShapeError where
  | missingOperand
  | unexpectedToken (kind : Kind)
  | empty
  | danglingOperands (count : Nat)
  deriving DecidableEq

def ShapeError.message : ShapeError → String
  | .missingOperand => "Stack empty: operator is missing an operand"
  | .unexpectedToken kind => s!"Unexpected token in postfix input: {kind.text}"
  | .empty => "Empty expression"
  | .danglingOperands count => s!"Expected a single expression, found {count}"

namespace Formula

/-- The kinds of the formula's tokens, every operator behind its operands. -/
def postorder : Formula String → List Kind
  | .var name => [.var name]
  | .not f => f.postorder ++ [.operator .not]
  | .binary c l r => l.postorder ++ r.postorder ++ [.operator (.binary c)]

/-- Takes the operands of one kind from the stack and puts the formula made of them on top. -/
def push (stack : List (Formula String)) : Kind → Except ShapeError (List (Formula String))
  | .var name => .ok (.var name :: stack)
  | .operator .not =>
      match stack with
      | f :: stack => .ok (.not f :: stack)
      | [] => .error .missingOperand
  | .operator (.binary c) =>
      match stack with
      | r :: l :: stack => .ok (.binary c l r :: stack)
      | _ => .error .missingOperand
  | kind => .error (.unexpectedToken kind)

/-- The formula that must be left alone on the stack at the end. -/
def finish : List (Formula String) → Except ShapeError (Formula String)
  | [] => .error .empty
  | [f] => .ok f
  | stack => .error (.danglingOperands stack.length)

/-- The formula with the given postorder. -/
def ofPostorder (kinds : List Kind) : Except ShapeError (Formula String) := do
  finish (← kinds.foldlM push [])

end Formula

end Propositional
