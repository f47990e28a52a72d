/-!
# Operators

The symbols that build formulas: negation and the three binary connectives. One table gives each of them
its keyword and its binding, that is, how tightly it holds its operands and to which side it groups.
-/

namespace Propositional

/-- A binary connective. -/
inductive Connective where
  | and
  | or
  | implies
  deriving DecidableEq

/-- An operator symbol of the language. -/
inductive Operator where
  | not
  | binary (c : Connective)
  deriving DecidableEq

/-- The side to which operators of equal priority group. -/
inductive Associativity where
  | left
  | right
  deriving DecidableEq

/-- How an operator takes its operands; a higher priority binds tighter. -/
inductive Binding where
  | unary (priority : UInt8)
  | binary (associativity : Associativity) (priority : UInt8)
  deriving DecidableEq

namespace Binding

/-- The priority, whatever the number of operands. -/
def priority : Binding → UInt8
  | .unary p => p
  | .binary _ p => p

/-- Whether there is one operand only. -/
def isUnary : Binding → Bool
  | .unary _ => true
  | .binary _ _ => false

/-- Whether an operator that waits for its right operand is complete when `incoming` arrives.

A unary operator always is. A binary one is when it binds tighter than a binary `incoming`, or as tightly
and `incoming` groups to the left. A unary `incoming` completes no binary operator. -/
def yieldsTo (waiting incoming : Binding) : Bool :=
  match waiting, incoming with
  | .unary _, _ => true
  | .binary _ p, .binary .left q => q ≤ p
  | .binary _ p, .binary .right q => q < p
  | .binary _ _, .unary _ => false

end Binding

/-! ## The operator table -/

/-- The word or sign that stands for the connective in a text. -/
def Connective.keyword : Connective → String
  | .and => "AND"
  | .or => "OR"
  | .implies => "->"

namespace Operator

/-- The word or sign that stands for the operator in a text. -/
def keyword : Operator → String
  | .not => "NOT"
  | .binary c => c.keyword

theorem length_keyword_pos (op : Operator) : 0 < op.keyword.length := by
  cases op with
  | not => decide
  | binary c => cases c <;> decide

/-- Negation binds tightest, then conjunction and disjunction alike, grouping to the left; implication is
loosest and groups to the right. -/
def binding : Operator → Binding
  | .not => .unary 3
  | .binary .and => .binary .left 2
  | .binary .or => .binary .left 2
  | .binary .implies => .binary .right 1

end Operator

end Propositional
