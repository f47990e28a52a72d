import Propositional.Language.Operator

/-!
# Formulas

The tree of a propositional formula, over variables of any type `α`: names in a text, positions in a truth
table, or truth values once every variable has been looked up.
-/

namespace Propositional

/-- A formula whose variables are taken from `α`. -/
inductive Formula (α : Type) where
  | var (x : α)
  | not (f : Formula α)
  | binary (c : Connective) (l r : Formula α)
  deriving DecidableEq

namespace Formula

variable {α β : Type}

/-- The formula with every variable replaced by a formula. -/
def bind (f : Formula α) (g : α → Formula β) : Formula β :=
  match f with
  | .var x => g x
  | .not f => .not (f.bind g)
  | .binary c l r => .binary c (l.bind g) (r.bind g)

/-- The formula with every variable renamed. -/
def map (g : α → β) (f : Formula α) : Formula β := f.bind fun x => .var (g x)

/-- The formula with every variable replaced by what `g` answers for it, asked from left to right. -/
def mapM {m : Type → Type} [Monad m] (g : α → m β) : Formula α → m (Formula β)
  | .var x => return .var (← g x)
  | .not f => return .not (← f.mapM g)
  | .binary c l r => return .binary c (← l.mapM g) (← r.mapM g)

/-- The variables from left to right, each as often as it occurs. -/
def vars : Formula α → List α
  | .var x => [x]
  | .not f => f.vars
  | .binary _ l r => l.vars ++ r.vars

/-- The variables in the order in which they first occur, each once. -/
def distinctVars [BEq α] (f : Formula α) : List α := f.vars.eraseDups

/-- The formula as a text in which every connective stands in parentheses of its own. -/
def render : Formula String → String
  | .var name => name
  | .not f => Operator.not.keyword ++ " " ++ f.render
  | .binary c l r => "(" ++ l.render ++ " " ++ c.keyword ++ " " ++ r.render ++ ")"

end Formula

end Propositional
