import Propositional.Language.Formula

/-!
# Evaluation

The truth value of a formula, first over truth values for all its variables, then over a source of values
that may lack some. Evaluation always looks every variable up, from left to right and as often as it occurs,
also where the value is already decided; it ends at the first variable that has no value.

A source of values may be any computation (`evaluateM`), for instance one that keeps a list of the names it
is asked for (`recording`).
-/

namespace Propositional

/-- The truth function of a connective; implication is material. -/
def Connective.apply : Connective → Bool → Bool → Bool
  | .and, a, b => a && b
  | .or, a, b => a || b
  | .implies, a, b => !a || b

/-- The truth value of a formula when `v` gives the values of its variables. -/
def Formula.holds {α : Type} (v : α → Bool) : Formula α → Bool
  | .var x => v x
  | .not f => !f.holds v
  | .binary c l r => c.apply (l.holds v) (r.holds v)

/-- Why a question about a formula has no answer. -/
inductive QueryError where
  | unassigned (name : String)
  | tooManyVariables (count limit : Nat)
  deriving DecidableEq

def QueryError.message : QueryError → String
  | .unassigned name => s!"Value of variable \"{name}\" is not given"
  | .tooManyVariables count limit => s!"Too many variables: {count} distinct, limit is {limit}"

/-! ## Sources of values -/

/-- Answers each name with the value of that variable, if it has one. -/
abbrev Valuation := String → Option Bool

/-- A source of values that notes each name it is asked for, the last one first. -/
def Valuation.recording (v : Valuation) (name : String) : StateM (List String) (Option Bool) := do
  modify (name :: ·)
  return v name

namespace Formula

variable {m : Type → Type} [Monad m]

/-- The formula with its variables looked up, or the first one that has no value. -/
def lookUp (v : String → m (Option Bool)) (f : Formula String) : ExceptT QueryError m (Formula Bool) :=
  f.mapM fun name => do
    match ← ExceptT.lift (v name) with
    | some b => return b
    | none => throw (.unassigned name)

/-- The truth value of the formula over any source of values. -/
def evaluateM (v : String → m (Option Bool)) (f : Formula String) : m (Except QueryError Bool) :=
  ExceptT.run do return (← f.lookUp v).holds id

/-- The truth value of the formula. -/
def evaluate (v : Valuation) (f : Formula String) : Except QueryError Bool := f.evaluateM (m := Id) v

/-- The names among the given ones that have no value; each is asked for once, in order. -/
def unassignedAmong (v : String → m (Option Bool)) : List String → m (List String)
  | [] => return []
  | name :: names => do
      let value ← v name
      let rest ← unassignedAmong v names
      return if value.isNone then name :: rest else rest

/-- The distinct variables without a value, over any source of values. -/
def unassignedVarsM (v : String → m (Option Bool)) (f : Formula String) : m (List String) :=
  unassignedAmong v f.distinctVars

/-- The distinct variables without a value. -/
def unassignedVars (v : Valuation) (f : Formula String) : List String :=
  f.unassignedVarsM (m := Id) v

end Formula

end Propositional
