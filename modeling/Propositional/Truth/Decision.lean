import Propositional.Truth.Limits
import Propositional.Truth.Table

/-!
# Questions about all assignments

Whether a formula is true under all assignments of its variables, under some or under none, and its whole
truth table. Each question is refused if the formula has more distinct variables than the limits admit.

A question can be asked over any way of evaluating rows (`counterexampleM` and so on). The answer about the
formula itself takes the values that it has in the rows.
-/

namespace Propositional.Formula

/-! ## Questions over any way of evaluating rows -/

section

variable {m : Type → Type} [Monad m] (value : TruthTable → UInt64 → m Bool) (limits : Limits) (f : Formula String)

def counterexampleM : LoggedT QueryError m (Option Assignment) := do
  let t ← LoggedT.of (Logged.ofExcept (TruthTable.ofFormula limits.forSearches f))
  let row? ← t.searchM (value t) false
  return row?.map t.assignmentIn

def isTautologyM : LoggedT QueryError m Bool := do
  return (← f.counterexampleM value limits).isNone

def isSatisfiableM : LoggedT QueryError m Bool := do
  let t ← LoggedT.of (Logged.ofExcept (TruthTable.ofFormula limits.forSearches f))
  return (← t.searchM (value t) true).isSome

def isContradictionM : LoggedT QueryError m Bool := do
  return !(← f.isSatisfiableM value limits)

def truthTableM : m (Except QueryError (List (Assignment × Bool))) :=
  match TruthTable.ofFormula limits.forTables f with
  | .ok t => return .ok (← t.toListM (value t))
  | .error e => return .error e

end

/-! ## Answers about the formula -/

/-- The first assignment in counting order under which the formula is false. -/
def counterexample (limits : Limits) (f : Formula String) : Logged QueryError (Option Assignment) :=
  f.counterexampleM (m := Id) TruthTable.valueIn limits

/-- Whether the formula is true under all assignments. -/
def isTautology (limits : Limits) (f : Formula String) : Logged QueryError Bool :=
  f.isTautologyM (m := Id) TruthTable.valueIn limits

/-- Whether the formula is true under some assignment. -/
def isSatisfiable (limits : Limits) (f : Formula String) : Logged QueryError Bool :=
  f.isSatisfiableM (m := Id) TruthTable.valueIn limits

/-- Whether the formula is false under all assignments. -/
def isContradiction (limits : Limits) (f : Formula String) : Logged QueryError Bool :=
  f.isContradictionM (m := Id) TruthTable.valueIn limits

/-- Every assignment in counting order, with the value of the formula. -/
def truthTable (limits : Limits) (f : Formula String) : Except QueryError (List (Assignment × Bool)) :=
  f.truthTableM (m := Id) TruthTable.valueIn limits

end Propositional.Formula
