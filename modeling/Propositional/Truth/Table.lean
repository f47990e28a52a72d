import Propositional.Journal
import Propositional.Truth.Assignment
import Propositional.Truth.Evaluation

/-!
# Truth tables

The rows of a truth table are numbered by 64-bit words. Bit `i` of a row's number is the value of the `i`-th
variable in the order of first occurrence. The names in the formula are replaced by their positions once,
before any row is evaluated, so that going through the rows looks no name up.

A row may be evaluated by any computation (`toListM`, `searchM`); the value of the formula is one (`valueIn`).
-/

namespace Propositional

/-- A formula prepared for going through its rows. -/
structure TruthTable where
  /-- The distinct variables; a name's position is its bit in the number of a row. -/
  names : List String
  /-- The formula over these positions. -/
  body : Formula Nat
  deriving DecidableEq

namespace TruthTable

/-- The truth table of a formula, unless there are more distinct variables than the limit admits. -/
def ofFormula (limit : Nat) (f : Formula String) : Except QueryError TruthTable :=
  let names := f.distinctVars
  if limit < names.length then .error (.tooManyVariables names.length limit)
  else do
    let body ← f.mapM fun name =>
      match names.idxOf? name with
      | some i => .ok i
      | none => .error (.unassigned name)
    return ⟨names, body⟩

/-- Bit `i` of the number of a row. -/
def bit (row : UInt64) (i : Nat) : Bool := (row >>> i.toUInt64) &&& 1 == 1

/-- The number of rows. -/
def size (t : TruthTable) : UInt64 := 1 <<< t.names.length.toUInt64

/-- The value of the formula in a row. -/
def valueIn (t : TruthTable) (row : UInt64) : Bool := t.body.holds (bit row)

/-- The assignment that a row stands for. -/
def assignmentIn (t : TruthTable) (row : UInt64) : Assignment :=
  .ofList (t.names.mapIdx fun i name => (name, bit row i))

/-! ## Going through the rows -/

variable {m : Type → Type} [Monad m]

/-- All rows in counting order, each with its value. -/
def toListM (value : UInt64 → m Bool) (t : TruthTable) : m (List (Assignment × Bool)) :=
  (List.range t.size.toNat).mapM fun n => return (t.assignmentIn n.toUInt64, ← value n.toUInt64)

/-- The first of `count` words from `row` on that satisfies `p`. -/
def firstFromM (p : UInt64 → m Bool) : (count : Nat) → (row : UInt64) → m (Option UInt64)
  | 0, _ => return none
  | count + 1, row => do if ← p row then return some row else firstFromM p count (row + 1)

/-- The first row in counting order with the wanted value. -/
def firstM? (value : UInt64 → m Bool) (t : TruthTable) (wanted : Bool) : m (Option UInt64) :=
  firstFromM (fun row => return (← value row) == wanted) t.size.toNat 0

/-- Finds the first row with the wanted value and keeps a journal of the search. -/
def searchM (value : UInt64 → m Bool) (t : TruthTable) (wanted : Bool) :
    LoggedT QueryError m (Option UInt64) := do
  LoggedT.of (Logged.record [.searching t.size t.names.length wanted])
  let row? ← LoggedT.lift (t.firstM? value wanted)
  LoggedT.of (Logged.record (row?.toList.map (.found · wanted)))
  return row?

end TruthTable

end Propositional
