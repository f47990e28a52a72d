import Propositional.Proofs.Truth.Rows
import Propositional.Truth.Decision

/-!
# Answers about all assignments

Searching the rows of the truth table answers questions about all sources of values, of which the rows are but
a few: a formula is asked for its own variables only, and each choice of their values is some row.
-/

namespace Propositional.Formula

variable {limits : Limits} {f : Formula String}

theorem length_le_maxCountable (h : f.distinctVars.length ≤ limits.forSearches) :
    f.distinctVars.length ≤ Limits.maxCountable := Nat.le_trans h (Nat.min_le_right _ _)

theorem length_le_forSearches (h : f.distinctVars.length ≤ limits.forTables) :
    f.distinctVars.length ≤ limits.forSearches := Nat.le_trans h (Nat.min_le_right _ _)

/-- A search finds a row exactly if some complete assignment gives the wanted value. -/
theorem isSome_first?_table_iff (h : f.distinctVars.length ≤ limits.forSearches) {wanted : Bool} :
    (f.table.first? wanted).isSome ↔ ∃ v : Valuation, v.Assigns f ∧ f.evaluate v = .ok wanted := by
  rw [TruthTable.isSome_first?_iff, TruthTable.exists_valueIn_iff (length_le_maxCountable h),
    exists_evaluate_iff]

theorem isNone_first?_table_iff (h : f.distinctVars.length ≤ limits.forSearches) {b : Bool} :
    (f.table.first? (!b)).isNone ↔ ∀ v : Valuation, v.Assigns f → f.evaluate v = .ok b := by
  rw [← not_exists_evaluate_iff, ← isSome_first?_table_iff h, Option.isNone_iff_eq_none,
    Option.not_isSome_iff_eq_none]

/-! ## Admitted questions are answered -/

theorem counterexample_eq (limits : Limits) (f : Formula String) : f.counterexample limits = do
    let t ← Logged.ofExcept (TruthTable.ofFormula limits.forSearches f)
    let row? ← t.search false
    return row?.map t.assignmentIn :=
  bind_congr fun t => congrArg (· >>= _) (t.searchM_valueIn false)

theorem isTautology_eq (limits : Limits) (f : Formula String) : f.isTautology limits = do
    return (← f.counterexample limits).isNone := rfl

theorem isSatisfiable_eq (limits : Limits) (f : Formula String) : f.isSatisfiable limits = do
    let t ← Logged.ofExcept (TruthTable.ofFormula limits.forSearches f)
    return (← t.search true).isSome :=
  bind_congr fun t => congrArg (· >>= _) (t.searchM_valueIn true)

theorem isContradiction_eq (limits : Limits) (f : Formula String) : f.isContradiction limits = do
    return !(← f.isSatisfiable limits) := rfl

theorem truthTable_eq (limits : Limits) (f : Formula String) :
    f.truthTable limits = (TruthTable.ofFormula limits.forTables f).map TruthTable.toList := by
  rw [truthTable, truthTableM]
  cases TruthTable.ofFormula limits.forTables f with
  | error e => rfl
  | ok t => exact congrArg Except.ok t.toListM_valueIn

theorem result_counterexample (h : f.distinctVars.length ≤ limits.forSearches) :
    (f.counterexample limits).result = .ok ((f.table.first? false).map f.table.assignmentIn) := by
  rw [counterexample_eq, TruthTable.ofFormula_eq_ok h]
  rfl

theorem result_isTautology (h : f.distinctVars.length ≤ limits.forSearches) :
    (f.isTautology limits).result = .ok (f.table.first? false).isNone := by
  rw [isTautology_eq, Logged.result_bind, result_counterexample h]
  show Except.ok ((f.table.first? false).map f.table.assignmentIn).isNone = _
  rw [Option.isNone_map]

theorem result_isSatisfiable (h : f.distinctVars.length ≤ limits.forSearches) :
    (f.isSatisfiable limits).result = .ok (f.table.first? true).isSome := by
  rw [isSatisfiable_eq, TruthTable.ofFormula_eq_ok h]
  rfl

theorem result_isContradiction (h : f.distinctVars.length ≤ limits.forSearches) :
    (f.isContradiction limits).result = .ok (f.table.first? true).isNone := by
  rw [isContradiction_eq, Logged.result_bind, result_isSatisfiable h]
  show Except.ok (!(f.table.first? true).isSome) = _
  rw [Option.not_isSome]

/-- As long as the limits admit the variables of the formula, every question is answered without an error, and
the answers are right about all sources that have a value for each variable, whatever else they have. -/
theorem answers_of_length_le (h : f.distinctVars.length ≤ limits.forSearches) :
    ∃ tautology satisfiable contradiction counterexample?,
      (f.isTautology limits).result = .ok tautology ∧
      (f.isSatisfiable limits).result = .ok satisfiable ∧
      (f.isContradiction limits).result = .ok contradiction ∧
      (f.counterexample limits).result = .ok counterexample? ∧
      (tautology = true ↔ ∀ v : Valuation, v.Assigns f → f.evaluate v = .ok true) ∧
      (satisfiable = true ↔ ∃ v : Valuation, v.Assigns f ∧ f.evaluate v = .ok true) ∧
      (contradiction = true ↔ ∀ v : Valuation, v.Assigns f → f.evaluate v = .ok false) :=
  ⟨_, _, _, _, result_isTautology h, result_isSatisfiable h, result_isContradiction h,
    result_counterexample h, isNone_first?_table_iff (b := true) h, isSome_first?_table_iff h,
    isNone_first?_table_iff (b := false) h⟩

/-- The standard limits admit the two variables of `a -> b`. -/
theorem answers_of_implication :
    let f : Formula String := .binary .implies (.var "a") (.var "b")
    f.distinctVars.length ≤ Limits.standard.forSearches ∧
    ∃ tautology satisfiable contradiction counterexample?,
      (f.isTautology .standard).result = .ok tautology ∧
      (f.isSatisfiable .standard).result = .ok satisfiable ∧
      (f.isContradiction .standard).result = .ok contradiction ∧
      (f.counterexample .standard).result = .ok counterexample? ∧
      (tautology = true ↔ ∀ v : Valuation, v.Assigns f → f.evaluate v = .ok true) ∧
      (satisfiable = true ↔ ∃ v : Valuation, v.Assigns f ∧ f.evaluate v = .ok true) ∧
      (contradiction = true ↔ ∀ v : Valuation, v.Assigns f → f.evaluate v = .ok false) :=
  ⟨by decide, answers_of_length_le (by decide)⟩

end Propositional.Formula
