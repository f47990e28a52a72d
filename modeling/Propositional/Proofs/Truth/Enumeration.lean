import Mathlib.Logic.ExistsUnique
import Propositional.Proofs.Truth.Assignments
import Propositional.Proofs.Truth.Decision

/-!
# Enumeration of all assignments

The rows of a truth table are the assignments of the formula's variables in the order of their numbers. So a
search for a row finds the first assignment of its kind (`Formula.counterexample_first`), and the whole table
has each assignment once, with the value that evaluation gives (`Formula.truthTable_rows`).
-/

namespace Propositional

theorem nodup_eraseDups (names : List String) : names.eraseDups.Nodup := by
  cases names with
  | nil => exact List.nodup_nil
  | cons name names =>
      rw [List.eraseDups_cons, List.nodup_cons, List.mem_eraseDups]
      exact ⟨by simp, nodup_eraseDups _⟩
termination_by names.length
decreasing_by exact Nat.lt_succ_of_le (List.length_filter_le _ _)

theorem eraseDups_append_singleton (names : List String) (name : String) :
    (names ++ [name]).eraseDups = names.eraseDups ++ if name ∈ names then [] else [name] := by
  rw [List.eraseDups_append]
  congr 1
  by_cases h : name ∈ names <;> simp [List.removeAll, h, List.eraseDups_cons]

namespace Formula

theorem nodup_distinctVars (f : Formula String) : f.distinctVars.Nodup := nodup_eraseDups f.vars

variable {limits : Limits} {f : Formula String} {a : Assignment} {n : Nat}

/-! ## Rows as assignments -/

def row (f : Formula String) (n : Nat) : Assignment := f.table.assignmentIn n.toUInt64

def rowValue (f : Formula String) (n : Nat) : Bool := f.table.valueIn n.toUInt64

theorem get?_row (f : Formula String) (n : Nat) (name : String) : (f.row n).get? name =
    if name ∈ f.distinctVars then some (f.table.valuesIn n.toUInt64 name) else none :=
  Assignment.get?_ofList_mapIdx f.nodup_distinctVars _ name

theorem binds_row (f : Formula String) (n : Nat) : (f.row n).Binds f.distinctVars := by
  intro name
  rw [get?_row]
  split
  case isTrue h => simp [h]
  case isFalse h => simp [h]

/-- Both ways of reading a row give the formula the same value: by the positions of the names, and by looking
the names up in the assignment. -/
theorem evaluate_row (f : Formula String) (n : Nat) : f.evaluate (f.row n).get? = .ok (f.rowValue n) := by
  have hget (name) (hname : name ∈ f.vars) :
      (f.row n).get? name = some (f.table.valuesIn n.toUInt64 name) := by
    rw [get?_row, if_pos (TruthTable.mem_distinctVars_iff.mpr hname)]
  rw [evaluate_of_assigns fun name hname => by rw [hget name hname]; rfl, rowValue, TruthTable.valueIn_table]
  congr 1
  refine holds_congr fun name hname => ?_
  rw [Valuation.total, hget name hname]
  rfl

section

variable (hwidth : f.distinctVars.length ≤ Limits.maxCountable)
include hwidth

/-- In each row, the name at position `i` has the value of bit `i` of the row's number. -/
theorem valuesIn_getElem (row : UInt64) {i : Nat} (hi : i < f.distinctVars.length) :
    f.table.valuesIn row f.distinctVars[i] = row.toNat.testBit i := by
  have hi64 : i < 64 := Nat.lt_of_lt_of_le hi (Nat.le_succ_of_le hwidth)
  have hidx : f.table.names.idxOf f.distinctVars[i] = i := f.nodup_distinctVars.idxOf_getElem i hi
  rw [TruthTable.valuesIn, hidx, TruthTable.bit_eq_testBit hi64]

theorem get?_row_getElem (hn : n < 2 ^ f.distinctVars.length) {i : Nat} (hi : i < f.distinctVars.length) :
    (f.row n).get? f.distinctVars[i] = some (n.testBit i) := by
  have hsize := Nat.lt_trans hn (TruthTable.two_pow_lt_size hwidth)
  rw [get?_row, if_pos (List.getElem_mem hi), valuesIn_getElem hwidth, Nat.toUInt64,
    UInt64.toNat_ofNat_of_lt' hsize]

theorem number_row (hn : n < 2 ^ f.distinctVars.length) : (f.row n).number f.distinctVars = n := by
  refine Nat.eq_of_testBit_eq fun i => ?_
  rw [Bool.eq_iff_iff, Assignment.testBit_number]
  by_cases hi : i < f.distinctVars.length
  · simp [hi, get?_row_getElem hwidth hn hi]
  · have hle := Nat.not_lt.mp hi
    have hbit : n.testBit i = false :=
      Nat.testBit_lt_two_pow (Nat.lt_of_lt_of_le hn (Nat.pow_le_pow_right Nat.two_pos hle))
    simp [List.getElem?_eq_none hle, hbit]

theorem row_number (ha : a.Binds f.distinctVars) : f.row (a.number f.distinctVars) = a := by
  refine Assignment.ext_get? fun name => ?_
  by_cases hname : name ∈ f.distinctVars
  · obtain ⟨i, hi, rfl⟩ := List.getElem_of_mem hname
    obtain ⟨b, hb⟩ := Option.isSome_iff_exists.mp ((ha _).mpr hname)
    have htest : (a.number f.distinctVars).testBit i = true ↔ b = true := by
      simp [Assignment.testBit_number, hi, hb]
    rw [get?_row_getElem hwidth (a.number_lt _) hi, hb, Bool.eq_iff_iff.mpr htest]
  · have hnone := mt (ha name).mp hname
    rw [get?_row, if_neg hname, Option.not_isSome_iff_eq_none.mp hnone]

theorem evaluate_of_binds (ha : a.Binds f.distinctVars) :
    f.evaluate a.get? = .ok (f.rowValue (a.number f.distinctVars)) := by
  rw [← evaluate_row, row_number hwidth ha]

theorem first?_table (wanted : Bool) : f.table.first? wanted =
    ((List.range (2 ^ f.distinctVars.length)).find? fun n => f.rowValue n == wanted).map Nat.toUInt64 := by
  rw [TruthTable.first?, TruthTable.rows, TruthTable.toNat_size hwidth, List.find?_map]
  rfl

end

/-! ## The first counterexample -/

/-- The first assignment of exactly the variables of the formula, in counting order, under which the formula is
false. -/
structure IsFirstCounterexample (f : Formula String) (a : Assignment) : Prop where
  binds : a.Binds f.distinctVars
  evaluate_eq : f.evaluate a.get? = .ok false
  least : ∀ b : Assignment, b.Binds f.distinctVars → b.number f.distinctVars < a.number f.distinctVars →
    f.evaluate b.get? = .ok true

theorem isFirstCounterexample_iff (hwidth : f.distinctVars.length ≤ Limits.maxCountable) :
    f.IsFirstCounterexample a ↔ ∃ n < 2 ^ f.distinctVars.length, f.row n = a ∧ f.rowValue n = false ∧
      ∀ m < n, f.rowValue m = true := by
  constructor
  · rintro ⟨hbinds, hfalse, hleast⟩
    have hlt := a.number_lt f.distinctVars
    rw [evaluate_of_binds hwidth hbinds] at hfalse
    refine ⟨_, hlt, row_number hwidth hbinds, Except.ok.inj hfalse, fun m hm => ?_⟩
    have hnumber := number_row hwidth (Nat.lt_trans hm hlt)
    have htrue := hleast _ (f.binds_row m) (by rwa [hnumber])
    rw [evaluate_row] at htrue
    exact Except.ok.inj htrue
  · rintro ⟨n, hn, rfl, hfalse, hleast⟩
    refine ⟨f.binds_row n, by rw [evaluate_row, hfalse], fun b hb hlt => ?_⟩
    rw [number_row hwidth hn] at hlt
    rw [evaluate_of_binds hwidth hb, hleast _ hlt]

theorem result_counterexample_eq_find? (h : f.distinctVars.length ≤ limits.forSearches) :
    (f.counterexample limits).result =
      .ok (((List.range (2 ^ f.distinctVars.length)).find? fun n => !f.rowValue n).map f.row) := by
  rw [result_counterexample h, first?_table (length_le_maxCountable h), Option.map_map]
  simp only [beq_false]
  rfl

/-- As long as the limits admit the variables of the formula, a search for a counterexample is answered. It finds
nothing exactly if no assignment of the variables makes the formula false, and it finds an assignment exactly if
that is the first counterexample in counting order. -/
theorem counterexample_first (h : f.distinctVars.length ≤ limits.forSearches) :
    ∃ found, (f.counterexample limits).result = .ok found ∧
      (found = none ↔ ¬∃ a : Assignment, a.Binds f.distinctVars ∧ f.evaluate a.get? = .ok false) ∧
      ∀ a, found = some a ↔ f.IsFirstCounterexample a := by
  have hwidth := length_le_maxCountable h
  refine ⟨_, result_counterexample_eq_find? h, ?_, fun a => ?_⟩
  · simp only [Option.map_eq_none_iff, List.find?_eq_none, List.mem_range, Bool.not_eq_true']
    constructor
    · rintro hnone ⟨a, ha, hfalse⟩
      rw [evaluate_of_binds hwidth ha] at hfalse
      exact hnone _ (a.number_lt _) (Except.ok.inj hfalse)
    · intro hnot n _ hfalse
      exact hnot ⟨f.row n, f.binds_row n, by rw [evaluate_row, hfalse]⟩
  · rw [isFirstCounterexample_iff hwidth, Option.map_eq_some_iff]
    simp only [List.find?_range_eq_some, List.mem_range, Bool.not_eq_true', Bool.not_not]
    constructor
    · rintro ⟨n, ⟨hfalse, hn, hleast⟩, hrow⟩
      exact ⟨n, hn, hrow, hfalse, hleast⟩
    · rintro ⟨n, hn, hrow, hfalse, hleast⟩
      exact ⟨n, ⟨hfalse, hn, hleast⟩, hrow⟩

/-- The implication `a -> b` is false under one of the four assignments. -/
theorem counterexample_first_implication :
    let f : Formula String := .binary .implies (.var "a") (.var "b")
    f.distinctVars.length ≤ Limits.standard.forSearches ∧
      ∃ found, (f.counterexample .standard).result = .ok found ∧
        (found = none ↔ ¬∃ a : Assignment, a.Binds f.distinctVars ∧ f.evaluate a.get? = .ok false) ∧
        ∀ a, found = some a ↔ f.IsFirstCounterexample a :=
  ⟨by decide, counterexample_first (by decide)⟩

/-! ## The whole table -/

/-- The rows are all assignments of exactly the variables of the formula, in counting order, each with the value of
the formula. -/
structure IsTruthTable (f : Formula String) (rows : List (Assignment × Bool)) : Prop where
  length_eq : rows.length = 2 ^ f.distinctVars.length
  /-- In row `k`, the variable at position `i` has the value of bit `i` of `k`. -/
  get?_eq : ∀ (k : Nat) (row : Assignment × Bool), rows[k]? = some row → ∀ (i : Nat) (name : String),
    f.distinctVars[i]? = some name → row.1.get? name = some (k.testBit i)
  binds : ∀ row ∈ rows, row.1.Binds f.distinctVars
  evaluate_eq : ∀ row ∈ rows, f.evaluate row.1.get? = .ok row.2
  existsUnique : ∀ a : Assignment, a.Binds f.distinctVars → ∃! k : Nat, (rows.map Prod.fst)[k]? = some a

/-- The rows of the truth table, each number with its assignment and its value. -/
def rows (f : Formula String) : List (Assignment × Bool) :=
  (List.range (2 ^ f.distinctVars.length)).map fun n => (f.row n, f.rowValue n)

theorem isTruthTable_rows (hwidth : f.distinctVars.length ≤ Limits.maxCountable) : f.IsTruthTable f.rows where
  length_eq := by rw [rows, List.length_map, List.length_range]
  get?_eq := by
    intro k row hrow i name hname
    obtain ⟨hi, rfl⟩ := List.getElem?_eq_some_iff.mp hname
    obtain ⟨hk, rfl⟩ := List.getElem?_eq_some_iff.mp hrow
    rw [rows, List.length_map, List.length_range] at hk
    simp [rows, get?_row_getElem hwidth hk hi]
  binds := by
    intro row hrow
    obtain ⟨n, _, rfl⟩ := List.mem_map.mp hrow
    exact f.binds_row n
  evaluate_eq := by
    intro row hrow
    obtain ⟨n, _, rfl⟩ := List.mem_map.mp hrow
    exact f.evaluate_row n
  existsUnique := by
    intro a ha
    have hlt := a.number_lt f.distinctVars
    have hiff (k : Nat) : (f.rows.map Prod.fst)[k]? = some a ↔
        k < 2 ^ f.distinctVars.length ∧ f.row k = a := by
      simp [rows, List.getElem?_eq_some_iff]
    refine ⟨a.number f.distinctVars, (hiff _).mpr ⟨hlt, row_number hwidth ha⟩, fun k hk => ?_⟩
    obtain ⟨hklt, rfl⟩ := (hiff k).mp hk
    exact (number_row hwidth hklt).symm

theorem truthTable_eq_rows (h : f.distinctVars.length ≤ limits.forTables) : f.truthTable limits = .ok f.rows := by
  have hwidth := length_le_maxCountable (length_le_forSearches h)
  rw [truthTable_eq, TruthTable.ofFormula_eq_ok h]
  show Except.ok f.table.toList = _
  rw [TruthTable.toList, TruthTable.rows, TruthTable.toNat_size hwidth, List.map_map]
  rfl

/-- As long as the limits admit the variables of the formula in a table, the table has every assignment of them
once, in counting order and with the value of the formula. The searches agree with the table. -/
theorem truthTable_rows (h : f.distinctVars.length ≤ limits.forTables) :
    ∃ rows, f.truthTable limits = .ok rows ∧ f.IsTruthTable rows ∧
      (f.counterexample limits).result = .ok ((rows.find? fun row => !row.2).map Prod.fst) ∧
      (f.isTautology limits).result = .ok (rows.all Prod.snd) ∧
      (f.isSatisfiable limits).result = .ok (rows.any Prod.snd) ∧
      (f.isContradiction limits).result = .ok (!rows.any Prod.snd) := by
  have hsearch : f.distinctVars.length ≤ limits.forSearches := Nat.le_trans h (Nat.min_le_right _ _)
  have hwidth := length_le_maxCountable hsearch
  have hany : (f.table.first? true).isSome = f.rows.any Prod.snd := by
    rw [first?_table hwidth, Option.isSome_map, List.isSome_find?, rows, List.any_map]
    simp only [beq_true, Function.comp_def]
  have hall : (f.table.first? false).isNone = f.rows.all Prod.snd := by
    rw [first?_table hwidth, Option.isNone_map, ← Option.not_isSome, List.isSome_find?, rows, List.all_map,
      List.all_eq_not_any_not]
    simp only [beq_false, Function.comp_def]
  refine ⟨f.rows, truthTable_eq_rows h, isTruthTable_rows hwidth, ?_, ?_, ?_, ?_⟩
  · rw [result_counterexample_eq_find? hsearch, rows, List.find?_map, Option.map_map]
    rfl
  · rw [result_isTautology hsearch, hall]
  · rw [result_isSatisfiable hsearch, hany]
  · rw [result_isContradiction hsearch, ← hany, Option.not_isSome]

/-- The standard limits admit the table of `a -> b`. -/
theorem truthTable_rows_implication :
    let f : Formula String := .binary .implies (.var "a") (.var "b")
    f.distinctVars.length ≤ Limits.standard.forTables ∧
      ∃ rows, f.truthTable .standard = .ok rows ∧ f.IsTruthTable rows ∧
        (f.counterexample .standard).result = .ok ((rows.find? fun row => !row.2).map Prod.fst) ∧
        (f.isTautology .standard).result = .ok (rows.all Prod.snd) ∧
        (f.isSatisfiable .standard).result = .ok (rows.any Prod.snd) ∧
        (f.isContradiction .standard).result = .ok (!rows.any Prod.snd) :=
  ⟨by decide, truthTable_rows (by decide)⟩

end Formula

end Propositional
