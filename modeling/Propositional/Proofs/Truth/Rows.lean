import Mathlib.Algebra.Group.Nat.Defs
import Mathlib.Data.List.Basic
import Mathlib.Data.Nat.Init
import Propositional.Proofs.Truth.Evaluation
import Propositional.Truth.Limits
import Propositional.Truth.Table

/-!
# The rows of a truth table

The numbers of the rows count all assignments of the distinct variables, so a formula has a value in some row
exactly if it has this value under some assignment. Whatever else is done with the rows that are evaluated, a search
goes through them in order and ends at the first such row (`TruthTable.run_searchM_noting`).
-/

namespace Propositional

/-! ## The prepared formula -/

/-- The truth table of a formula, whatever the limits. -/
def Formula.table (f : Formula String) : TruthTable :=
  ⟨f.distinctVars, f.map fun name => f.distinctVars.idxOf name⟩

namespace TruthTable

variable {f : Formula String}

theorem mem_distinctVars_iff {name : String} : name ∈ f.distinctVars ↔ name ∈ f.vars := List.mem_eraseDups

/-- Every name in the formula is found among its distinct variables. -/
theorem ofFormula_eq_ok {limit : Nat} (h : f.distinctVars.length ≤ limit) :
    ofFormula limit f = .ok f.table := by
  rw [ofFormula, if_neg (Nat.not_lt.mpr h), Formula.mapM_eq_pure (h := fun name => f.distinctVars.idxOf name)]
  · rfl
  · intro name hname
    have hsome : (f.distinctVars.idxOf? name).isSome :=
      List.isSome_idxOf?.mpr (mem_distinctVars_iff.mpr hname)
    obtain ⟨i, hi⟩ := Option.isSome_iff_exists.mp hsome
    rw [List.idxOf_eq_getD_idxOf?, hi]
    rfl

/-- Too many variables are the only reason why there is no table. -/
theorem ofFormula_eq_error {limit : Nat} (h : limit < f.distinctVars.length) :
    ofFormula limit f = .error (.tooManyVariables f.distinctVars.length limit) := by
  rw [ofFormula, if_pos h]

theorem ofFormula_eq_ok_iff {limit : Nat} {t : TruthTable} :
    ofFormula limit f = .ok t ↔ f.distinctVars.length ≤ limit ∧ t = f.table := by
  constructor
  · intro h
    by_cases hlimit : f.distinctVars.length ≤ limit
    · rw [ofFormula_eq_ok hlimit] at h
      exact ⟨hlimit, (Except.ok.inj h).symm⟩
    · rw [ofFormula_eq_error (Nat.lt_of_not_le hlimit)] at h
      cases h
  · rintro ⟨hlimit, rfl⟩
    exact ofFormula_eq_ok hlimit

/-! ## Words as assignments -/

theorem two_pow_lt_size {n : Nat} (h : n ≤ Limits.maxCountable) : 2 ^ n < UInt64.size :=
  show 2 ^ n < 2 ^ 64 from Nat.pow_lt_pow_right Nat.one_lt_two (Nat.lt_succ_of_le h)

theorem toNat_shift {i : Nat} (hi : i < 64) : i.toUInt64.toNat % 64 = i := by
  rw [Nat.toUInt64, UInt64.toNat_ofNat']
  omega

theorem bit_eq_testBit {i : Nat} (hi : i < 64) (row : UInt64) : bit row i = row.toNat.testBit i := by
  rw [bit, Nat.testBit, Bool.eq_iff_iff]
  simp only [beq_iff_eq, bne_iff_ne, ← UInt64.toNat_inj, UInt64.toNat_and, UInt64.toNat_shiftRight,
    toNat_shift hi, UInt64.toNat_one, Nat.and_one_is_mod, Nat.one_and_eq_mod_two]
  omega

/-- Up to the largest admitted width there is one row for each choice of bits. -/
theorem toNat_size {t : TruthTable} (h : t.names.length ≤ Limits.maxCountable) :
    t.size.toNat = 2 ^ t.names.length := by
  have hshift := toNat_shift (Nat.lt_succ_of_le h)
  rw [size, UInt64.toNat_shiftLeft, hshift, UInt64.toNat_one, Nat.one_shiftLeft]
  exact Nat.mod_eq_of_lt (two_pow_lt_size h)

/-- The values of all names in a row. -/
def valuesIn (t : TruthTable) (row : UInt64) (name : String) : Bool := bit row (t.names.idxOf name)

theorem valueIn_table (row : UInt64) : f.table.valueIn row = f.holds (f.table.valuesIn row) :=
  Formula.holds_map _ _ f

/-- Every choice of values for the names is made in some row. -/
theorem exists_row {t : TruthTable} (h : t.names.length ≤ Limits.maxCountable) (v : String → Bool) :
    ∃ n < t.size.toNat, ∀ name ∈ t.names, t.valuesIn n.toUInt64 name = v name := by
  have hlt := Nat.ofBits_lt_two_pow fun i : Fin t.names.length => v t.names[i]
  refine ⟨_, by rwa [toNat_size h], ?_⟩
  intro name hname
  have hi : t.names.idxOf name < t.names.length := List.idxOf_lt_length_iff.mpr hname
  have hi64 : t.names.idxOf name < 64 := Nat.lt_of_lt_of_le hi (Nat.le_succ_of_le h)
  have hsize := Nat.lt_trans hlt (two_pow_lt_size h)
  rw [valuesIn, bit_eq_testBit hi64, Nat.toUInt64, UInt64.toNat_ofNat_of_lt' hsize,
    Nat.testBit_ofBits_lt _ _ hi]
  exact congrArg v (List.getElem_idxOf hi)

theorem exists_valueIn_iff (h : f.distinctVars.length ≤ Limits.maxCountable) {b : Bool} :
    (∃ n < f.table.size.toNat, f.table.valueIn n.toUInt64 = b) ↔ ∃ v, f.holds v = b := by
  constructor
  · rintro ⟨n, _, hn⟩
    exact ⟨_, by rwa [valueIn_table] at hn⟩
  · rintro ⟨v, rfl⟩
    obtain ⟨n, hn, hv⟩ := exists_row (show f.table.names.length ≤ _ from h) v
    refine ⟨n, hn, ?_⟩
    rw [valueIn_table]
    exact Formula.holds_congr fun name hname => hv name (mem_distinctVars_iff.mpr hname)

/-! ## Going through the rows -/

theorem toUInt64_add_one (n : Nat) : n.toUInt64 + 1 = (n + 1).toUInt64 := (UInt64.ofNat_add n 1).symm

/-- The numbers of all rows, in counting order. -/
def rows (t : TruthTable) : List UInt64 := (List.range t.size.toNat).map Nat.toUInt64

/-- All rows in counting order, each with the value of the formula. -/
def toList (t : TruthTable) : List (Assignment × Bool) := t.rows.map fun row => (t.assignmentIn row, t.valueIn row)

/-- The first row in counting order in which the formula has the wanted value. -/
def first? (t : TruthTable) (wanted : Bool) : Option UInt64 := t.rows.find? fun row => t.valueIn row == wanted

/-- The rows up to the first one in which the formula has the wanted value, this one included; all rows if there is no
such one. -/
def rowsUpTo (t : TruthTable) (wanted : Bool) : List UInt64 :=
  t.rows.take (t.rows.findIdx (fun row => t.valueIn row == wanted) + 1)

/-- The journal of a search, and the row that is found. -/
def search (t : TruthTable) (wanted : Bool) : Logged QueryError (Option UInt64) :=
  ⟨.searching t.size t.names.length wanted :: (t.first? wanted).toList.map (.found · wanted), .ok (t.first? wanted)⟩

section

variable {m : Type → Type} [Monad m]

/-- Evaluates a row after something is done with its number. -/
def noting (note : UInt64 → m Unit) (t : TruthTable) (row : UInt64) : m Bool := do
  note row
  return t.valueIn row

variable [LawfulMonad m] (note : UInt64 → m Unit) (t : TruthTable)

theorem firstFromM_noting (p : UInt64 → Bool) (count n : Nat) :
    firstFromM (fun row => do note row; return p row) count n.toUInt64 = do
      let rows := (List.range' n count).map Nat.toUInt64
      forM (rows.take (rows.findIdx p + 1)) note
      return rows.find? p := by
  induction count generalizing n with
  | zero => simp [firstFromM]
  | succ count ih =>
      rw [firstFromM, List.range'_succ, List.map_cons, toUInt64_add_one]
      simp only [bind_assoc, pure_bind, List.findIdx_cons, List.take_succ_cons, List.forM_cons, List.find?_cons]
      refine bind_congr fun _ => ?_
      cases p n.toUInt64 with
      | true => simp
      | false => exact ih (n + 1)

/-- A search evaluates the rows in counting order and none after the one that it finds. -/
theorem firstM?_noting (wanted : Bool) : t.firstM? (t.noting note) wanted = do
    forM (t.rowsUpTo wanted) note
    return t.first? wanted := by
  have h := firstFromM_noting note (fun row => t.valueIn row == wanted) t.size.toNat 0
  rw [firstM?, rowsUpTo, first?, rows, List.range_eq_range']
  simp only [noting, bind_assoc, pure_bind]
  exact h

theorem run_searchM_noting (wanted : Bool) : (t.searchM (t.noting note) wanted).run = do
    forM (t.rowsUpTo wanted) note
    return t.search wanted := by
  rw [searchM, firstM?_noting]
  simp only [LoggedT.run_bind, LoggedT.run_of, LoggedT.run_lift, LoggedT.run_pure, Logged.record, Logged.ofExcept,
    bind_assoc, pure_bind, List.nil_append, List.append_nil]
  rfl

/-- The whole table evaluates each row once. -/
theorem toListM_noting : t.toListM (t.noting note) = do
    forM t.rows note
    return t.toList := by
  rw [toListM, toList, rows]
  induction List.range t.size.toNat with
  | nil => simp
  | cons n ns ih =>
      rw [List.mapM_cons, ih]
      simp [noting]

end

theorem searchM_valueIn (t : TruthTable) (wanted : Bool) : t.searchM (m := Id) t.valueIn wanted = t.search wanted :=
  -- The values are noted by doing nothing with the rows.
  run_searchM_noting (m := Id) (fun _ => pure ()) t wanted

theorem toListM_valueIn (t : TruthTable) : t.toListM (m := Id) t.valueIn = t.toList :=
  toListM_noting (m := Id) (fun _ => pure ()) t

theorem isSome_first?_iff {t : TruthTable} {wanted : Bool} :
    (t.first? wanted).isSome ↔ ∃ n < t.size.toNat, t.valueIn n.toUInt64 = wanted := by
  simp [first?, rows]

end TruthTable

/-! ## States that are changed step by step -/

theorem run_forM_modify {α σ : Type} (g : α → σ → σ) (xs : List α) (s : σ) :
    (forM xs fun x => modify (g x) : StateM σ Unit).run s = ((), xs.foldl (fun s x => g x s) s) := by
  induction xs generalizing s with
  | nil => rfl
  | cons x xs ih =>
      rw [List.forM_cons, StateT.run_bind, List.foldl_cons]
      exact ih (g x s)

end Propositional
