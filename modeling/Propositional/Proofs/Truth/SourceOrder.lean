import Propositional.Proofs.Language.Conservation
import Propositional.Proofs.Truth.Enumeration

/-!
# The order of a text in its truth table

The names of a formula are numbered as they first appear in the text. No stage between the text and the truth
table changes their order, however the operators are moved, so bit `i` of the number of a row is the value of the
name that comes `i`-th in the text (`Formula.read_source_order`).
-/

namespace Propositional

/-! ## First occurrences -/

/-- The names without those that stand further to the left already. -/
def firstOccurrences (names : List String) : List String :=
  (names.zipIdx.filter fun e => e.1 ∉ names.take e.2).map Prod.fst

theorem firstOccurrences_append_singleton (names : List String) (name : String) :
    firstOccurrences (names ++ [name]) = firstOccurrences names ++ if name ∈ names then [] else [name] := by
  have hbefore : (names.zipIdx.filter fun e => e.1 ∉ (names ++ [name]).take e.2) =
      names.zipIdx.filter fun e => e.1 ∉ names.take e.2 := by
    refine List.filter_congr fun e he => ?_
    have hlt : e.2 < names.length := by simpa using List.snd_lt_of_mem_zipIdx he
    rw [List.take_append_of_le_length (Nat.le_of_lt hlt)]
  rw [firstOccurrences, List.zipIdx_append, List.filter_append, hbefore, List.map_append]
  congr 1
  by_cases h : name ∈ names <;> simp [h]

theorem eraseDups_eq_firstOccurrences (names : List String) : names.eraseDups = firstOccurrences names := by
  induction names using List.reverseRecOn with
  | nil => rfl
  | append_singleton names name ih =>
      rw [firstOccurrences_append_singleton, eraseDups_append_singleton, ih]

/-! ## The names of a text -/

/-- The variables among the tokens, each as often as it occurs. -/
def Token.names (ts : List Token) : List String := (ts.map kind).filterMap Kind.name?

namespace Formula

/-- In the rows of a table, the names have the bits of the row's number in the order of the distinct variables, both
for the assignment of the row and for the value of the formula. -/
theorem get?_assignmentIn {limit : Nat} {f : Formula String} {t : TruthTable} (hlimit : limit ≤ Limits.maxCountable)
    (ht : TruthTable.ofFormula limit f = .ok t) (row : UInt64) :
    f.evaluate (t.assignmentIn row).get? = .ok (t.valueIn row) ∧ ∀ (i : Nat) (name : String),
      f.distinctVars[i]? = some name → (t.assignmentIn row).get? name = some (row.toNat.testBit i) := by
  obtain ⟨hwidth, rfl⟩ := TruthTable.ofFormula_eq_ok_iff.mp ht
  have hrow : row.toNat.toUInt64 = row := UInt64.ofNat_toNat
  have heval := evaluate_row f row.toNat
  rw [Formula.row, rowValue, hrow] at heval
  refine ⟨heval, fun i name hname => ?_⟩
  obtain ⟨hi, rfl⟩ := List.getElem?_eq_some_iff.mp hname
  have hget := get?_row f row.toNat f.distinctVars[i]
  rw [Formula.row, hrow, if_pos (List.getElem_mem hi), valuesIn_getElem (Nat.le_trans hwidth hlimit)] at hget
  exact hget

/-- A formula that is read from a text has the variables of the text in their order, and a node for each token that
is no parenthesis, made by the operator of that token. Its distinct variables are the first occurrences in the text,
and the `i`-th of them has bit `i` of a row's number as its value. -/
theorem read_source_order {text : String} {f : Formula String} (h : (read text).result = .ok f) :
    ∃ ts, (Token.scan text).result = .ok ts ∧ f.vars = Token.names ts ∧
      f.size = (Token.withoutParens ts).length ∧
      (∀ op, f.countOperator op = (ts.map Token.kind).count (.operator op)) ∧
      f.distinctVars = firstOccurrences (Token.names ts) ∧
      ∀ limit t, limit ≤ Limits.maxCountable → TruthTable.ofFormula limit f = .ok t → ∀ row,
        f.evaluate (t.assignmentIn row).get? = .ok (t.valueIn row) ∧ ∀ (i : Nat) (name : String),
          (firstOccurrences (Token.names ts))[i]? = some name →
            (t.assignmentIn row).get? name = some (row.toNat.testBit i) := by
  obtain ⟨ts, hts, _⟩ := read_eq_ok_iff.mp h
  have hvars : f.vars = Token.names ts := vars_of_read h hts
  have hdistinct : f.distinctVars = firstOccurrences (Token.names ts) := by
    rw [distinctVars, hvars, eraseDups_eq_firstOccurrences]
  refine ⟨ts, hts, hvars, size_of_read h hts, fun op => countOperator_of_read op h hts, hdistinct, ?_⟩
  intro limit t hlimit ht row
  rw [← hdistinct]
  exact get?_assignmentIn hlimit ht row

/-- The text `(b -> NOT a) b AND ` names `b` first, and has its conjunction behind both operands. -/
theorem read_source_order_postfix :
    let text := "(b -> NOT a) b AND "
    let f : Formula String := .binary .and (.binary .implies (.var "b") (.not (.var "a"))) (.var "b")
    (read text).result = .ok f ∧ ∃ ts, (Token.scan text).result = .ok ts ∧ f.vars = Token.names ts ∧
      f.size = (Token.withoutParens ts).length ∧
      (∀ op, f.countOperator op = (ts.map Token.kind).count (.operator op)) ∧
      f.distinctVars = firstOccurrences (Token.names ts) ∧
      ∀ limit t, limit ≤ Limits.maxCountable → TruthTable.ofFormula limit f = .ok t → ∀ row,
        f.evaluate (t.assignmentIn row).get? = .ok (t.valueIn row) ∧ ∀ (i : Nat) (name : String),
          (firstOccurrences (Token.names ts))[i]? = some name →
            (t.assignmentIn row).get? name = some (row.toNat.testBit i) := by
  intro text f
  have h : (read text).result = .ok f := by decide +kernel
  exact ⟨h, read_source_order h⟩

end Formula

end Propositional
