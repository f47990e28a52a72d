import Propositional.Proofs.Language.Renaming
import Propositional.Proofs.Truth.Decision

/-!
# Limits as a guard

Limits only decide whether a question is asked at all (`Formula.answers_guarded`). A question that is refused has
evaluated no row, and one that is asked has the same answer within all limits; then the rows are counted and read in
words of 64 bits without a wrong shift.

To tell which rows are evaluated, the questions are asked over a way of evaluating a row that keeps a list of the rows
(`TruthTable.recording`).
-/

namespace Propositional

/-! ## Rows that are evaluated -/

/-- The computation answers `l` and lists the given rows behind those that are listed before. -/
def Notes {α : Type} (x : LoggedT QueryError (StateM (List UInt64)) α) (rows : List UInt64)
    (l : Logged QueryError α) : Prop :=
  ∀ noted, x.run.run noted = (l, noted ++ rows)

namespace Notes

variable {α β : Type} {x : LoggedT QueryError (StateM (List UInt64)) α} {rows : List UInt64} {l : Logged QueryError α}

theorem of (l : Logged QueryError α) : Notes (.of l) [] l := by
  intro noted
  rw [List.append_nil]
  rfl

theorem of_run_eq (h : x.run = do forM rows fun row => modify (· ++ [row]); return l) : Notes x rows l := by
  intro noted
  rw [h, StateT.run_bind, run_forM_modify, List.foldl_append_eq_append, ← List.flatMap_def, List.flatMap_singleton']
  rfl

theorem map (hx : Notes x rows l) (g : α → β) : Notes (do return g (← x)) rows (do return g (← l)) := by
  intro noted
  rw [LoggedT.run_bind, StateT.run_bind, hx noted]
  obtain ⟨es, result⟩ := l
  cases result <;> rfl

end Notes

namespace TruthTable

/-- Evaluates a row and puts it behind the rows evaluated before. -/
def recording : TruthTable → UInt64 → StateM (List UInt64) Bool := noting fun row => modify (· ++ [row])

theorem notes_searchM (t : TruthTable) (wanted : Bool) :
    Notes (t.searchM (recording t) wanted) (t.rowsUpTo wanted) (t.search wanted) :=
  .of_run_eq (run_searchM_noting _ t wanted)

theorem notes_toListM (t : TruthTable) : Notes (.lift (t.toListM (recording t))) t.rows (pure t.toList) := by
  refine .of_run_eq ?_
  rw [LoggedT.run_lift, recording, toListM_noting, bind_assoc]
  rfl

end TruthTable

namespace Formula

variable {α β : Type} {f : Formula String} {limit : Limits → Nat} {ask : Limits → Logged QueryError α}
  {askM : Limits → LoggedT QueryError (StateM (List UInt64)) α}

/-! ## Refused and asked questions -/

/-- Beyond the limit the question is refused, with no row evaluated and no entry in the journal. Within the limit it is
asked, and the limit has no influence on what is answered and what is written into the journal. -/
structure Guarded (f : Formula String) (limit : Limits → Nat) (ask : Limits → Logged QueryError α)
    (askM : Limits → LoggedT QueryError (StateM (List UInt64)) α) : Prop where
  result_eq_error_iff : ∀ limits e, (ask limits).result = .error e ↔
    limit limits < f.distinctVars.length ∧ e = .tooManyVariables f.distinctVars.length (limit limits)
  /-- The rows that are listed are those of the question that is asked. -/
  notes : ∀ limits, ∃ rows, Notes (askM limits) rows (ask limits)
  notes_nil : ∀ limits, limit limits < f.distinctVars.length → Notes (askM limits) [] (ask limits)
  entries_eq_nil : ∀ limits, limit limits < f.distinctVars.length → (ask limits).entries = []
  eq_of_le : ∀ limits limits', f.distinctVars.length ≤ limit limits → f.distinctVars.length ≤ limit limits' →
    ask limits = ask limits'

theorem guarded_ofFormula (limit : Limits → Nat) {g : TruthTable → Logged QueryError α}
    {gM : TruthTable → LoggedT QueryError (StateM (List UInt64)) α} {rows : List UInt64} {a : α}
    (hg : (g f.table).result = .ok a) (hnotes : Notes (gM f.table) rows (g f.table)) :
    f.Guarded limit (fun limits => Logged.ofExcept (TruthTable.ofFormula (limit limits) f) >>= g)
      (fun limits => LoggedT.of (Logged.ofExcept (TruthTable.ofFormula (limit limits) f)) >>= gM) := by
  have hwithin {limits : Limits} (h : f.distinctVars.length ≤ limit limits) :
      Logged.ofExcept (TruthTable.ofFormula (limit limits) f) >>= g = g f.table := by
    rw [TruthTable.ofFormula_eq_ok h]
    exact pure_bind f.table g
  have hbeyond {limits : Limits} (h : limit limits < f.distinctVars.length) :
      Logged.ofExcept (TruthTable.ofFormula (limit limits) f) >>= g =
        Logged.ofExcept (.error (.tooManyVariables f.distinctVars.length (limit limits))) := by
    rw [TruthTable.ofFormula_eq_error h]
    rfl
  have hnotesBeyond {limits : Limits} (h : limit limits < f.distinctVars.length) :
      Notes (LoggedT.of (Logged.ofExcept (TruthTable.ofFormula (limit limits) f)) >>= gM) []
        (Logged.ofExcept (TruthTable.ofFormula (limit limits) f) >>= g) := by
    rw [hbeyond h, TruthTable.ofFormula_eq_error h]
    exact .of _
  constructor
  case result_eq_error_iff =>
    intro limits e
    rcases Nat.lt_or_ge (limit limits) f.distinctVars.length with h | h
    · simp [hbeyond h, h, eq_comm]
    · simp [hwithin h, hg, Nat.not_lt.mpr h]
  case notes =>
    intro limits
    rcases Nat.lt_or_ge (limit limits) f.distinctVars.length with h | h
    · exact ⟨[], hnotesBeyond h⟩
    · rw [hwithin h, TruthTable.ofFormula_eq_ok h]
      exact ⟨rows, (pure_bind f.table gM).symm ▸ hnotes⟩
  case notes_nil =>
    intro limits h
    exact hnotesBeyond h
  case entries_eq_nil =>
    intro limits h
    rw [hbeyond h]
    rfl
  case eq_of_le =>
    intro limits limits' h h'
    rw [hwithin h, hwithin h']

/-- An answer that is made of another one is guarded like that. -/
theorem Guarded.map (h : f.Guarded limit ask askM) (g : α → β) :
    f.Guarded limit (fun limits => do return g (← ask limits)) (fun limits => do return g (← askM limits)) := by
  have hresult (limits : Limits) : (do return g (← ask limits) : Logged QueryError β).result =
      (ask limits).result.map g := by
    rw [Logged.result_bind]
    cases (ask limits).result <;> rfl
  constructor
  case result_eq_error_iff =>
    intro limits e
    rw [hresult, ← h.result_eq_error_iff]
    cases (ask limits).result <;> simp [Except.map]
  case notes =>
    intro limits
    obtain ⟨rows, hrows⟩ := h.notes limits
    exact ⟨rows, hrows.map g⟩
  case notes_nil =>
    intro limits hlt
    exact (h.notes_nil limits hlt).map g
  case entries_eq_nil =>
    intro limits hlt
    rw [Logged.entries_bind, h.entries_eq_nil limits hlt]
    cases (ask limits).result <;> rfl
  case eq_of_le =>
    intro limits limits' hle hle'
    rw [h.eq_of_le limits limits' hle hle']

theorem Guarded.result_eq_ok_iff (h : f.Guarded limit ask askM) (limits : Limits) :
    (∃ a, (ask limits).result = .ok a) ↔ f.distinctVars.length ≤ limit limits := by
  rw [← Nat.not_lt]
  constructor
  · rintro ⟨a, ha⟩ hlt
    rw [(h.result_eq_error_iff limits _).mpr ⟨hlt, rfl⟩] at ha
    cases ha
  · intro hle
    cases hresult : (ask limits).result with
    | ok a => exact ⟨a, rfl⟩
    | error e => exact (hle ((h.result_eq_error_iff limits e).mp hresult).1).elim

end Formula

/-! ## Words of 64 bits -/

/-- The table is over `n` variables, few enough for words of 64 bits: a word is shifted by `n` bits at most and so by
less than it has, there is one number for each row, and each position is read as its bit of the number. -/
structure TruthTable.CountsExactly (t : TruthTable) (n : Nat) : Prop where
  length_eq : t.names.length = n
  lt : n < 64
  toNat_size : t.size.toNat = 2 ^ n
  position_lt : ∀ i ∈ t.body.vars, i < n
  bit_eq : ∀ i < n, ∀ row, bit row i = row.toNat.testBit i

namespace Formula

variable {f : Formula String} {limits : Limits}

theorem countsExactly_table (h : f.distinctVars.length ≤ Limits.maxCountable) :
    f.table.CountsExactly f.distinctVars.length where
  length_eq := rfl
  lt := Nat.lt_succ_of_le h
  toNat_size := TruthTable.toNat_size h
  position_lt := by
    intro i hi
    obtain ⟨name, hname, rfl⟩ := List.mem_map.mp (vars_map f.distinctVars.idxOf f ▸ hi)
    exact List.idxOf_lt_length_iff.mpr (TruthTable.mem_distinctVars_iff.mpr hname)
  bit_eq i hi := TruthTable.bit_eq_testBit (Nat.lt_trans hi (Nat.lt_succ_of_le h))

theorem guarded_counterexample (f : Formula String) : f.Guarded Limits.forSearches (f.counterexample ·)
    (f.counterexampleM TruthTable.recording ·) := by
  simp only [counterexample_eq]
  exact guarded_ofFormula Limits.forSearches rfl ((f.table.notes_searchM false).map (Option.map f.table.assignmentIn))

theorem guarded_isSatisfiable (f : Formula String) : f.Guarded Limits.forSearches (f.isSatisfiable ·)
    (f.isSatisfiableM TruthTable.recording ·) := by
  simp only [isSatisfiable_eq]
  exact guarded_ofFormula Limits.forSearches rfl ((f.table.notes_searchM true).map Option.isSome)

theorem guarded_truthTable (f : Formula String) :
    f.Guarded Limits.forTables (fun limits => Logged.ofExcept (f.truthTable limits))
      (fun limits => .mk (Logged.ofExcept <$> f.truthTableM TruthTable.recording limits)) := by
  have hask (limits : Limits) : Logged.ofExcept (f.truthTable limits) =
      Logged.ofExcept (TruthTable.ofFormula limits.forTables f) >>= fun t => pure t.toList := by
    rw [truthTable_eq]
    cases TruthTable.ofFormula limits.forTables f <;> rfl
  have haskM (limits : Limits) : LoggedT.mk (Logged.ofExcept <$> f.truthTableM TruthTable.recording limits) =
      LoggedT.of (Logged.ofExcept (TruthTable.ofFormula limits.forTables f)) >>= fun t =>
        .lift (t.toListM (TruthTable.recording t)) := by
    rw [truthTableM]
    cases TruthTable.ofFormula limits.forTables f with
    | error e => rfl
    | ok t => exact (pure_bind t fun t => LoggedT.lift (t.toListM (TruthTable.recording t))).symm
  simp only [hask, haskM]
  exact guarded_ofFormula Limits.forTables rfl f.table.notes_toListM

/-- The limits decide nothing but whether a question is asked: a search up to `min maxVariables 63` distinct variables,
and the whole table up to the least of that and `maxTableVariables`. Then the numbers of the rows are exact, and where
the table is admitted, the searches are too. -/
theorem answers_guarded (f : Formula String) :
    let forSearches (limits : Limits) : Nat := min limits.maxVariables 63
    let forTables (limits : Limits) : Nat := min limits.maxTableVariables (min limits.maxVariables 63)
    f.Guarded forSearches (f.isTautology ·) (f.isTautologyM TruthTable.recording ·) ∧
    f.Guarded forSearches (f.counterexample ·) (f.counterexampleM TruthTable.recording ·) ∧
    f.Guarded forSearches (f.isSatisfiable ·) (f.isSatisfiableM TruthTable.recording ·) ∧
    f.Guarded forSearches (f.isContradiction ·) (f.isContradictionM TruthTable.recording ·) ∧
    f.Guarded forTables (fun limits => Logged.ofExcept (f.truthTable limits))
      (fun limits => .mk (Logged.ofExcept <$> f.truthTableM TruthTable.recording limits)) ∧
    (∀ limits, f.distinctVars.length ≤ forSearches limits →
      ∃ t, TruthTable.ofFormula limits.forSearches f = .ok t ∧ t.CountsExactly f.distinctVars.length) ∧
    (∀ limits, f.distinctVars.length ≤ forTables limits →
      ∃ t, TruthTable.ofFormula limits.forTables f = .ok t ∧ t.CountsExactly f.distinctVars.length) ∧
    ∀ limits, (∃ rows, f.truthTable limits = .ok rows) → (∃ answer, (f.isTautology limits).result = .ok answer) ∧
      (∃ found, (f.counterexample limits).result = .ok found) ∧
      (∃ answer, (f.isSatisfiable limits).result = .ok answer) ∧
      ∃ answer, (f.isContradiction limits).result = .ok answer := by
  intro forSearches forTables
  have hcounterexample := f.guarded_counterexample
  have hsatisfiable := f.guarded_isSatisfiable
  have htable := f.guarded_truthTable
  have htautology : f.Guarded forSearches (f.isTautology ·) (f.isTautologyM TruthTable.recording ·) :=
    hcounterexample.map Option.isNone
  have hcontradiction : f.Guarded forSearches (f.isContradiction ·) (f.isContradictionM TruthTable.recording ·) :=
    hsatisfiable.map Bool.not
  refine ⟨htautology, hcounterexample, hsatisfiable, hcontradiction, htable, fun limits h => ?_, fun limits h => ?_,
    fun limits h => ?_⟩
  · exact ⟨f.table, TruthTable.ofFormula_eq_ok h, countsExactly_table (length_le_maxCountable h)⟩
  · have hwidth := length_le_maxCountable (length_le_forSearches h)
    exact ⟨f.table, TruthTable.ofFormula_eq_ok h, countsExactly_table hwidth⟩
  · have hle := length_le_forSearches ((htable.result_eq_ok_iff limits).mp h)
    exact ⟨(htautology.result_eq_ok_iff limits).mpr hle, (hcounterexample.result_eq_ok_iff limits).mpr hle,
      (hsatisfiable.result_eq_ok_iff limits).mpr hle, (hcontradiction.result_eq_ok_iff limits).mpr hle⟩

/-- The search for a counterexample to `a -> b` ends at the second of the four rows, and with no variable admitted it
evaluates none. -/
example : let f : Formula String := .binary .implies (.var "a") (.var "b")
    ((f.counterexampleM TruthTable.recording .standard).run.run []).2 = [0, 1] ∧
      ((f.counterexampleM TruthTable.recording (.upTo 0)).run.run []).2 = [] := by decide +kernel

end Formula

end Propositional
