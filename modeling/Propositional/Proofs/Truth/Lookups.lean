import Propositional.Proofs.Truth.SourceOrder

/-!
# Look-ups

Evaluation asks for the variables from left to right, each as often as it occurs, and ends at the first one without a
value (`Formula.recording_asked`). That one is also the first of the variables that are listed as unassigned, so both
ways of missing a value tell of the same name (`Formula.evaluate_or_unassigned`).

What is asked and what is answered are told apart by a source that has fixed answers but does anything else with the
names it is asked for (`Valuation.noting`).
-/

namespace Propositional

variable {α : Type}

/-! ## Formulas as propositions -/

/-- The connective between two propositions. -/
def Connective.toProp : Connective → Prop → Prop → Prop
  | .and, p, q => p ∧ q
  | .or, p, q => p ∨ q
  | .implies, p, q => p → q

/-- The proposition that a formula is when `p` gives those for its variables. -/
def Formula.toProp (p : α → Prop) : Formula α → Prop
  | .var x => p x
  | .not f => ¬f.toProp p
  | .binary c l r => c.toProp (l.toProp p) (r.toProp p)

theorem Connective.apply_eq_true_iff (c : Connective) (a b : Bool) :
    c.apply a b = true ↔ c.toProp (a = true) (b = true) := by
  cases c <;> cases a <;> simp [apply, toProp]

theorem Formula.holds_eq_true_iff (v : α → Bool) (f : Formula α) : f.holds v = true ↔ f.toProp fun x => v x = true := by
  induction f with
  | var x => exact Iff.rfl
  | not f ih => rw [holds, toProp, ← ih, Bool.not_eq_true', Bool.not_eq_true]
  | binary c l r ihl ihr => rw [holds, toProp, Connective.apply_eq_true_iff, ihl, ihr]

/-! ## Names without a value -/

namespace Valuation

variable {v : Valuation} {names names' : List String} {name : String}

/-- Whether the name has no value. -/
def lacks (v : Valuation) (name : String) : Bool := (v name).isNone

/-- The names up to the first one without a value, this one included. -/
def upToUnassigned (v : Valuation) (names : List String) : List String := names.take (names.findIdx v.lacks + 1)

theorem findIdx_lacks_of_none (h : names.find? v.lacks = none) : names.findIdx v.lacks = names.length :=
  List.findIdx_eq_length.mpr fun x hx => by simpa using List.find?_eq_none.mp h x hx

theorem upToUnassigned_of_none (h : names.find? v.lacks = none) : v.upToUnassigned names = names := by
  rw [upToUnassigned, findIdx_lacks_of_none h, List.take_of_length_le (Nat.le_succ _)]

theorem upToUnassigned_append_of_none (h : names.find? v.lacks = none) :
    v.upToUnassigned (names ++ names') = names ++ v.upToUnassigned names' := by
  have hall := findIdx_lacks_of_none h
  rw [upToUnassigned, List.findIdx_append, if_neg (by omega), Nat.add_comm _ names.length, Nat.add_assoc,
    List.take_length_add_append, upToUnassigned]

theorem upToUnassigned_append_of_some (h : names.find? v.lacks = some name) :
    v.upToUnassigned (names ++ names') = v.upToUnassigned names := by
  have hlt : names.findIdx v.lacks < names.length :=
    List.findIdx_lt_length.mpr ⟨name, List.mem_of_find?_eq_some h, List.find?_some h⟩
  rw [upToUnassigned, List.findIdx_append, if_pos hlt, List.take_append_of_le_length hlt, upToUnassigned]

theorem assigns_iff {f : Formula String} : v.Assigns f ↔ f.vars.find? v.lacks = none := by
  simp [Assigns, lacks, Option.isSome_iff_ne_none]

end Valuation

theorem find?_eraseDups (p : String → Bool) (names : List String) : names.eraseDups.find? p = names.find? p := by
  induction names using List.reverseRecOn with
  | nil => rfl
  | append_singleton names name ih =>
      rw [eraseDups_append_singleton, List.find?_append, List.find?_append, ih]
      by_cases hmem : name ∈ names
      · rw [if_pos hmem]
        cases hp : p name with
        | false => simp [hp]
        | true =>
            obtain ⟨x, hx⟩ := Option.isSome_iff_exists.mp (List.find?_isSome.mpr ⟨name, hmem, hp⟩)
            rw [hx]
            rfl
      · rw [if_neg hmem]

/-! ## Sources with fixed answers -/

/-- A source with fixed answers that does something with each name it is asked for. -/
def Valuation.noting {m : Type → Type} [Monad m] (v : Valuation) (note : String → m Unit) (name : String) :
    m (Option Bool) := do
  note name
  return v name

namespace Formula

variable {m : Type → Type} [Monad m] {v : Valuation} {f : Formula String}

/-- The formula with the values of its variables, or the first variable that has none. -/
def lookedUp (v : Valuation) (f : Formula String) : Except QueryError (Formula Bool) :=
  match f.vars.find? v.lacks with
  | some name => .error (.unassigned name)
  | none => .ok (f.map v.total)

theorem run_lookUp_var [LawfulMonad m] (source : String → m (Option Bool)) (name : String) :
    ((var name).lookUp source).run = do
      match ← source name with
      | some b => return .ok (.var b)
      | none => return .error (.unassigned name) := by
  rw [lookUp, mapM, ExceptT.run_bind, ExceptT.run_bind, ExceptT.run_lift, bind_map_left, bind_assoc]
  refine bind_congr fun value => ?_
  cases value <;> simp

theorem run_lookUp_not [LawfulMonad m] (source : String → m (Option Bool)) (f : Formula String) :
    (f.not.lookUp source).run = do return (← (f.lookUp source).run).map .not := by
  rw [lookUp, mapM, lookUp, ExceptT.run_bind]
  refine bind_congr fun result => ?_
  cases result <;> rfl

theorem run_lookUp_binary [LawfulMonad m] (source : String → m (Option Bool)) (c : Connective) (l r : Formula String) :
    ((binary c l r).lookUp source).run = do
      match ← (l.lookUp source).run with
      | .ok g => return (← (r.lookUp source).run).map (.binary c g)
      | .error e => return .error e := by
  rw [lookUp, mapM, lookUp, lookUp, ExceptT.run_bind]
  refine bind_congr fun result => ?_
  cases result with
  | error e => rfl
  | ok g =>
      simp only [ExceptT.run_bind]
      refine bind_congr fun result => ?_
      cases result <;> rfl

theorem lookedUp_of_none (h : f.vars.find? v.lacks = none) : f.lookedUp v = .ok (f.map v.total) := by
  rw [lookedUp, h]

theorem lookedUp_of_some {name : String} (h : f.vars.find? v.lacks = some name) :
    f.lookedUp v = .error (.unassigned name) := by
  rw [lookedUp, h]

theorem lookedUp_not (v : Valuation) (f : Formula String) : f.not.lookedUp v = (f.lookedUp v).map .not := by
  cases h : f.vars.find? v.lacks with
  | some name => rw [lookedUp_of_some h, lookedUp_of_some (f := f.not) h]; rfl
  | none => rw [lookedUp_of_none h, lookedUp_of_none (f := f.not) h]; rfl

theorem lookedUp_binary_of_some {l : Formula String} {name : String} (c : Connective) (r : Formula String)
    (h : l.vars.find? v.lacks = some name) : (binary c l r).lookedUp v = .error (.unassigned name) := by
  refine lookedUp_of_some ?_
  rw [vars, List.find?_append, h]
  rfl

theorem lookedUp_binary_of_none {l : Formula String} (c : Connective) (r : Formula String)
    (h : l.vars.find? v.lacks = none) :
    (binary c l r).lookedUp v = (r.lookedUp v).map (.binary c (l.map v.total)) := by
  have hboth : (binary c l r).vars.find? v.lacks = r.vars.find? v.lacks := by
    rw [vars, List.find?_append, h]
    rfl
  cases hr : r.vars.find? v.lacks with
  | some name => rw [lookedUp_of_some hr, lookedUp_of_some (hboth.trans hr)]; rfl
  | none => rw [lookedUp_of_none hr, lookedUp_of_none (hboth.trans hr)]; rfl

/-- The names up to the first unassigned one are asked for in order, whatever is done with them, and the answers are
used when they have all come. -/
theorem lookUp_noting [LawfulMonad m] (v : Valuation) (note : String → m Unit) (f : Formula String) :
    (f.lookUp (v.noting note)).run = do
      forM (v.upToUnassigned f.vars) note
      return f.lookedUp v := by
  induction f with
  | var name =>
      have hnames : v.upToUnassigned [name] = [name] := List.take_of_length_le (Nat.le_add_left 1 _)
      rw [vars, hnames, run_lookUp_var, Valuation.noting, List.forM_cons, List.forM_nil, bind_assoc, bind_assoc]
      refine bind_congr fun _ => ?_
      rw [pure_bind, pure_bind]
      cases h : v name with
      | none =>
          have hfind : (var name).vars.find? v.lacks = some name := by simp [vars, Valuation.lacks, h]
          rw [lookedUp_of_some hfind]
      | some b =>
          have hfind : (var name).vars.find? v.lacks = none := by simp [vars, Valuation.lacks, h]
          rw [lookedUp_of_none hfind]
          simp [map, Formula.bind, Valuation.total, h]
  | not f ih =>
      rw [run_lookUp_not, ih, bind_assoc, vars, lookedUp_not]
      simp only [pure_bind]
  | binary c l r ihl ihr =>
      rw [run_lookUp_binary, ihl, bind_assoc, vars]
      simp only [pure_bind]
      cases h : l.vars.find? v.lacks with
      | some name =>
          -- The right operand is not looked up at all.
          rw [Valuation.upToUnassigned_append_of_some h, lookedUp_of_some h, lookedUp_binary_of_some c r h]
      | none =>
          rw [Valuation.upToUnassigned_append_of_none h, Valuation.upToUnassigned_of_none h, lookedUp_of_none h,
            lookedUp_binary_of_none c r h]
          simp only [ihr, List.forM_append, bind_assoc, pure_bind]

theorem evaluateM_noting_lookedUp [LawfulMonad m] (v : Valuation) (note : String → m Unit) (f : Formula String) :
    f.evaluateM (v.noting note) = do
      forM (v.upToUnassigned f.vars) note
      return (f.lookedUp v).map (holds id) := by
  rw [evaluateM, ExceptT.run_bind, lookUp_noting, bind_assoc]
  refine bind_congr fun _ => ?_
  rw [pure_bind]
  cases f.lookedUp v <;> rfl

theorem evaluate_eq (v : Valuation) (f : Formula String) : f.evaluate v = (f.lookedUp v).map (holds id) := by
  -- The valuation itself is a source that does nothing with the names.
  have h := evaluateM_noting_lookedUp (m := Id) v (fun _ => pure ()) f
  exact h.trans rfl

theorem evaluateM_noting [LawfulMonad m] (v : Valuation) (note : String → m Unit) (f : Formula String) :
    f.evaluateM (v.noting note) = do
      forM (v.upToUnassigned f.vars) note
      return f.evaluate v := by
  rw [evaluateM_noting_lookedUp, evaluate_eq]

/-- All names are asked for, whatever the answers are. -/
theorem unassignedAmong_noting [LawfulMonad m] (v : Valuation) (note : String → m Unit) (names : List String) :
    unassignedAmong (v.noting note) names = do
      forM names note
      return names.filter v.lacks := by
  induction names with
  | nil => rw [unassignedAmong, List.forM_nil, pure_bind, List.filter_nil]
  | cons name names ih =>
      rw [unassignedAmong, ih, Valuation.noting, List.forM_cons, List.filter_cons]
      simp only [bind_assoc, pure_bind]
      rfl

theorem unassignedVars_eq_filter (v : Valuation) (f : Formula String) :
    f.unassignedVars v = f.distinctVars.filter v.lacks := by
  have h := unassignedAmong_noting (m := Id) v (fun _ => pure ()) f.distinctVars
  exact h.trans rfl

theorem unassignedVarsM_noting [LawfulMonad m] (v : Valuation) (note : String → m Unit) (f : Formula String) :
    f.unassignedVarsM (v.noting note) = do
      forM f.distinctVars note
      return f.unassignedVars v := by
  rw [unassignedVarsM, unassignedAmong_noting, unassignedVars_eq_filter]

theorem head?_unassignedVars (v : Valuation) (f : Formula String) :
    (f.unassignedVars v).head? = f.vars.find? v.lacks := by
  rw [unassignedVars_eq_filter, List.head?_filter, distinctVars, find?_eraseDups]

/-- If all variables have values, the formula has the value of the proposition it is and no variable is listed as
unassigned. Otherwise it has none, not even one that the assigned variables decide, and the variable this is put down to
is the first of those that are listed, in the order in which they appear first. -/
theorem evaluate_or_unassigned (v : Valuation) (f : Formula String) :
    f.unassignedVars v = (firstOccurrences f.vars).filter (fun name => (v name).isNone) ∧
      (v.Assigns f → f.unassignedVars v = [] ∧
        ∃ b, f.evaluate v = .ok b ∧ (b = true ↔ f.toProp fun name => v name = some true)) ∧
      (¬v.Assigns f → ∃ name names, f.unassignedVars v = name :: names ∧
        f.evaluate v = .error (.unassigned name)) := by
  refine ⟨?_, fun hall => ?_, fun hnot => ?_⟩
  · rw [unassignedVars_eq_filter, distinctVars, eraseDups_eq_firstOccurrences]
    rfl
  · have hnone : (f.unassignedVars v).head? = none := by
      rw [head?_unassignedVars, Valuation.assigns_iff.mp hall]
    refine ⟨List.head?_eq_none_iff.mp hnone, _, evaluate_of_assigns hall, ?_⟩
    have htotal : (fun name => v.total name = true) = fun name => v name = some true := by
      funext name
      cases h : v name <;> simp [Valuation.total, h]
    rw [holds_eq_true_iff, htotal]
  · obtain ⟨name, hname⟩ := Option.ne_none_iff_exists'.mp fun h => hnot (Valuation.assigns_iff.mpr h)
    have hhead : (f.unassignedVars v).head? = some name := by rw [head?_unassignedVars, hname]
    obtain ⟨names, hnames⟩ := List.head?_eq_some_iff.mp hhead
    refine ⟨name, names, hnames, ?_⟩
    rw [evaluate_eq, lookedUp_of_some hname]
    rfl

/-- The left operand decides the disjunction, but the right one has no value. -/
example : (Formula.binary .or (.var "a") (.var "b")).evaluate (fun name => if name = "a" then some true else none) =
    .error (.unassigned "b") := rfl

end Formula

/-! ## Sources that keep a list -/

theorem Valuation.recording_eq_noting (v : Valuation) : v.recording = v.noting fun name => modify (name :: ·) := rfl

/-- Evaluation asks for the variables as they occur, up to the first one without a value and no further, and for all of
them if there is no such one. A list of the unassigned variables asks for each distinct one once, in order. The list of
the names that are asked for has the last one first. -/
theorem Formula.recording_asked (v : Valuation) (f : Formula String) (asked : List String) :
    (f.evaluateM v.recording).run asked = (f.evaluate v, (v.upToUnassigned f.vars).reverse ++ asked) ∧
      (f.unassignedVarsM v.recording).run asked = (f.unassignedVars v, f.distinctVars.reverse ++ asked) ∧
      f.distinctVars.Nodup := by
  rw [Valuation.recording_eq_noting, evaluateM_noting, unassignedVarsM_noting, StateT.run_bind, StateT.run_bind,
    run_forM_modify, run_forM_modify, List.foldl_flip_cons_eq_append, List.foldl_flip_cons_eq_append, List.map_id',
    List.map_id']
  exact ⟨rfl, rfl, nodup_distinctVars f⟩

end Propositional
