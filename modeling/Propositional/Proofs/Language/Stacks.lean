import Propositional.Language.Reading
import Propositional.Proofs.Runs

/-!
# The two stacks

How the tokens of a text go through the stack of pending operators (`Pending.Steps`), and how the emitted kinds
go through the stack of finished operands (`Formula.Builds`). Both are stated for any stack to start from, so
that a part of a text can be followed inside any surroundings. `Reordering.Leaves` puts the two together.
-/

namespace Propositional

/-! ## Pending operators -/

/-- The kinds of the emitted tokens. -/
def Move.kinds (moves : List Move) : List Kind := moves.map fun m => m.token.kind

theorem Move.kinds_append (moves moves' : List Move) :
    kinds (moves ++ moves') = kinds moves ++ kinds moves' := List.map_append

namespace Pending

/-- The kinds of the waiting tokens, the top one first. -/
def kinds (stack : List Pending) : List Kind := stack.map fun p => p.token.kind

theorem kinds_append (stack stack' : List Pending) :
    kinds (stack ++ stack') = kinds stack ++ kinds stack' := List.map_append

theorem kinds_emit (cause : Cause) (popped : List Pending) :
    Move.kinds (Move.emit cause popped) = kinds popped := by
  simp [Move.kinds, Move.emit, kinds]

/-- Whether the entry is an operator that binds tighter than an implication. -/
def isTight : Pending → Bool
  | .paren _ => false
  | .operator op _ => op ≠ .binary .implies

/-- Only an implication and a parenthesis wait on when a connective arrives, whichever it is. -/
theorem yieldsTo_eq_isTight (c : Connective) : yieldsTo c = isTight := by
  funext p
  cases p with
  | paren _ => rfl
  | operator op _ =>
      cases op with
      | not => rfl
      | binary d => cases d <;> cases c <;> rfl

theorem isOperator_of_isTight {p : Pending} (h : p.isTight) : p.isOperator := by
  cases p with
  | paren _ => cases h
  | operator _ _ => rfl

/-- A stack from which no arriving connective takes anything. -/
def Firm (stack : List Pending) : Prop := ∀ p ∈ stack.head?, p.isTight = false

theorem firm_nil : Firm [] := by simp [Firm]

theorem firm_paren (span : Span) (stack : List Pending) : Firm (.paren span :: stack) := by
  simp [Firm, isTight]

theorem firm_implies (span : Span) (stack : List Pending) :
    Firm (.operator (.binary .implies) span :: stack) := by simp [Firm, isTight]

section step

variable {t : Token} {top stack : List Pending}

theorem step_var {name : String} (ht : t.kind = .var name) :
    step stack t = ([⟨t, .operand⟩], .ok stack) := by
  simp only [step, ht]

theorem step_not (ht : t.kind = .operator .not) :
    step stack t = ([], .ok (.operator .not t.span :: stack)) := by
  simp only [step, ht]

theorem step_leftParen (ht : t.kind = .leftParen) :
    step stack t = ([], .ok (.paren t.span :: stack)) := by
  simp only [step, ht]

theorem step_rightParen (span : Span) (ht : t.kind = .rightParen) (htop : ∀ p ∈ top, p.isOperator) :
    step (top ++ .paren span :: stack) t = (Move.emit .closed top, .ok stack) := by
  have hp : ∀ p ∈ (paren span :: stack).head?, p.isOperator = false := by simp [isOperator]
  simp only [step, ht, takeWhile_run_append htop hp, dropWhile_run_append htop hp]

theorem step_rightParen_of_all (ht : t.kind = .rightParen) (hstack : ∀ p ∈ stack, p.isOperator) :
    (step stack t).2 = .error (.missingLeft t.span.start) := by
  simp only [step, ht, List.dropWhile_eq_nil_iff.mpr hstack]

theorem step_connective {c : Connective} (ht : t.kind = .operator (.binary c))
    (htop : ∀ p ∈ top, p.isTight) (hstack : Firm stack) : step (top ++ stack) t =
      (Move.emit (.swept c) top, .ok (.operator (.binary c) t.span :: stack)) := by
  simp only [step, ht, yieldsTo_eq_isTight, takeWhile_run_append htop hstack, dropWhile_run_append htop hstack]

end step

/-- What a step that does not fail does to the stack. -/
inductive Takes : List Pending → Token → List Move → List Pending → Prop where
  | var {t name} (stack) : t.kind = .var name → Takes stack t [⟨t, .operand⟩] stack
  | leftParen {t} (stack) : t.kind = .leftParen → Takes stack t [] (.paren t.span :: stack)
  | rightParen {t top} (span stack) : t.kind = .rightParen → (∀ p ∈ top, p.isOperator) →
      Takes (top ++ .paren span :: stack) t (Move.emit .closed top) stack
  | not {t} (stack) : t.kind = .operator .not → Takes stack t [] (.operator .not t.span :: stack)
  | connective {t c top stack} : t.kind = .operator (.binary c) → (∀ p ∈ top, p.isTight) → Firm stack →
      Takes (top ++ stack) t (Move.emit (.swept c) top) (.operator (.binary c) t.span :: stack)

theorem step_eq_ok_iff {stack stack' : List Pending} {t : Token} {moves : List Move} :
    step stack t = (moves, .ok stack') ↔ Takes stack t moves stack' := by
  constructor
  · intro h
    cases hk : t.kind with
    | var name => rw [step_var hk] at h; cases h; exact .var stack hk
    | leftParen => rw [step_leftParen hk] at h; cases h; exact .leftParen stack hk
    | rightParen =>
        obtain ⟨top, below, rfl, htop, hbelow⟩ := exists_run_append isOperator stack
        cases below with
        | nil =>
            rw [List.append_nil] at h
            have herror := step_rightParen_of_all hk htop
            rw [h] at herror
            cases herror
        | cons p below =>
            cases p with
            | operator _ _ => cases hbelow _ rfl
            | paren span =>
                rw [step_rightParen span hk htop] at h
                cases h
                exact .rightParen span _ hk htop
    | operator op =>
        cases op with
        | not => rw [step_not hk] at h; cases h; exact .not stack hk
        | binary c =>
            obtain ⟨top, below, rfl, htop, hbelow⟩ := exists_run_append isTight stack
            rw [step_connective hk htop hbelow] at h
            cases h
            exact .connective hk htop hbelow
  · intro h
    cases h with
    | var _ hk => exact step_var hk
    | leftParen _ hk => exact step_leftParen hk
    | rightParen span _ hk htop => exact step_rightParen span hk htop
    | not _ hk => exact step_not hk
    | connective hk htop hstack => exact step_connective hk htop hstack

/-- The tokens are taken without failure; the moves lead from one stack to another. -/
inductive Steps : List Pending → List Token → List Move → List Pending → Prop where
  | nil (stack) : Steps stack [] [] stack
  | cons {stack stack' stack'' t ts moves moves'} : step stack t = (moves, .ok stack') →
      Steps stack' ts moves' stack'' → Steps stack (t :: ts) (moves ++ moves') stack''

theorem Steps.append {stack stack' stack'' : List Pending} {ts ts' : List Token}
    {moves moves' : List Move} (h : Steps stack ts moves stack') (h' : Steps stack' ts' moves' stack'') :
    Steps stack (ts ++ ts') (moves ++ moves') stack'' := by
  induction h with
  | nil _ => exact h'
  | cons hstep _ ih =>
      rw [List.append_assoc]
      exact .cons hstep (ih h')

end Pending

namespace Reordering

theorem after_after (moves moves' : List Move) (r : Reordering) :
    (r.after moves').after moves = r.after (moves ++ moves') := by
  simp [after]

/-- A run ends with its first step, or goes on from the stack after that. -/
theorem run_cons_cases (stack : List Pending) (t : Token) :
    (∃ moves e, Pending.step stack t = (moves, .error e) ∧ ∀ ts, run stack (t :: ts) = ⟨moves, some e⟩) ∨
      ∃ moves stack', Pending.step stack t = (moves, .ok stack') ∧
        ∀ ts, run stack (t :: ts) = (run stack' ts).after moves := by
  obtain ⟨moves, e | stack', hstep⟩ : ∃ moves r, Pending.step stack t = (moves, r) := ⟨_, _, rfl⟩
  · exact .inl ⟨moves, e, hstep, fun ts => by rw [run, hstep]⟩
  · exact .inr ⟨moves, stack', hstep, fun ts => by rw [run, hstep]⟩

section

variable {stack stack' : List Pending} {ts : List Token} {moves : List Move} (h : Pending.Steps stack ts moves stack')
include h

theorem run_append (rest : List Token) : run stack (ts ++ rest) = (run stack' rest).after moves := by
  induction h with
  | nil _ => rfl
  | cons hstep _ ih =>
      rw [List.cons_append, run, hstep]
      simp only [ih, after_after]

theorem run_of_steps : run stack ts = (drain stack').after moves := by
  have hrun := run_append h []
  rwa [List.append_nil] at hrun

end

theorem steps_or_fails (stack : List Pending) (ts : List Token) :
    (∃ moves stack', Pending.Steps stack ts moves stack') ∨
      ∃ moves e, ∀ rest, run stack (ts ++ rest) = ⟨moves, some e⟩ := by
  induction ts generalizing stack with
  | nil => exact .inl ⟨[], stack, .nil stack⟩
  | cons t ts ih =>
      rcases run_cons_cases stack t with ⟨moves, e, _, hrun⟩ | ⟨moves, stack', hstep, hrun⟩
      · exact .inr ⟨moves, e, fun rest => hrun (ts ++ rest)⟩
      · rcases ih stack' with ⟨moves', stack'', hsteps⟩ | ⟨moves', e, hfails⟩
        · exact .inl ⟨_, _, .cons hstep hsteps⟩
        · refine .inr ⟨moves ++ moves', e, fun rest => ?_⟩
          rw [List.cons_append, hrun, hfails]
          rfl

theorem forall_isOperator_of_drain {stack : List Pending} (h : (drain stack).failure = none) :
    ∀ p ∈ stack, p.isOperator := by
  have hdrop : stack.dropWhile Pending.isOperator = [] := by simpa [drain] using h
  exact List.dropWhile_eq_nil_iff.mp hdrop

/-- Without a failure all tokens are taken, and only operators wait at the end. -/
theorem exists_steps_of_failure {stack : List Pending} {ts : List Token} (h : (run stack ts).failure = none) :
    ∃ moves top, Pending.Steps stack ts moves top ∧ (∀ p ∈ top, p.isOperator) ∧
      (run stack ts).moves = moves ++ Move.emit .drained top := by
  rcases steps_or_fails stack ts with ⟨moves, top, hsteps⟩ | ⟨moves, e, hfails⟩
  · rw [run_of_steps hsteps] at h ⊢
    have htop := forall_isOperator_of_drain h
    refine ⟨moves, top, hsteps, htop, ?_⟩
    simp only [after, drain, List.takeWhile_eq_self_iff.mpr htop]
  · have hrun := hfails []
    rw [List.append_nil] at hrun
    rw [hrun] at h
    cases h

end Reordering

namespace Token

variable {ts ordered : List Token}

/-- The moves that a reordering makes do not depend on the journal that it keeps. -/
theorem result_reorder (ts : List Token) : (reorder ts).result = (Reordering.run [] ts).result := by
  simp only [reorder, Logged.result_bind, Logged.result_record, Logged.result_ofExcept,
    Logged.result_pure]
  cases (Reordering.run [] ts).result <;> rfl

/-- Tokens are put into postorder by taking all of them and then the operators that still wait. -/
theorem result_reorder_eq_ok_iff : (reorder ts).result = .ok ordered ↔ ∃ moves top,
    Pending.Steps [] ts moves top ∧ (∀ p ∈ top, p.isOperator) ∧
      ordered = (moves ++ Move.emit .drained top).map Move.token := by
  rw [result_reorder, Reordering.result]
  constructor
  · intro h
    cases hfailure : (Reordering.run [] ts).failure with
    | some e =>
        rw [hfailure] at h
        cases h
    | none =>
        rw [hfailure] at h
        obtain ⟨moves, top, hsteps, htop, hmoves⟩ := Reordering.exists_steps_of_failure hfailure
        refine ⟨moves, top, hsteps, htop, ?_⟩
        rw [← hmoves]
        exact (Except.ok.inj h).symm
  · rintro ⟨moves, top, hsteps, htop, rfl⟩
    rw [Reordering.run_of_steps hsteps, Reordering.drain, List.takeWhile_eq_self_iff.mpr htop,
      List.dropWhile_eq_nil_iff.mpr htop]
    rfl

end Token

/-! ## Finished operands -/

namespace Formula

/-- The kinds turn the finished operands on one stack into those on the other. -/
def Builds (stack : List (Formula String)) (ks : List Kind) (stack' : List (Formula String)) : Prop :=
  ks.foldlM push stack = .ok stack'

variable {stack stack' : List (Formula String)} {ks ks' : List Kind}

theorem Builds.nil (stack : List (Formula String)) : Builds stack [] stack := rfl

theorem builds_nil_iff : Builds stack [] stack' ↔ stack = stack' := by
  simp [Builds, pure, Except.pure]

theorem builds_append_iff : Builds stack (ks ++ ks') stack' ↔
    ∃ between, Builds stack ks between ∧ Builds between ks' stack' := by
  rw [Builds, List.foldlM_append, Logged.bind_eq_ok_iff]
  rfl

theorem builds_cons_iff {k : Kind} : Builds stack (k :: ks) stack' ↔
    ∃ between, push stack k = .ok between ∧ Builds between ks stack' := by
  rw [Builds, List.foldlM_cons, Logged.bind_eq_ok_iff]
  rfl

theorem builds_var_iff {name : String} :
    Builds stack (.var name :: ks) stack' ↔ Builds (.var name :: stack) ks stack' := by
  simp [builds_cons_iff, push]

theorem push_binary_eq_ok_iff {c : Connective} : push stack (.operator (.binary c)) = .ok stack' ↔
    ∃ l r below, stack = r :: l :: below ∧ stack' = .binary c l r :: below := by
  match stack with
  | [] => simp [push]
  | [_] => simp [push]
  | r :: l :: below =>
      simp only [push, Except.ok.injEq]
      constructor
      · intro h; exact ⟨l, r, below, rfl, h.symm⟩
      · rintro ⟨_, _, _, h, hb⟩; cases h; exact hb.symm

theorem ofPostorder_eq_ok_iff {f : Formula String} : ofPostorder ks = .ok f ↔ Builds [] ks [f] := by
  rw [ofPostorder, Logged.bind_eq_ok_iff]
  constructor
  · rintro ⟨stack, h, hf⟩
    match stack with
    | [] => cases hf
    | [_] => cases hf; exact h
    | _ :: _ :: _ => cases hf
  · intro h
    exact ⟨[f], h, rfl⟩

end Formula

/-! ## Both stacks -/

namespace Reordering

/-- The reordering does not fail, and what it emits turns the operands on one stack into those on the
other. -/
def Leaves (r : Reordering) (stack stack' : List (Formula String)) : Prop :=
  r.failure = none ∧ Formula.Builds stack (Move.kinds r.moves) stack'

variable {stack stack' : List (Formula String)}

theorem leaves_after_iff {moves : List Move} {r : Reordering} : (r.after moves).Leaves stack stack' ↔
    ∃ between, Formula.Builds stack (Move.kinds moves) between ∧
      r.Leaves between stack' := by
  simp only [Leaves, after, Move.kinds_append, Formula.builds_append_iff]
  grind

/-- If the reordering of a nonempty list leaves operands, so does what follows its first step. -/
theorem Leaves.exists_takes {pending : List Pending} {t : Token} {ts : List Token}
    (h : (run pending (t :: ts)).Leaves stack stack') : ∃ moves pending' between,
      Pending.Takes pending t moves pending' ∧ Formula.Builds stack (Move.kinds moves) between ∧
        (run pending' ts).Leaves between stack' := by
  rcases run_cons_cases pending t with ⟨moves, e, _, hrun⟩ | ⟨moves, pending', hstep, hrun⟩
  · rw [hrun] at h
    cases h.1
  · rw [hrun] at h
    obtain ⟨between, hb, h⟩ := leaves_after_iff.mp h
    exact ⟨moves, pending', between, Pending.step_eq_ok_iff.mp hstep, hb, h⟩

/-- A formula is read off the tokens exactly if it is the only operand that they leave. -/
theorem leaves_iff {ts : List Token} {f : Formula String} : (run [] ts).Leaves [] [f] ↔
    ∃ ordered, (Token.reorder ts).result = .ok ordered ∧
      Formula.ofPostorder (ordered.map Token.kind) = .ok f := by
  rw [Token.result_reorder, result, Leaves]
  cases h : (run [] ts).failure with
  | none => simp [Formula.ofPostorder_eq_ok_iff, Move.kinds, Function.comp_def]
  | some e => simp

end Reordering

end Propositional
