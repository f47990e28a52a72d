import Propositional.Proofs.Language.Operands

/-!
# A group is one operand

A list of tokens in parentheses has the effect of a single variable, whatever stands around it, with its
formula in the place of that variable (`Formula.ofTokens_group`). On the stack of pending operators a group
lives above its parenthesis and leaves nothing behind when it is closed. On the stack of finished operands it
adds one formula, and no later operator looks into a finished operand.
-/

namespace Propositional

/-! ## A group on the stack of pending operators -/

namespace Pending

variable {stack stack' : List Pending} {t : Token} {ts : List Token} {moves : List Move}

theorem Firm.append_paren (h : Firm stack) (span : Span) (base : List Pending) :
    Firm (stack ++ .paren span :: base) := by
  cases stack with
  | nil => exact firm_paren span base
  | cons p stack => exact h

theorem Takes.append_paren (h : Takes stack t moves stack') (span : Span) (base : List Pending) :
    Takes (stack ++ .paren span :: base) t moves (stack' ++ .paren span :: base) := by
  cases h with
  | var _ hk => exact .var _ hk
  | leftParen _ hk => exact .leftParen _ hk
  | not _ hk => exact .not _ hk
  | rightParen inner _ hk htop =>
      rw [List.append_assoc]
      exact .rightParen inner _ hk htop
  | connective hk htop hfirm =>
      rw [List.append_assoc]
      exact .connective hk htop (hfirm.append_paren span base)

theorem Steps.append_paren (h : Steps stack ts moves stack') (span : Span) (base : List Pending) :
    Steps (stack ++ .paren span :: base) ts moves (stack' ++ .paren span :: base) := by
  induction h with
  | nil _ => exact .nil _
  | cons hstep _ ih =>
      have htakes := (step_eq_ok_iff.mp hstep).append_paren span base
      exact .cons (step_eq_ok_iff.mpr htakes) ih

end Pending

namespace Reordering

open Pending

variable {ts : List Token}

/-- A group leaves the stack as it was, and emits what it emits without its parentheses. -/
theorem exists_steps_group {l r : Token} (hl : l.kind = .leftParen) (hr : r.kind = .rightParen)
    (h : (run [] ts).failure = none) (stack : List Pending) :
    ∃ moves, Steps stack (l :: ts ++ [r]) moves stack ∧ Move.kinds moves = Move.kinds (run [] ts).moves := by
  obtain ⟨moves, top, hsteps, htop, hmoves⟩ := exists_steps_of_failure h
  have hinside := hsteps.append_paren l.span stack
  have hclose : Steps (top ++ .paren l.span :: stack) [r] (Move.emit .closed top ++ []) stack :=
    .cons (step_rightParen l.span hr htop) (.nil stack)
  refine ⟨_, .cons (step_leftParen hl) (hinside.append hclose), ?_⟩
  rw [hmoves, List.nil_append, List.append_nil, Move.kinds_append, Move.kinds_append, kinds_emit, kinds_emit]

end Reordering

/-! ## Variables keep their order -/

namespace Pending

variable {stack stack' : List Pending} {t : Token} {ts : List Token} {moves : List Move}

section

variable {β : Type} {g : Token → Option β} (hg : ∀ t : Token, t.kind.name? = none → g t = none)
include hg

theorem filterMap_token (stack : List Pending) : (stack.map token).filterMap g = [] := by
  rw [List.filterMap_eq_nil_iff]
  intro t ht
  obtain ⟨p, _, rfl⟩ := List.mem_map.mp ht
  cases p with
  | paren _ => exact hg _ rfl
  | operator _ _ => exact hg _ rfl

theorem Takes.filterMap_token (h : Takes stack t moves stack') :
    (moves.map Move.token).filterMap g = [t].filterMap g := by
  have hnone (hk : t.kind.name? = none) : [t].filterMap g = [] := by simp [hg t hk]
  have hemit (cause : Cause) (popped : List Pending) :
      ((Move.emit cause popped).map Move.token).filterMap g = [] := by
    rw [Move.emit, List.map_map]
    exact Pending.filterMap_token hg popped
  cases h with
  | var _ _ => rfl
  | leftParen _ hk | not _ hk =>
      rw [hnone (by rw [hk]; rfl)]
      rfl
  | rightParen _ _ hk _ | connective hk _ _ => rw [hnone (by rw [hk]; rfl), hemit]

theorem Steps.filterMap_token (h : Steps stack ts moves stack') :
    (moves.map Move.token).filterMap g = ts.filterMap g := by
  induction h with
  | nil _ => rfl
  | cons hstep _ ih =>
      rw [List.map_append, List.filterMap_append, (step_eq_ok_iff.mp hstep).filterMap_token hg, ih,
        ← List.filterMap_append]
      rfl

end

theorem Steps.filterMap_name? (h : Steps stack ts moves stack') :
    (Move.kinds moves).filterMap Kind.name? = (ts.map Token.kind).filterMap Kind.name? := by
  have hnames := h.filterMap_token (g := fun t => t.kind.name?) fun _ hk => hk
  simpa [Move.kinds, List.filterMap_map, Function.comp_def] using hnames

end Pending

/-- What is told by the variables alone is told by the emitted tokens as by those of the list. -/
theorem Reordering.filterMap_token_run {β : Type} {g : Token → Option β}
    (hg : ∀ t : Token, t.kind.name? = none → g t = none) {stack : List Pending} {ts : List Token}
    (h : (run stack ts).failure = none) : ((run stack ts).moves.map Move.token).filterMap g = ts.filterMap g := by
  obtain ⟨moves, top, hsteps, _, hmoves⟩ := exists_steps_of_failure h
  have htop : (Move.emit .drained top).map Move.token = top.map Pending.token := List.map_map
  rw [hmoves, List.map_append, List.filterMap_append, hsteps.filterMap_token hg, htop, Pending.filterMap_token hg,
    List.append_nil]

theorem Reordering.filterMap_name?_run {stack : List Pending} {ts : List Token}
    (h : (run stack ts).failure = none) :
    (Move.kinds (run stack ts).moves).filterMap Kind.name? = (ts.map Token.kind).filterMap Kind.name? := by
  have hnames := filterMap_token_run (g := fun t => t.kind.name?) (fun _ hk => hk) h
  simpa [Move.kinds, List.filterMap_map, Function.comp_def] using hnames

theorem Kind.var_mem_iff {name : String} {ks : List Kind} :
    .var name ∈ ks ↔ name ∈ ks.filterMap Kind.name? := by
  rw [List.mem_filterMap]
  constructor
  · intro h
    exact ⟨_, h, rfl⟩
  · rintro ⟨k, hk, hname⟩
    rwa [eq_var_of_name?_eq_some hname] at hk

/-! ## A group on the stack of finished operands -/

namespace Formula

variable {stack stack' : List (Formula String)} {k : Kind} {ks ks' between : List Kind}
  {g : String → Formula String} {f : Formula String} {name : String}

theorem push_append (h : push stack k = .ok stack') (base : List (Formula String)) :
    push (stack ++ base) k = .ok (stack' ++ base) := by
  cases k with
  | var _ => cases h; rfl
  | leftParen | rightParen => cases h
  | operator op =>
      cases op with
      | not =>
          cases stack with
          | nil => cases h
          | cons f below => cases h; rfl
      | binary c =>
          obtain ⟨l, r, below, rfl, rfl⟩ := push_binary_eq_ok_iff.mp h
          rfl

theorem Builds.append_base (h : Builds stack ks stack') (base : List (Formula String)) :
    Builds (stack ++ base) ks (stack' ++ base) := by
  induction ks generalizing stack with
  | nil => rw [builds_nil_iff.mp h]; exact .nil _
  | cons k ks ih =>
      obtain ⟨next, hk, hks⟩ := builds_cons_iff.mp h
      exact builds_cons_iff.mpr ⟨_, push_append hk base, ih hks⟩

/-- Operands are replaced before a step as well as after it; the step fails for their number alone. -/
theorem push_map_bind (stack : List (Formula String)) (hk : ∀ name, k = .var name → g name = .var name) :
    push (stack.map (bind · g)) k = (push stack k).map (List.map (bind · g)) := by
  cases k with
  | var name => simp [push, Except.map, bind, hk name rfl]
  | leftParen | rightParen => rfl
  | operator op =>
      cases op with
      | not => cases stack <;> rfl
      | binary c => rcases stack with _ | ⟨r, _ | ⟨l, below⟩⟩ <;> rfl

theorem foldlM_push_map_bind (stack : List (Formula String))
    (hks : ∀ name, .var name ∈ ks → g name = .var name) :
    ks.foldlM push (stack.map (bind · g)) = (ks.foldlM push stack).map (List.map (bind · g)) := by
  induction ks generalizing stack with
  | nil => rfl
  | cons k ks ih =>
      rw [List.foldlM_cons, List.foldlM_cons, push_map_bind stack fun name h => hks name (h ▸ List.mem_cons_self)]
      cases push stack k with
      | error e => rfl
      | ok next => exact ih next fun name h => hks name (List.mem_cons_of_mem k h)

/-- The formula that the kinds complete, with the given operands finished before them. -/
def complete (stack : List (Formula String)) (ks : List Kind) : Except ShapeError (Formula String) :=
  ks.foldlM push stack >>= finish

theorem complete_append (h : Builds stack ks stack') : complete stack (ks ++ ks') = complete stack' ks' := by
  rw [complete, List.foldlM_append, h]
  rfl

theorem complete_append_of_error {e : ShapeError} (h : ks.foldlM push stack = .error e) :
    complete stack (ks ++ ks') = .error e := by
  rw [complete, List.foldlM_append, h]
  rfl

theorem complete_map_bind (stack : List (Formula String))
    (hks : ∀ name, .var name ∈ ks → g name = .var name) :
    complete (stack.map (bind · g)) ks = (complete stack ks).map (bind · g) := by
  rw [complete, complete, foldlM_push_map_bind stack hks]
  cases ks.foldlM push stack with
  | error e => rfl
  | ok next =>
      show finish (next.map _) = (finish next).map _
      rcases next with _ | ⟨f, _ | ⟨f', below⟩⟩
      · rfl
      · rfl
      · simp [finish, Except.map]

/-- The formula with another one in the place of a variable. -/
def replace (name : String) (f : Formula String) : Formula String → Formula String :=
  (bind · fun x => if x = name then f else .var x)

/-- Kinds that leave one formula do for any other kinds what a variable does, up to replacing it. -/
theorem ofPostorder_replace (hbetween : Builds [] between [f]) (hks : .var name ∉ ks)
    (hks' : .var name ∉ ks') :
    ofPostorder (ks ++ between ++ ks') = (ofPostorder (ks ++ .var name :: ks')).map (replace name f) := by
  have hfix {ks : List Kind} (h : .var name ∉ ks) (x : String) (hx : .var x ∈ ks) :
      (if x = name then f else .var x) = .var x := if_neg fun he => h (he ▸ hx)
  show complete [] (ks ++ between ++ ks') = (complete [] (ks ++ .var name :: ks')).map (replace name f)
  cases h : ks.foldlM push [] with
  | error e =>
      rw [List.append_assoc, complete_append_of_error h, complete_append_of_error h]
      rfl
  | ok stack =>
      have hstack : stack.map (replace name f) = stack := by
        have hbefore : ks.foldlM push [] = (ks.foldlM push []).map (List.map (replace name f)) :=
          foldlM_push_map_bind [] (hfix hks)
        rw [h] at hbefore
        exact (Except.ok.inj hbefore).symm
      have hgroup : Builds stack between (f :: stack) := hbetween.append_base stack
      have hreplace : (Formula.var name :: stack).map (replace name f) = f :: stack := by
        rw [List.map_cons, hstack, replace, bind, if_pos rfl]
      calc complete [] (ks ++ between ++ ks')
        _ = complete (f :: stack) ks' := by
            rw [List.append_assoc, complete_append h, complete_append hgroup]
        _ = (complete (.var name :: stack) ks').map (replace name f) := by
            rw [← hreplace]
            exact complete_map_bind _ (hfix hks')
        _ = (complete [] (ks ++ .var name :: ks')).map (replace name f) := by
            rw [complete_append h]
            rfl

end Formula

/-! ## Both stacks -/

/-- The formula that a reordering leaves, or the first error. -/
def Reordering.formula (r : Reordering) : Except ReadError (Formula String) :=
  match r.failure with
  | none => (Formula.ofPostorder (Move.kinds r.moves)).mapError .shape
  | some e => .error (.unbalanced e)

namespace Formula

/-- Reads tokens as a formula: they are put into postorder, and the formula is built from that. -/
def ofTokens (ts : List Token) : Except ReadError (Formula String) := do
  let ordered ← (Token.reorder ts).result.mapError .unbalanced
  (ofPostorder (ordered.map Token.kind)).mapError .shape

/-- Reading a text is reading the tokens it is split into. -/
theorem result_read (text : String) :
    (read text).result = (Token.scan text).result.mapError .lexical >>= ofTokens := by
  simp only [read, Logged.result_bind, Logged.result_mapError, Logged.result_ofExcept, Logged.result_record,
    Logged.result_pure]
  refine bind_congr fun ts => ?_
  rw [ofTokens]
  refine bind_congr fun ordered => ?_
  cases ofPostorder (ordered.map Token.kind) <;> rfl

theorem ofTokens_eq_formula (ts : List Token) : ofTokens ts = (Reordering.run [] ts).formula := by
  rw [ofTokens, Token.result_reorder, Reordering.result, Reordering.formula]
  cases (Reordering.run [] ts).failure with
  | some e => rfl
  | none =>
      simp only [Move.kinds, ← Function.comp_def Token.kind, ← List.map_map]
      rfl

end Formula

namespace Reordering

variable {r : Reordering} {f : Formula String}

theorem formula_eq_ok_iff : r.formula = .ok f ↔ r.Leaves [] [f] := by
  rw [formula, Leaves]
  cases r.failure with
  | some e => simp
  | none =>
      rw [← Formula.ofPostorder_eq_ok_iff]
      cases Formula.ofPostorder (Move.kinds r.moves) <;> simp [Except.mapError]

/-- Moves that leave one formula do the same for whatever is moved around them as a variable does, which
occurs nowhere else. -/
theorem formula_after_group {moves group : List Move} {v : Token} {name : String}
    (hgroup : Formula.Builds [] (Move.kinds group) [f]) (hv : v.kind = .var name)
    (hmoves : .var name ∉ Move.kinds moves) (hr : r.failure = none → .var name ∉ Move.kinds r.moves) :
    ((r.after group).after moves).formula =
      ((r.after [⟨v, .operand⟩]).after moves).formula.map (Formula.replace name f) := by
  simp only [formula, after]
  cases h : r.failure with
  | some e => rfl
  | none =>
      have hreplace := Formula.ofPostorder_replace hgroup hmoves (hr h)
      have hvar : Move.kinds ([⟨v, .operand⟩] ++ r.moves) = .var name :: Move.kinds r.moves := by
        rw [← hv]
        rfl
      rw [List.append_assoc] at hreplace
      simp only [Move.kinds_append _ (_ ++ _), hvar, Move.kinds_append group, hreplace]
      cases Formula.ofPostorder (Move.kinds moves ++ .var name :: Move.kinds r.moves) <;> rfl

end Reordering

namespace Formula

open Reordering

/-- A list of tokens in parentheses is read, wherever it stands, as a variable would be in its place. Either
both lists are refused with the same error, or the two formulas differ in the place of the variable only. The
tokens around it may be any. -/
theorem ofTokens_group {x y ts : List Token} {l r v : Token} {name : String} {f : Formula String}
    (hts : ofTokens ts = .ok f) (hl : l.kind = .leftParen) (hr : r.kind = .rightParen)
    (hv : v.kind = .var name) (hxy : ∀ t ∈ x ++ y, t.kind ≠ .var name) :
    ofTokens (x ++ [l] ++ ts ++ [r] ++ y) = (ofTokens (x ++ [v] ++ y)).map (replace name f) := by
  rw [ofTokens_eq_formula, formula_eq_ok_iff] at hts
  obtain ⟨hbalanced, hbuilds⟩ := hts
  have hlist : x ++ [l] ++ ts ++ [r] ++ y = x ++ (l :: ts ++ [r] ++ y) := by simp
  rw [ofTokens_eq_formula, ofTokens_eq_formula, hlist, List.append_assoc x [v]]
  rcases steps_or_fails [] x with ⟨moves, stack, hx⟩ | ⟨moves, e, hfails⟩
  case inr =>
    -- The failure lies in front of both, so neither the group nor the variable is reached.
    rw [hfails, hfails]
    rfl
  case inl =>
    obtain ⟨group, hgroup, hkinds⟩ := exists_steps_group hl hr hbalanced stack
    have hvar : Pending.Steps stack [v] [⟨v, .operand⟩] stack := .cons (Pending.step_var hv) (.nil stack)
    rw [run_append hx, run_append hx, run_append hgroup, run_append hvar]
    obtain ⟨hx', hy'⟩ := List.forall_mem_append.mp hxy
    refine formula_after_group (hkinds ▸ hbuilds) hv ?_ fun hy => ?_
    · rw [Kind.var_mem_iff, hx.filterMap_name?, ← Kind.var_mem_iff]
      simpa using hx'
    · rw [Kind.var_mem_iff, filterMap_name?_run hy, ← Kind.var_mem_iff]
      simpa using hy'

/-- The group in `NOT (a OR b) AND c` is negated as a whole. -/
theorem ofTokens_group_disjunction :
    let ts : List Token := [.startingAt (.var "a") 5, .startingAt (.operator (.binary .or)) 7,
      .startingAt (.var "b") 10]
    let f : Formula String := .binary .or (.var "a") (.var "b")
    let x : List Token := [.startingAt (.operator .not) 0]
    let y : List Token := [.startingAt (.operator (.binary .and)) 13, .startingAt (.var "c") 17]
    ofTokens ts = .ok f ∧ (∀ t ∈ x ++ y, t.kind ≠ .var "v") ∧
      ofTokens (x ++ [.startingAt .leftParen 4] ++ ts ++ [.startingAt .rightParen 11] ++ y) =
        (ofTokens (x ++ [.startingAt (.var "v") 4] ++ y)).map (replace "v" f) := by
  intro ts f x y
  have hts : ofTokens ts = .ok f := rfl
  have hxy : ∀ t ∈ x ++ y, t.kind ≠ .var "v" := by decide
  exact ⟨hts, hxy, ofTokens_group hts rfl rfl rfl hxy⟩

end Formula

end Propositional
