import Propositional.Proofs.Language.Stacks

/-!
# What tokens do to the finished operands

A grammar of all the lists that leave operands without a failure (`Part.Resolves`). It is wider than the
grammar of formulas, since an operator may stand anywhere in its stretch as long as enough operands are
finished when the stretch ends.

* `Reordering.leaves_of_resolves`: a list of the grammar is reordered as the grammar says.
* `Reordering.resolves_of_leaves`: whatever is reordered without a failure belongs to the grammar.
-/

namespace Propositional

/-- The parts of a list inside one pair of parentheses. A stretch goes up to the next connective, and the rest
of a group begins with that connective. -/
inductive Part where
  | stretch
  | rest
  | group
  deriving DecidableEq

/-- The finished operands before and after a part of a list, the last one first.

A negation takes the operand that is last when its stretch ends. A conjunction or disjunction takes the two
that are last when the stretch behind it ends, and an implication those that are last when the group ends. -/
inductive Part.Resolves : Part → List (Formula String) → List Kind → List (Formula String) → Prop where
  | nil (stack) : Resolves .stretch stack [] stack
  | var {name ks stack stack'} : Resolves .stretch (.var name :: stack) ks stack' →
      Resolves .stretch stack (.var name :: ks) stack'
  | not {f ks stack below} : Resolves .stretch stack ks (f :: below) →
      Resolves .stretch stack (.operator .not :: ks) (.not f :: below)
  | parens {ks ks' stack between stack'} : Resolves .group stack ks between →
      Resolves .stretch between ks' stack' →
      Resolves .stretch stack (.leftParen :: ks ++ .rightParen :: ks') stack'
  | stop (stack) : Resolves .rest stack [] stack
  | more {c l r ks ks' stack below stack'} (hc : c ≠ .implies) :
      Resolves .stretch stack ks (r :: l :: below) → Resolves .rest (.binary c l r :: below) ks' stack' →
      Resolves .rest stack (.operator (.binary c) :: ks ++ ks') stack'
  | implies {l r ks stack below} : Resolves .group stack ks (r :: l :: below) →
      Resolves .rest stack (.operator (.binary .implies) :: ks) (.binary .implies l r :: below)
  | group {ks ks' stack between stack'} : Resolves .stretch stack ks between →
      Resolves .rest between ks' stack' → Resolves .group stack (ks ++ ks') stack'

/-! ## Names keep their order -/

/-- The name, if the kind is a variable. -/
def Kind.name? : Kind → Option String
  | .var name => some name
  | _ => none

theorem Kind.eq_var_of_name?_eq_some {k : Kind} {name : String} (h : k.name? = some name) : k = .var name := by
  cases k with
  | var _ => cases h; rfl
  | operator _ | leftParen | rightParen => cases h

/-- The variables of finished operands, those of the last operand at the end. -/
def Formula.names (operands : List (Formula String)) : List String := operands.reverse.flatMap vars

theorem Formula.names_cons (f : Formula String) (operands : List (Formula String)) :
    names (f :: operands) = names operands ++ f.vars := by
  simp [names]

/-- The finished operands have the variables of the list in its order. -/
theorem Part.Resolves.names_eq {part : Part} {operands operands' : List (Formula String)} {ks : List Kind}
    (h : part.Resolves operands ks operands') :
    Formula.names operands' = Formula.names operands ++ ks.filterMap Kind.name? := by
  induction h with
  | nil _ | stop _ => simp
  | var _ ih => simp [ih, Formula.names_cons, Formula.vars, Kind.name?]
  | not _ ih => simpa [List.filterMap_cons, Formula.names_cons, Formula.vars, Kind.name?] using ih
  | parens _ _ ih ih' => simp [List.filterMap_cons, ih', ih, Kind.name?]
  | more _ _ _ ih ih' =>
      rw [ih']
      simp only [Formula.names_cons, Formula.vars, ← List.append_assoc] at ih ⊢
      simp [List.filterMap_cons, ih, Kind.name?]
  | implies _ ih => simpa [List.filterMap_cons, Formula.names_cons, Formula.vars, Kind.name?] using ih
  | group _ _ ih ih' => simp [ih', ih]

/-! ## Lists of the grammar are reordered -/

namespace Pending

open Formula

/-- The operators that a part of a list leaves waiting on top of a stack would turn the operands into those
that the grammar gives; a part is followed from any stack on which it can begin. -/
def Settles : Part → List (Formula String) → List Kind → List (Formula String) → Prop
  | .stretch, operands, ks, operands' => ∀ ts, ts.map Token.kind = ks → ∀ stack, ∃ moves top,
      Steps stack ts moves (top ++ stack) ∧ (∀ p ∈ top, p.isTight) ∧
        Builds operands (Move.kinds moves ++ kinds top) operands'
  | .rest, operands, ks, operands' => ∀ ts, ts.map Token.kind = ks → ∀ stack, Firm stack →
      ∀ before, (∀ p ∈ before, p.isTight) → ∃ moves top,
        Steps (before ++ stack) ts moves (top ++ stack) ∧ (∀ p ∈ top, p.isOperator) ∧
          ∀ unfinished, Builds unfinished (kinds before) operands →
            Builds unfinished (Move.kinds moves ++ kinds top) operands'
  | .group, operands, ks, operands' => ∀ ts, ts.map Token.kind = ks → ∀ stack, Firm stack →
      ∃ moves top, Steps stack ts moves (top ++ stack) ∧ (∀ p ∈ top, p.isOperator) ∧
        Builds operands (Move.kinds moves ++ kinds top) operands'

namespace Settles

variable {operands between below operands' : List (Formula String)} {l r f : Formula String}
  {ks ks' : List Kind}

theorem nil (operands : List (Formula String)) : Settles .stretch operands [] operands := by
  intro ts hts stack
  obtain rfl := List.map_eq_nil_iff.mp hts
  exact ⟨[], [], .nil _, by simp, .nil _⟩

theorem var {name : String} (h : Settles .stretch (.var name :: operands) ks operands') :
    Settles .stretch operands (.var name :: ks) operands' := by
  intro ts hts stack
  obtain ⟨t, ts, rfl, hk, hts⟩ := List.map_eq_cons_iff.mp hts
  obtain ⟨moves, top, hsteps, htop, hb⟩ := h ts hts stack
  refine ⟨[⟨t, .operand⟩] ++ moves, top, .cons (step_var hk) hsteps, htop, ?_⟩
  simpa [Move.kinds, hk, builds_var_iff] using hb

theorem not (h : Settles .stretch operands ks (f :: below)) :
    Settles .stretch operands (.operator .not :: ks) (.not f :: below) := by
  intro ts hts stack
  obtain ⟨t, ts, rfl, hk, hts⟩ := List.map_eq_cons_iff.mp hts
  obtain ⟨moves, top, hsteps, htop, hb⟩ := h ts hts (.operator .not t.span :: stack)
  refine ⟨[] ++ moves, top ++ [.operator .not t.span], ?_, ?_, ?_⟩
  · rw [List.append_assoc]
    exact .cons (step_not hk) hsteps
  · exact List.forall_mem_append.mpr ⟨htop, List.forall_mem_singleton.mpr rfl⟩
  · rw [List.nil_append, kinds_append, ← List.append_assoc, builds_append_iff]
    exact ⟨_, hb, rfl⟩

-- Inside the parentheses the stack is firm, whatever waits outside them.
theorem parens (h : Settles .group operands ks between) (h' : Settles .stretch between ks' operands') :
    Settles .stretch operands (.leftParen :: ks ++ .rightParen :: ks') operands' := by
  intro ts hts stack
  obtain ⟨_, _, rfl, hl, hr⟩ := List.map_eq_append_iff.mp hts
  obtain ⟨t, ts, rfl, hk, hl⟩ := List.map_eq_cons_iff.mp hl
  obtain ⟨t', ts', rfl, hk', hr⟩ := List.map_eq_cons_iff.mp hr
  obtain ⟨moves, top, hsteps, htop, hb⟩ := h ts hl _ (firm_paren t.span stack)
  obtain ⟨moves', top', hsteps', htop', hb'⟩ := h' ts' hr stack
  have hclose := Steps.cons (step_rightParen t.span hk' htop) hsteps'
  refine ⟨[] ++ (moves ++ (Move.emit .closed top ++ moves')), top',
    .cons (step_leftParen hk) (hsteps.append hclose), htop', ?_⟩
  rw [List.nil_append, ← List.append_assoc, Move.kinds_append, Move.kinds_append, kinds_emit,
    List.append_assoc, builds_append_iff]
  exact ⟨_, hb, hb'⟩

theorem stop (operands : List (Formula String)) : Settles .rest operands [] operands := by
  intro ts hts stack _ before hbefore
  obtain rfl := List.map_eq_nil_iff.mp hts
  exact ⟨[], before, .nil _, fun p hp => isOperator_of_isTight (hbefore p hp), fun _ h => h⟩

-- The connective sweeps what the stretch before it left, and waits below what its own stretch leaves.
theorem more {c : Connective} (hc : c ≠ .implies) (h : Settles .stretch operands ks (r :: l :: below))
    (h' : Settles .rest (.binary c l r :: below) ks' operands') :
    Settles .rest operands (.operator (.binary c) :: ks ++ ks') operands' := by
  intro ts hts stack hstack before hbefore
  obtain ⟨_, ts', rfl, hl, hr⟩ := List.map_eq_append_iff.mp hts
  obtain ⟨t, ts, rfl, hk, hl⟩ := List.map_eq_cons_iff.mp hl
  obtain ⟨moves, top, hsteps, htop, hb⟩ := h ts hl (.operator (.binary c) t.span :: stack)
  have htight : (operator (.binary c) t.span).isTight := by simpa [isTight] using hc
  have htop' := List.forall_mem_append.mpr ⟨htop, List.forall_mem_singleton.mpr htight⟩
  obtain ⟨moves', top', hsteps', hop, hb'⟩ := h' ts' hr stack hstack _ htop'
  rw [List.append_assoc] at hsteps'
  refine ⟨Move.emit (.swept c) before ++ (moves ++ moves'), top',
    .cons (step_connective hk hbefore hstack) (hsteps.append hsteps'), hop, ?_⟩
  intro unfinished hu
  obtain ⟨next, hm, hn⟩ := builds_append_iff.mp hb
  have hnext : Builds next (kinds (top ++ [.operator (.binary c) t.span])) (.binary c l r :: below) := by
    rw [kinds_append, builds_append_iff]
    exact ⟨_, hn, rfl⟩
  rw [Move.kinds_append, Move.kinds_append, kinds_emit, List.append_assoc, List.append_assoc,
    builds_append_iff]
  exact ⟨_, hu, builds_append_iff.mpr ⟨next, hm, hb' next hnext⟩⟩

-- The implication itself keeps the stack firm for the group behind it.
theorem implies (h : Settles .group operands ks (r :: l :: below)) :
    Settles .rest operands (.operator (.binary .implies) :: ks) (.binary .implies l r :: below) := by
  intro ts hts stack hstack before hbefore
  obtain ⟨t, ts, rfl, hk, hts⟩ := List.map_eq_cons_iff.mp hts
  obtain ⟨moves, top, hsteps, hop, hb⟩ := h ts hts _ (firm_implies t.span stack)
  refine ⟨Move.emit (.swept .implies) before ++ moves, top ++ [.operator (.binary .implies) t.span],
    ?_, ?_, ?_⟩
  · rw [List.append_assoc]
    exact .cons (step_connective hk hbefore hstack) hsteps
  · exact List.forall_mem_append.mpr ⟨hop, List.forall_mem_singleton.mpr rfl⟩
  · intro unfinished hu
    rw [Move.kinds_append, kinds_emit, kinds_append, List.append_assoc, builds_append_iff]
    refine ⟨_, hu, ?_⟩
    rw [← List.append_assoc, builds_append_iff]
    exact ⟨_, hb, rfl⟩

theorem group (h : Settles .stretch operands ks between) (h' : Settles .rest between ks' operands') :
    Settles .group operands (ks ++ ks') operands' := by
  intro ts hts stack hstack
  obtain ⟨ts, ts', rfl, hl, hr⟩ := List.map_eq_append_iff.mp hts
  obtain ⟨moves, top, hsteps, htop, hb⟩ := h ts hl stack
  obtain ⟨moves', top', hsteps', hop, hb'⟩ := h' ts' hr stack hstack top htop
  refine ⟨moves ++ moves', top', hsteps.append hsteps', hop, ?_⟩
  obtain ⟨next, hm, hn⟩ := builds_append_iff.mp hb
  rw [Move.kinds_append, List.append_assoc, builds_append_iff]
  exact ⟨next, hm, hb' next hn⟩

end Settles

end Pending

theorem Part.Resolves.settles {part : Part} {operands operands' : List (Formula String)} {ks : List Kind}
    (h : part.Resolves operands ks operands') : Pending.Settles part operands ks operands' := by
  induction h with
  | nil operands => exact .nil operands
  | var _ ih => exact ih.var
  | not _ ih => exact ih.not
  | parens _ _ ih ih' => exact ih.parens ih'
  | stop operands => exact .stop operands
  | more hc _ _ ih ih' => exact .more hc ih ih'
  | implies _ ih => exact ih.implies
  | group _ _ ih ih' => exact ih.group ih'

theorem Reordering.leaves_drain {stack : List Pending} {operands operands' : List (Formula String)}
    (hstack : ∀ p ∈ stack, p.isOperator) (h : Formula.Builds operands (Pending.kinds stack) operands') :
    (drain stack).Leaves operands operands' := by
  simp only [Leaves, drain, List.takeWhile_eq_self_iff.mpr hstack, List.dropWhile_eq_nil_iff.mpr hstack,
    Pending.kinds_emit]
  exact ⟨rfl, h⟩

theorem Reordering.leaves_of_resolves {ts : List Token} {operands operands' : List (Formula String)}
    (h : Part.group.Resolves operands (ts.map Token.kind) operands') :
    (run [] ts).Leaves operands operands' := by
  obtain ⟨moves, top, hsteps, htop, hb⟩ := h.settles ts rfl [] Pending.firm_nil
  rw [List.append_nil] at hsteps
  obtain ⟨between, hm, hk⟩ := Formula.builds_append_iff.mp hb
  rw [run_of_steps hsteps, leaves_after_iff]
  exact ⟨between, hm, leaves_drain htop hk⟩

/-! ## Whatever is reordered belongs to the grammar -/

namespace Pending

mutual

/-- The kinds that are left when a stretch has ended, with the operands before them and after all. -/
inductive AfterStretch : List Pending → List (Formula String) → List Kind → List (Formula String) → Prop where
  | tight {op span stack ks operands between operands'} : op ≠ .binary .implies →
      Formula.push operands (.operator op) = .ok between → AfterStretch stack between ks operands' →
      AfterStretch (.operator op span :: stack) operands ks operands'
  | rest {stack ks ks' operands between operands'} : Firm stack → Part.rest.Resolves operands ks between →
      AfterGroup stack between ks' operands' → AfterStretch stack operands (ks ++ ks') operands'

/-- The kinds that are left when a group has ended, with the operands before them and after all. -/
inductive AfterGroup : List Pending → List (Formula String) → List Kind → List (Formula String) → Prop where
  | finish (operands) : AfterGroup [] operands [] operands
  | operator {op span stack ks operands between operands'} :
      Formula.push operands (.operator op) = .ok between → AfterGroup stack between ks operands' →
      AfterGroup (.operator op span :: stack) operands ks operands'
  | close {span stack ks ks' operands between operands'} : Part.stretch.Resolves operands ks between →
      AfterStretch stack between ks' operands' →
      AfterGroup (.paren span :: stack) operands (.rightParen :: ks ++ ks') operands'

end

variable {stack top : List Pending} {operands between operands' : List (Formula String)} {ks : List Kind}

theorem AfterGroup.afterStretch_of_firm (hstack : Firm stack) (h : AfterGroup stack operands ks operands') :
    AfterStretch stack operands ks operands' :=
  have := AfterStretch.rest hstack (.stop operands) h
  this

theorem AfterGroup.afterStretch (h : AfterGroup stack operands ks operands') :
    AfterStretch stack operands ks operands' := by
  induction stack generalizing operands with
  | nil => exact h.afterStretch_of_firm firm_nil
  | cons p stack ih =>
      cases h with
      | close hks hrest => exact (AfterGroup.close hks hrest).afterStretch_of_firm (firm_paren _ _)
      | @operator op _ _ _ _ _ _ hb h =>
          by_cases hop : op = .binary .implies
          · subst hop
            exact (AfterGroup.operator hb h).afterStretch_of_firm (firm_implies _ _)
          · exact .tight hop hb (ih h)

theorem AfterGroup.append (htop : ∀ p ∈ top, p.isOperator) (hb : Formula.Builds operands (kinds top) between)
    (h : AfterGroup stack between ks operands') : AfterGroup (top ++ stack) operands ks operands' := by
  induction top generalizing operands with
  | nil => rwa [← Formula.builds_nil_iff.mp hb] at h
  | cons p top ih =>
      cases p with
      | paren _ => cases htop _ List.mem_cons_self
      | operator op _ =>
          obtain ⟨next, hop, hb⟩ := Formula.builds_cons_iff.mp hb
          exact .operator hop (ih (fun p hp => htop p (List.mem_cons_of_mem _ hp)) hb)

theorem AfterStretch.append (htop : ∀ p ∈ top, p.isTight) (hb : Formula.Builds operands (kinds top) between)
    (h : AfterStretch stack between ks operands') : AfterStretch (top ++ stack) operands ks operands' := by
  induction top generalizing operands with
  | nil => rwa [← Formula.builds_nil_iff.mp hb] at h
  | cons p top ih =>
      cases p with
      | paren _ => cases htop _ List.mem_cons_self
      | operator op _ =>
          obtain ⟨next, hop, hb⟩ := Formula.builds_cons_iff.mp hb
          have hne : op ≠ .binary .implies := by simpa [isTight] using htop _ List.mem_cons_self
          exact .tight hne hop (ih (fun p hp => htop p (List.mem_cons_of_mem _ hp)) hb)

/-- The kinds that are left inside a stretch, with the operands before them and after all. -/
def InStretch (stack : List Pending) (operands : List (Formula String)) (ks : List Kind)
    (operands' : List (Formula String)) : Prop :=
  ∃ ks₁ ks₂ between, ks = ks₁ ++ ks₂ ∧ Part.stretch.Resolves operands ks₁ between ∧
    AfterStretch stack between ks₂ operands'

theorem AfterStretch.inStretch (h : AfterStretch stack operands ks operands') :
    InStretch stack operands ks operands' := ⟨[], ks, operands, rfl, .nil _, h⟩

theorem InStretch.var {name : String} (h : InStretch stack (.var name :: operands) ks operands') :
    InStretch stack operands (.var name :: ks) operands' := by
  obtain ⟨ks₁, ks₂, between, rfl, hks, h⟩ := h
  exact ⟨.var name :: ks₁, ks₂, between, rfl, .var hks, h⟩

theorem InStretch.not {span : Span} (h : InStretch (.operator .not span :: stack) operands ks operands') :
    InStretch stack operands (.operator .not :: ks) operands' := by
  obtain ⟨ks₁, ks₂, between, rfl, hks, h⟩ := h
  cases h with
  | rest hfirm _ _ => cases hfirm _ rfl
  | tight _ hp h =>
      cases between with
      | nil => cases hp
      | cons f below => cases hp; exact ⟨.operator .not :: ks₁, ks₂, _, rfl, .not hks, h⟩

theorem InStretch.leftParen {span : Span} (h : InStretch (.paren span :: stack) operands ks operands') :
    InStretch stack operands (.leftParen :: ks) operands' := by
  obtain ⟨ks₁, _, between, rfl, hks, h⟩ := h
  cases h with
  | rest _ hrest h =>
      cases h with
      | close hks' h =>
          refine ⟨_, _, _, ?_, .parens (.group hks hrest) hks', h⟩
          simp

theorem InStretch.rightParen {span : Span} (h : InStretch stack operands ks operands') :
    AfterGroup (.paren span :: stack) operands (.rightParen :: ks) operands' := by
  obtain ⟨ks₁, ks₂, between, rfl, hks, h⟩ := h
  exact .close hks h

/-- A connective ends the stretch before it and begins the next one. -/
theorem InStretch.connective {c : Connective} {span : Span} (hstack : Firm stack)
    (h : InStretch (.operator (.binary c) span :: stack) operands ks operands') :
    AfterStretch stack operands (.operator (.binary c) :: ks) operands' := by
  obtain ⟨ks₁, _, between, rfl, hks, h⟩ := h
  cases h with
  | tight hc hp h =>
      obtain ⟨l, r, below, rfl, rfl⟩ := Formula.push_binary_eq_ok_iff.mp hp
      cases h with
      | tight hne _ _ => simpa [isTight, hne] using hstack _ rfl
      | rest _ hrest h =>
          have := AfterStretch.rest hstack (.more (by simpa using hc) hks hrest) h
          simpa using this
  | rest hfirm hrest h =>
      obtain rfl : c = .implies := by simpa [isTight] using hfirm _ rfl
      cases h with
      | operator hp h =>
          obtain ⟨l, r, below, rfl, rfl⟩ := Formula.push_binary_eq_ok_iff.mp hp
          have := AfterStretch.rest hstack (.implies (.group hks hrest)) h
          simpa using this

end Pending

namespace Reordering

open Pending

variable {stack : List Pending} {operands operands' : List (Formula String)}

theorem afterGroup_of_leaves_drain (h : (drain stack).Leaves operands operands') :
    AfterGroup stack operands [] operands' := by
  induction stack generalizing operands with
  | nil => rw [← Formula.builds_nil_iff.mp h.2]; exact .finish _
  | cons p stack ih =>
      cases p with
      | paren _ => cases h.1
      | operator op span =>
          obtain ⟨next, hp, hb⟩ := Formula.builds_cons_iff.mp h.2
          exact .operator hp (ih ⟨h.1, hb⟩)

theorem inStretch_of_leaves {ts : List Token} (h : (run stack ts).Leaves operands operands') :
    InStretch stack operands (ts.map Token.kind) operands' := by
  induction ts generalizing stack operands with
  | nil => exact (afterGroup_of_leaves_drain h).afterStretch.inStretch
  | cons t ts ih =>
      rw [List.map_cons]
      obtain ⟨moves, stack', between, htakes, hb, h⟩ := h.exists_takes
      have hrest := ih h
      cases htakes with
      | var _ hk =>
          obtain rfl := Formula.builds_nil_iff.mp (Formula.builds_var_iff.mp (by simpa [Move.kinds, hk] using hb))
          rw [hk]
          exact hrest.var
      | leftParen _ hk =>
          obtain rfl := Formula.builds_nil_iff.mp hb
          rw [hk]
          exact hrest.leftParen
      | rightParen _ _ hk htop =>
          rw [kinds_emit] at hb
          rw [hk]
          exact (hrest.rightParen.append htop hb).afterStretch.inStretch
      | not _ hk =>
          obtain rfl := Formula.builds_nil_iff.mp hb
          rw [hk]
          exact hrest.not
      | connective hk htop hfirm =>
          rw [kinds_emit] at hb
          rw [hk]
          exact ((hrest.connective hfirm).append htop hb).inStretch

theorem resolves_of_leaves {ts : List Token} (h : (run [] ts).Leaves operands operands') :
    Part.group.Resolves operands (ts.map Token.kind) operands' := by
  obtain ⟨ks₁, _, between, heq, hks, h⟩ := inStretch_of_leaves h
  rw [heq]
  cases h with
  | rest _ hrest h =>
      cases h with
      | finish _ =>
          rw [List.append_nil]
          exact .group hks hrest

end Reordering

end Propositional
