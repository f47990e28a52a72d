import Propositional.Proofs.Language.Stacks

/-!
# The layers of the pending operators

Nothing that yields to a connective ever waits beneath one (`Pending.Layered`). So between two open parentheses there
are implications, then at most one conjunction or disjunction, then negations (`Pending.Layered.isSegment`), and what an
arriving connective takes from the stack is only the upper part of that (`Token.reorder_segments`).
-/

namespace Propositional

namespace Pending

variable {stack stack' top below : List Pending} {t : Token} {ts : List Token} {moves : List Move}

/-! ## Layers -/

/-- Beneath every connective there is nothing from which an arriving connective would take something. -/
def Layered (stack : List Pending) : Prop :=
  ∀ c span below, .operator (.binary c) span :: below <:+ stack → Firm below

theorem layered_nil : Layered [] := by
  intro c span below h
  cases List.suffix_nil.mp h

theorem Layered.of_suffix (h : Layered stack) (hsuffix : stack' <:+ stack) : Layered stack' :=
  fun c span below hbelow => h c span below (hbelow.trans hsuffix)

theorem Layered.cons {p : Pending} (h : Layered stack)
    (hp : ∀ c span, p = .operator (.binary c) span → Firm stack) : Layered (p :: stack) := by
  intro c span below hbelow
  rcases List.suffix_cons_iff.mp hbelow with heq | hbelow
  · cases heq
    exact hp c span rfl
  · exact h c span below hbelow

/-- A connective is put on what is left when everything that yields to it is gone. All other tokens put something on
the stack that may lie on anything, or only take entries off it. -/
theorem Takes.layered (h : Takes stack t moves stack') (hlayered : Layered stack) : Layered stack' := by
  cases h with
  | var _ _ => exact hlayered
  | leftParen _ _ | not _ _ => exact hlayered.cons (by simp)
  | rightParen span below _ _ =>
      exact hlayered.of_suffix ((List.suffix_cons _ _).trans (List.suffix_append _ _))
  | connective _ _ hfirm => exact (hlayered.of_suffix (List.suffix_append _ _)).cons fun _ _ _ => hfirm

theorem Steps.layered (h : Steps stack ts moves stack') (hlayered : Layered stack) : Layered stack' := by
  induction h with
  | nil _ => exact hlayered
  | cons hstep _ ih => exact ih ((step_eq_ok_iff.mp hstep).layered hlayered)

/-! ## Segments -/

/-- The kinds of the waiting tokens, the lowest one first, cut at the open parentheses. -/
def segments (stack : List Pending) : List (List Kind) := (kinds stack).reverse.splitOn .leftParen

/-- Implications, then at most one conjunction or disjunction, then negations. -/
def IsSegment (ks : List Kind) : Prop :=
  ∃ i j, ∃ middle ∈ [[], [Kind.operator (.binary .and)], [.operator (.binary .or)]],
    ks = List.replicate i (.operator (.binary .implies)) ++ middle ++ List.replicate j (.operator .not)

theorem IsSegment.count_le {ks : List Kind} (h : IsSegment ks) :
    ks.count (.operator (.binary .and)) + ks.count (.operator (.binary .or)) ≤ 1 := by
  obtain ⟨i, j, middle, hmiddle, rfl⟩ := h
  simp only [List.mem_cons, List.not_mem_nil, or_false] at hmiddle
  rcases hmiddle with rfl | rfl | rfl <;> simp [List.count_replicate]

theorem segments_of_isOperator (h : ∀ p ∈ top, p.isOperator) : segments top = [(kinds top).reverse] := by
  refine List.splitOn_eq_singleton fun hmem => ?_
  obtain ⟨p, hp, hk⟩ := List.mem_map.mp (List.mem_reverse.mp hmem)
  cases p with
  | paren _ => cases h _ hp
  | operator _ _ => cases hk

theorem segments_append_paren (top : List Pending) (span : Span) (below : List Pending) :
    segments (top ++ .paren span :: below) = segments below ++ segments top := by
  have hkinds : (kinds (top ++ .paren span :: below)).reverse =
      (kinds below).reverse ++ .leftParen :: (kinds top).reverse := by
    simp [kinds, token]
  rw [segments, hkinds, List.splitOn_append_cons_self]
  rfl

/-- What waits after the tokens of `a -> b OR NOT (NOT`. -/
example (span : Span) : segments [.operator .not span, .paren span, .operator .not span,
    .operator (.binary .or) span, .operator (.binary .implies) span] =
      [[.operator (.binary .implies), .operator (.binary .or), .operator .not], [.operator .not]] := rfl

/-- Operators from which an arriving connective would take nothing are implications. -/
theorem Layered.kinds_of_firm (h : Layered (top ++ below)) (htop : ∀ p ∈ top, p.isOperator)
    (hfirm : Firm (top ++ below)) : kinds top = List.replicate top.length (.operator (.binary .implies)) := by
  induction top with
  | nil => rfl
  | cons p top ih =>
      obtain ⟨hp, hops⟩ := List.forall_mem_cons.mp htop
      cases p with
      | paren _ => cases hp
      | operator op span =>
          obtain rfl : op = .binary .implies := by simpa [isTight] using hfirm _ rfl
          have hrest := ih (h.of_suffix (List.suffix_cons _ _)) hops (h _ _ _ (List.suffix_refl _))
          rw [List.length_cons, List.replicate_succ, ← hrest]
          rfl

/-- The operators above a parenthesis, or above any part of the stack, are a segment. -/
theorem Layered.isSegment (h : Layered (top ++ below)) (htop : ∀ p ∈ top, p.isOperator) :
    IsSegment (kinds top).reverse := by
  induction top with
  | nil => exact ⟨0, 0, [], by simp, rfl⟩
  | cons p top ih =>
      obtain ⟨hp, hops⟩ := List.forall_mem_cons.mp htop
      have hrest : Layered (top ++ below) := h.of_suffix (List.suffix_cons _ _)
      cases p with
      | paren _ => cases hp
      | operator op span =>
          have hreverse : (kinds (.operator op span :: top)).reverse = (kinds top).reverse ++ [.operator op] :=
            List.reverse_cons
          rw [hreverse]
          cases op with
          | not =>
              obtain ⟨i, j, middle, hmiddle, heq⟩ := ih hrest hops
              exact ⟨i, j + 1, middle, hmiddle, by rw [heq, List.replicate_succ', List.append_assoc]⟩
          | binary c =>
              rw [hrest.kinds_of_firm hops (h _ _ _ (List.suffix_refl _)), List.reverse_replicate]
              cases c with
              | and => exact ⟨top.length, 0, [.operator (.binary .and)], by simp, by simp⟩
              | or => exact ⟨top.length, 0, [.operator (.binary .or)], by simp, by simp⟩
              | implies => exact ⟨top.length + 1, 0, [], by simp, by simp [List.replicate_succ']⟩

theorem Layered.isSegment_of_mem (h : Layered (top ++ stack)) (htop : ∀ p ∈ top, p.isOperator) :
    ∀ segment ∈ segments (top ++ stack), IsSegment segment := by
  -- The operators above the first parenthesis are gathered in `top`.
  induction stack generalizing top with
  | nil =>
      have hsegment := h.isSegment htop
      rw [List.append_nil, segments_of_isOperator htop]
      exact List.forall_mem_singleton.mpr hsegment
  | cons p stack ih =>
      cases p with
      | operator op span =>
          rw [List.append_cons] at h ⊢
          exact ih h (List.forall_mem_append.mpr ⟨htop, by simp [isOperator]⟩)
      | paren span =>
          have hbelow : Layered ([] ++ stack) :=
            h.of_suffix ((List.suffix_cons _ _).trans (List.suffix_append _ _))
          rw [segments_append_paren, segments_of_isOperator htop]
          exact List.forall_mem_append.mpr ⟨ih hbelow (by simp), List.forall_mem_singleton.mpr (h.isSegment htop)⟩

/-! ## Sweeps -/

theorem not_mem_kinds_of_isTight (h : ∀ p ∈ top, p.isTight) : .operator (.binary .implies) ∉ kinds top := by
  intro hmem
  obtain ⟨p, hp, hk⟩ := List.mem_map.mp hmem
  have htight := h p hp
  cases p with
  | paren _ => cases hk
  | operator op _ =>
      cases hk
      cases htight

/-- A connective takes a part of the top segment that has no implication in it. -/
theorem Layered.exists_swept {c : Connective} (h : Layered stack) (hk : t.kind = .operator (.binary c)) :
    ∃ popped below, stack = popped ++ below ∧
      step stack t = (Move.emit (.swept c) popped, .ok (.operator (.binary c) t.span :: below)) ∧
      .operator (.binary .implies) ∉ kinds popped ∧
      (kinds popped).count (.operator (.binary .and)) + (kinds popped).count (.operator (.binary .or)) ≤ 1 := by
  obtain ⟨popped, below, rfl, hpopped, hbelow⟩ := exists_run_append isTight stack
  refine ⟨popped, below, rfl, step_connective hk hpopped hbelow, not_mem_kinds_of_isTight hpopped, ?_⟩
  have hcount := (h.isSegment fun p hp => isOperator_of_isTight (hpopped p hp)).count_le
  rwa [List.count_reverse, List.count_reverse] at hcount

theorem cause_of_mem_step {m : Move} (h : m ∈ (step stack t).1)
    (hm : m.token.kind = .operator (.binary .implies)) : m.cause = .closed := by
  cases hk : t.kind with
  | var name =>
      rw [step_var hk] at h
      cases List.mem_singleton.mp h
      rw [hk] at hm
      cases hm
  | leftParen => rw [step_leftParen hk] at h; cases h
  | rightParen =>
      simp only [step, hk] at h
      obtain ⟨p, _, rfl⟩ := List.mem_map.mp h
      rfl
  | operator op =>
      cases op with
      | not => rw [step_not hk] at h; cases h
      | binary c =>
          obtain ⟨popped, below, rfl, hpopped, hbelow⟩ := exists_run_append isTight stack
          rw [step_connective hk hpopped hbelow] at h
          obtain ⟨p, hp, rfl⟩ := List.mem_map.mp h
          exact (not_mem_kinds_of_isTight hpopped (List.mem_map.mpr ⟨p, hp, hm⟩)).elim

end Pending

theorem Reordering.cause_of_mem_run {stack : List Pending} {ts : List Token} {m : Move} (h : m ∈ (run stack ts).moves)
    (hm : m.token.kind = .operator (.binary .implies)) : m.cause = .closed ∨ m.cause = .drained := by
  induction ts generalizing stack with
  | nil =>
      obtain ⟨p, _, rfl⟩ := List.mem_map.mp h
      exact .inr rfl
  | cons t ts ih =>
      rcases run_cons_cases stack t with ⟨moves, e, hstep, hrun⟩ | ⟨moves, stack', hstep, hrun⟩
      · rw [hrun] at h
        exact .inl (Pending.cause_of_mem_step (by rwa [hstep]) hm)
      · rw [hrun] at h
        rcases List.mem_append.mp h with h | h
        · exact .inl (Pending.cause_of_mem_step (by rwa [hstep]) hm)
        · exact ih h

/-- Whatever the tokens are, when the first ones have been taken the stack from which the reordering goes on consists of
segments, and so does every part that is left of it while the next token takes entries off its top. A connective takes
no implication and at most one conjunction or disjunction from the stack, so an implication leaves it only for a right
parenthesis or at the end. -/
theorem Token.reorder_segments (ts : List Token) :
    (∀ n moves stack, Pending.Steps [] (ts.take n) moves stack →
      Reordering.run [] ts = (Reordering.run stack (ts.drop n)).after moves ∧
      (∀ rest, rest <:+ stack → ∀ segment ∈ Pending.segments rest, Pending.IsSegment segment) ∧
      ∀ t c, ts[n]? = some t → t.kind = .operator (.binary c) → ∃ popped below, stack = popped ++ below ∧
        Pending.step stack t = (Move.emit (.swept c) popped, .ok (.operator (.binary c) t.span :: below)) ∧
        .operator (.binary .implies) ∉ Pending.kinds popped ∧
        (Pending.kinds popped).count (.operator (.binary .and)) +
          (Pending.kinds popped).count (.operator (.binary .or)) ≤ 1) ∧
    ∀ m ∈ (Reordering.run [] ts).moves, m.token.kind = .operator (.binary .implies) →
      m.cause = .closed ∨ m.cause = .drained := by
  refine ⟨fun n moves stack hsteps => ?_, fun m hm hk => Reordering.cause_of_mem_run hm hk⟩
  have hlayered : Pending.Layered stack := hsteps.layered Pending.layered_nil
  refine ⟨?_, fun rest hrest => ?_, fun t c _ hk => hlayered.exists_swept hk⟩
  · rw [← Reordering.run_append hsteps, List.take_append_drop]
  · have hrest : Pending.Layered ([] ++ rest) := hlayered.of_suffix hrest
    exact hrest.isSegment_of_mem (by simp)

end Propositional
