import Propositional.Proofs.Language.Balance
import Propositional.Proofs.Language.Conservation
import Propositional.Proofs.Language.Grouping

/-!
# The order in which tokens are emitted

Reordering reads the kinds of the tokens and only carries their spans along (`Pending.Takes.place`). So what it does to
a list can be told once for all lists of these kinds, by the positions of the tokens (`Token.exists_positions`): each
position that holds no parenthesis is emitted once, and nothing is emitted ahead of a variable that stands before it.
-/

namespace Propositional

/-! ## Tokens at other places -/

namespace Token

def isVariable (t : Token) : Bool := t.kind.name?.isSome

/-- The token at the place that is given for its start. -/
def place (g : Nat → Span) (t : Token) : Token := ⟨t.kind, g t.span.start⟩

end Token

namespace Pending

variable {stack stack' top : List Pending} {t : Token} {ts : List Token} {moves : List Move}

def place (g : Nat → Span) : Pending → Pending
  | paren span => paren (g span.start)
  | operator op span => operator op (g span.start)

theorem forall_place {p : Pending → Bool} (g : Nat → Span) (hp : ∀ q, p (place g q) = p q) (h : ∀ q ∈ stack, p q) :
    ∀ q ∈ stack.map (place g), p q := by
  intro q hq
  obtain ⟨q, hmem, rfl⟩ := List.mem_map.mp hq
  rw [hp]
  exact h q hmem

theorem isOperator_place (g : Nat → Span) (p : Pending) : (p.place g).isOperator = p.isOperator := by
  cases p <;> rfl

theorem isTight_place (g : Nat → Span) (p : Pending) : (p.place g).isTight = p.isTight := by
  cases p <;> rfl

theorem Firm.place (h : Firm stack) (g : Nat → Span) : Firm (stack.map (place g)) := by
  cases stack with
  | nil => exact firm_nil
  | cons p stack =>
      intro q hq
      cases hq
      rw [isTight_place]
      exact h p rfl

end Pending

namespace Move

def place (g : Nat → Span) (m : Move) : Move := ⟨m.token.place g, m.cause⟩

theorem map_token_place (g : Nat → Span) (moves : List Move) :
    (moves.map (place g)).map token = (moves.map token).map (Token.place g) := by
  simp [place]

theorem emit_place (g : Nat → Span) (cause : Cause) (popped : List Pending) :
    (emit cause popped).map (place g) = emit cause (popped.map (Pending.place g)) := by
  rw [emit, emit, List.map_map, List.map_map]
  refine List.map_congr_left fun p _ => ?_
  cases p <;> rfl

end Move

namespace Pending

variable {stack stack' top : List Pending} {t : Token} {ts : List Token} {moves : List Move}

/-- A step is the same wherever the tokens stand. -/
theorem Takes.place (h : Takes stack t moves stack') (g : Nat → Span) :
    Takes (stack.map (Pending.place g)) (t.place g) (moves.map (Move.place g)) (stack'.map (Pending.place g)) := by
  cases h with
  | var _ hk => exact .var _ hk
  | leftParen _ hk => exact .leftParen _ hk
  | not _ hk => exact .not _ hk
  | rightParen span below hk htop =>
      rw [List.map_append, Move.emit_place]
      exact .rightParen (g span.start) _ hk (forall_place g (isOperator_place g) htop)
  | connective hk htop hfirm =>
      rw [List.map_append, Move.emit_place]
      exact .connective hk (forall_place g (isTight_place g) htop) (hfirm.place g)

theorem Steps.place (h : Steps stack ts moves stack') (g : Nat → Span) :
    Steps (stack.map (Pending.place g)) (ts.map (Token.place g)) (moves.map (Move.place g))
      (stack'.map (Pending.place g)) := by
  induction h with
  | nil _ => exact .nil _
  | cons hstep _ ih =>
      rw [List.map_append]
      exact .cons (step_eq_ok_iff.mpr ((step_eq_ok_iff.mp hstep).place g)) ih

end Pending

namespace Token

variable {ts ordered : List Token}

theorem result_reorder_place (h : (reorder ts).result = .ok ordered) (g : Nat → Span) :
    (reorder (ts.map (place g))).result = .ok (ordered.map (place g)) := by
  obtain ⟨moves, top, hsteps, htop, rfl⟩ := result_reorder_eq_ok_iff.mp h
  refine result_reorder_eq_ok_iff.mpr ⟨_, _, hsteps.place g, ?_, ?_⟩
  · exact Pending.forall_place g (Pending.isOperator_place g) htop
  · rw [← Move.emit_place, ← List.map_append, Move.map_token_place]

end Token

/-! ## Positions -/

/-- The position holds a variable. -/
def IsVariableAt (ks : List Kind) (i : Nat) : Prop := ∃ name, ks[i]? = some (.var name)

/-- The position holds an operator. -/
def IsOperatorAt (ks : List Kind) (i : Nat) : Prop := ∃ op, ks[i]? = some (.operator op)

/-- The positions of all kinds but the parentheses, in an order in which nothing comes ahead of a variable that stands
before it in the list. -/
structure IsEmission (ks : List Kind) (positions : List Nat) : Prop where
  perm : positions.Perm ((List.range ks.length).filter fun i => ks[i]?.any (!·.isParen))
  pairwise : positions.Pairwise fun i j => IsVariableAt ks j → i < j

variable {ks : List Kind} {positions : List Nat} {i j : Nat}

theorem mem_filter_range {k : Kind} (h : ks[i]? = some k) (hk : k.isParen = false) :
    i ∈ (List.range ks.length).filter fun i => ks[i]?.any (!·.isParen) := by
  obtain ⟨hlt, _⟩ := List.getElem?_eq_some_iff.mp h
  exact List.mem_filter.mpr ⟨List.mem_range.mpr hlt, by simp [h, hk]⟩

theorem IsEmission.idxOf_lt (h : IsEmission ks positions) (hi : IsVariableAt ks i) (hj : IsOperatorAt ks j)
    (hlt : i < j) : positions.idxOf i < positions.idxOf j := by
  have hmem {k : Kind} {i : Nat} (hi : ks[i]? = some k) (hk : k.isParen = false) :
      positions.idxOf i < positions.length :=
    List.idxOf_lt_length_of_mem (h.perm.mem_iff.mpr (mem_filter_range hi hk))
  obtain ⟨name, hname⟩ := hi
  obtain ⟨op, hop⟩ := hj
  have hi' := hmem hname rfl
  have hj' := hmem hop rfl
  have hgeti : positions[positions.idxOf i] = i := List.getElem_idxOf hi'
  have hgetj : positions[positions.idxOf j] = j := List.getElem_idxOf hj'
  rcases Nat.lt_trichotomy (positions.idxOf i) (positions.idxOf j) with hidx | hidx | hidx
  · exact hidx
  · simp only [hidx, hgetj] at hgeti
    omega
  · have hpair := List.pairwise_iff_getElem.mp h.pairwise _ _ hj' hi' hidx
    rw [hgeti, hgetj] at hpair
    exact (Nat.lt_asymm hlt (hpair ⟨name, hname⟩)).elim

namespace Token

variable {ts ordered : List Token} {t : Token}

/-- The kinds as tokens whose places are their positions in the list. -/
def numbered (ks : List Kind) : List Token := ks.zipIdx.map fun e => ⟨e.1, e.2, e.2⟩

theorem map_kind_numbered (ks : List Kind) : (numbered ks).map kind = ks := by
  rw [numbered, List.map_map]
  exact List.zipIdx_map_fst 0 ks

theorem getElem?_of_mem_numbered (h : t ∈ numbered ks) : ks[t.span.start]? = some t.kind := by
  obtain ⟨e, he, rfl⟩ := List.mem_map.mp h
  exact List.mem_zipIdx_iff_getElem?.mp he

theorem map_start_numbered (ks : List Kind) : (numbered ks).map (·.span.start) = List.range ks.length := by
  rw [numbered, List.map_map, List.range_eq_range']
  exact List.zipIdx_map_snd 0 ks

theorem pairwise_numbered (ks : List Kind) : (numbered ks).Pairwise (·.span.start < ·.span.start) := by
  rw [← List.pairwise_map, map_start_numbered]
  exact List.pairwise_lt_range

theorem map_start_withoutParens_numbered (ks : List Kind) : (withoutParens (numbered ks)).map (·.span.start) =
    (List.range ks.length).filter fun i => ks[i]?.any (!·.isParen) := by
  rw [← map_start_numbered, List.filter_map, withoutParens]
  congr 1
  refine List.filter_congr fun t ht => ?_
  simp [getElem?_of_mem_numbered ht]

theorem getElem?_numbered (h : t ∈ numbered ks) : (numbered ks)[t.span.start]? = some t := by
  obtain ⟨e, he, rfl⟩ := List.mem_map.mp h
  have hkind : ks[e.2]? = some e.1 := List.mem_zipIdx_iff_getElem?.mp he
  simp [numbered, hkind]

/-- Any tokens are the numbered ones at other places. -/
theorem exists_place_numbered (ts : List Token) : ∃ g, (numbered (ts.map kind)).map (place g) = ts := by
  refine ⟨fun i => (ts[i]?.map span).getD ⟨0, 0⟩, List.ext_getElem? fun i => ?_⟩
  rw [numbered, List.map_map, List.getElem?_map, List.getElem?_zipIdx, List.getElem?_map]
  cases h : ts[i]? with
  | none => rfl
  | some t => simp [place, h]

end Token

/-! ## Nothing is emitted ahead of an earlier variable -/

namespace Pending

variable {stack stack' : List Pending} {t : Token} {ts : List Token} {moves : List Move}

theorem Steps.filter_isVariable (h : Steps stack ts moves stack') :
    (moves.map Move.token).filter Token.isVariable = ts.filter Token.isVariable := by
  rw [← List.filterMap_eq_filter]
  exact h.filterMap_token fun t ht => by simp [Token.isVariable, ht]

theorem not_isVariable_emit {cause : Cause} {popped : List Pending} :
    ∀ t ∈ (Move.emit cause popped).map Move.token, t.isVariable = false := by
  intro t ht
  rw [Move.emit, List.map_map] at ht
  obtain ⟨p, _, rfl⟩ := List.mem_map.mp ht
  cases p <;> rfl

theorem pairwise_of_not_isVariable {emitted : List Token} (h : ∀ t ∈ emitted, t.isVariable = false) :
    emitted.Pairwise fun a b => b.isVariable → a.span.start < b.span.start := by
  refine List.pairwise_of_forall_mem_list fun a _ b hb hvar => ?_
  rw [h b hb] at hvar
  cases hvar

theorem Takes.pairwise (h : Takes stack t moves stack') :
    (moves.map Move.token).Pairwise fun a b => b.isVariable → a.span.start < b.span.start := by
  cases h with
  | var _ _ => exact List.pairwise_singleton _ _
  | leftParen _ _ | not _ _ => exact .nil
  | rightParen _ _ _ _ | connective _ _ _ => exact pairwise_of_not_isVariable not_isVariable_emit

/-- If the starts of the tokens grow, a variable starts behind all tokens that are emitted before it. -/
theorem Steps.pairwise (h : Steps stack ts moves stack') (hts : ts.Pairwise (·.span.start < ·.span.start))
    (hstack : ∀ p ∈ emittable stack, ∀ t ∈ ts, p.span.start < t.span.start) :
    (moves.map Move.token).Pairwise fun a b => b.isVariable → a.span.start < b.span.start := by
  induction h with
  | nil _ => exact .nil
  | @cons stack stack' stack'' t ts moves moves' hstep hrest ih =>
      have htakes := step_eq_ok_iff.mp hstep
      obtain ⟨ht, hts⟩ := List.pairwise_cons.mp hts
      -- What is emitted or waits after the step waited before it or is the token itself.
      have hearlier : ∀ p ∈ moves.map Move.token ++ emittable stack', ∀ t' ∈ ts, p.span.start < t'.span.start := by
        intro p hp t' ht'
        rcases List.mem_append.mp (htakes.perm.mem_iff.mp hp) with hp | hp
        · exact hstack p hp t' (List.mem_cons_of_mem _ ht')
        · obtain rfl := List.mem_singleton.mp (List.mem_filter.mp hp).1
          exact ht t' ht'
      rw [List.map_append, List.pairwise_append]
      refine ⟨htakes.pairwise, ih hts fun p hp => hearlier p (List.mem_append_right _ hp), ?_⟩
      intro a ha b hb hvar
      have hmem : b ∈ ts.filter Token.isVariable := by
        rw [← hrest.filter_isVariable]
        exact List.mem_filter.mpr ⟨hb, hvar⟩
      exact hearlier a (List.mem_append_left _ ha) b (List.mem_filter.mp hmem).1

end Pending

namespace Token

variable {ts ordered : List Token} {ks : List Kind}

theorem filter_isVariable_of_reorder (h : (reorder ts).result = .ok ordered) :
    ordered.filter isVariable = ts.filter isVariable := by
  obtain ⟨moves, top, hsteps, _, rfl⟩ := result_reorder_eq_ok_iff.mp h
  have htop : ((Move.emit .drained top).map Move.token).filter isVariable = [] :=
    List.filter_eq_nil_iff.mpr fun t ht => by simp [Pending.not_isVariable_emit t ht]
  rw [List.map_append, List.filter_append, hsteps.filter_isVariable, htop, List.append_nil]

theorem pairwise_of_reorder (h : (reorder ts).result = .ok ordered)
    (hts : ts.Pairwise (·.span.start < ·.span.start)) :
    ordered.Pairwise fun a b => b.isVariable → a.span.start < b.span.start := by
  obtain ⟨moves, top, hsteps, _, rfl⟩ := result_reorder_eq_ok_iff.mp h
  have hempty : ∀ p ∈ Pending.emittable [], ∀ t ∈ ts, p.span.start < t.span.start := by
    simp [Pending.emittable, withoutParens]
  rw [List.map_append, List.pairwise_append]
  refine ⟨hsteps.pairwise hts hempty, Pending.pairwise_of_not_isVariable Pending.not_isVariable_emit, ?_⟩
  intro a _ b hb hvar
  rw [Pending.not_isVariable_emit b hb] at hvar
  cases hvar

theorem isEmission_of_numbered (h : (reorder (numbered ks)).result = .ok ordered) :
    IsEmission ks (ordered.map (·.span.start)) where
  perm := by
    rw [← map_start_withoutParens_numbered]
    exact (perm_of_reorder h).map _
  pairwise := by
    rw [List.pairwise_map]
    refine (pairwise_of_reorder h (pairwise_numbered ks)).imp_of_mem fun {a b} _ hb hlt hvar => hlt ?_
    obtain ⟨name, hname⟩ := hvar
    have hmem : b ∈ numbered ks := ((mem_of_reorder_iff h).mp hb).1
    rw [getElem?_of_mem_numbered hmem] at hname
    rw [isVariable, Option.some.inj hname]
    rfl

/-- All lists with the same balanced kinds are put into postorder by the same positions. -/
theorem exists_positions (h : Balanced ks) : ∃ positions, IsEmission ks positions ∧
    ∀ ts : List Token, ts.map kind = ks → ∃ ordered, (reorder ts).result = .ok ordered ∧
      positions.map (ts[·]?) = ordered.map some := by
  obtain ⟨numbers, hnumbers⟩ : ∃ numbers, (reorder (numbered ks)).result = .ok numbers :=
    exists_ordered_of_balanced (by rwa [map_kind_numbered])
  refine ⟨_, isEmission_of_numbered hnumbers, ?_⟩
  rintro ts rfl
  obtain ⟨g, hg⟩ := exists_place_numbered ts
  have hordered := result_reorder_place hnumbers g
  rw [hg] at hordered
  refine ⟨_, hordered, ?_⟩
  rw [List.map_map, List.map_map]
  refine List.map_congr_left fun t ht => ?_
  have hmem : t ∈ numbered (ts.map kind) := ((mem_of_reorder_iff hnumbers).mp ht).1
  have hget := congrArg (Option.map (place g)) (getElem?_numbered hmem)
  rwa [← List.getElem?_map, hg] at hget

theorem count_of_reorder (h : (reorder ts).result = .ok ordered) (t : Token) :
    ordered.count t = if t.kind.isParen then 0 else ts.count t := by
  rw [(perm_of_reorder h).count_eq, withoutParens]
  split
  case isTrue ht => exact List.count_eq_zero.mpr fun hmem => by simp [ht] at hmem
  case isFalse ht => exact List.count_filter (by simpa using ht)

/-- Putting tokens into postorder drops the parentheses and keeps every other token, with its span, as often as it
occurs. The variables keep their order, and each of them comes before the operators that stand behind it: this is told
by the positions of the list in the order in which their tokens are emitted. -/
theorem reorder_emission (h : (reorder ts).result = .ok ordered) :
    ordered.Perm (withoutParens ts) ∧ (∀ t, ordered.count t = if t.kind.isParen then 0 else ts.count t) ∧
      ordered.filter isVariable = ts.filter isVariable ∧
      ∃ positions, IsEmission (ts.map kind) positions ∧ positions.map (ts[·]?) = ordered.map some ∧
        ∀ i j, IsVariableAt (ts.map kind) i → IsOperatorAt (ts.map kind) j → i < j →
          positions.idxOf i < positions.idxOf j := by
  obtain ⟨positions, hpositions, hall⟩ := exists_positions (balanced_of_ordered h)
  obtain ⟨ordered', hordered, htokens⟩ := hall ts rfl
  obtain rfl : ordered' = ordered := by
    rw [h] at hordered
    exact (Except.ok.inj hordered).symm
  exact ⟨perm_of_reorder h, count_of_reorder h, filter_isVariable_of_reorder h, positions, hpositions, htokens,
    fun i j hi hj hlt => hpositions.idxOf_lt hi hj hlt⟩

/-- The tokens of `a AND NOT (a OR )b`, where the same token stands at two positions and no formula is written. -/
theorem reorder_emission_repeated :
    let a : Token := .startingAt (.var "a") 0
    let and : Token := .startingAt (.operator (.binary .and)) 2
    let not : Token := .startingAt (.operator .not) 6
    let or : Token := .startingAt (.operator (.binary .or)) 13
    let b : Token := .startingAt (.var "b") 17
    let ts : List Token := [a, and, not, .startingAt .leftParen 10, a, or, .startingAt .rightParen 16, b]
    let ordered : List Token := [a, a, or, b, not, and]
    (reorder ts).result = .ok ordered ∧
      ordered.Perm (withoutParens ts) ∧ (∀ t, ordered.count t = if t.kind.isParen then 0 else ts.count t) ∧
      ordered.filter isVariable = ts.filter isVariable ∧
      ∃ positions, IsEmission (ts.map kind) positions ∧ positions.map (ts[·]?) = ordered.map some ∧
        ∀ i j, IsVariableAt (ts.map kind) i → IsOperatorAt (ts.map kind) j → i < j →
          positions.idxOf i < positions.idxOf j := by
  intro a and not or b ts ordered
  have h : (reorder ts).result = .ok ordered := rfl
  exact ⟨h, reorder_emission h⟩

end Token

end Propositional
