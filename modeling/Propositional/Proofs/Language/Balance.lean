import Mathlib.Data.List.Induction
import Propositional.Proofs.Language.Stacks

/-!
# Balanced parentheses

Whether tokens can be put into postorder, and which parenthesis is reported otherwise, depends on the parentheses
alone (`Token.reorder_parentheses`). On the stack of pending operators the parentheses are those that are open, the
last one on top, whatever operators wait between them (`Pending.exists_takes`). Therefore the first right parenthesis
without a partner is found when the stack holds no parenthesis, and after the last token the last left one without a
partner is found first.
-/

namespace Propositional

/-! ## Parentheses in a list of kinds -/

/-- There are more right parentheses than left ones. -/
def Overclosed (ks : List Kind) : Prop := ks.count .leftParen < ks.count .rightParen

/-- No beginning of the list has more right parentheses than left ones, and the whole list has as many of both. -/
structure Balanced (ks : List Kind) : Prop where
  not_overclosed : ∀ n, ¬Overclosed (ks.take n)
  count_eq : ks.count .leftParen = ks.count .rightParen

/-- The two positions hold a left parenthesis and the right one that closes it. -/
structure Matches (ks : List Kind) (i j : Nat) : Prop where
  left : ks[i]? = some .leftParen
  right : ks[j]? = some .rightParen
  lt : i < j
  between : Balanced ((ks.take j).drop (i + 1))

/-- The position holds a left parenthesis that is never closed. -/
structure Unclosed (ks : List Kind) (i : Nat) : Prop where
  left : ks[i]? = some .leftParen
  not_matches : ∀ j, ¬Matches ks i j

/-- The position holds the first right parenthesis with which there are more right ones than left ones. -/
structure IsFirstOverclosing (ks : List Kind) (i : Nat) : Prop where
  right : ks[i]? = some .rightParen
  overclosed : Overclosed (ks.take (i + 1))
  first : ∀ n ≤ i, ¬Overclosed (ks.take n)

/-- The position holds the last left parenthesis that is never closed. -/
structure IsLastUnclosed (ks : List Kind) (i : Nat) : Prop where
  unclosed : Unclosed ks i
  last : ∀ j, Unclosed ks j → j ≤ i

variable {ks before behind : List Kind} {i j : Nat}

theorem overclosed_append : Overclosed (before ++ behind) ↔
    before.count .leftParen + behind.count .leftParen < before.count .rightParen + behind.count .rightParen := by
  rw [Overclosed, List.count_append, List.count_append]

theorem not_overclosed_nil : ¬Overclosed [] := Nat.lt_irrefl 0

/-- A balanced list is balanced from behind as well. -/
theorem Balanced.of_drop (h : ∀ n, (ks.drop n).count .leftParen ≤ (ks.drop n).count .rightParen)
    (heq : ks.count .leftParen = ks.count .rightParen) : Balanced ks := by
  refine ⟨fun n => ?_, heq⟩
  have hsplit (k : Kind) : (ks.take n).count k + (ks.drop n).count k = ks.count k := by
    rw [← List.count_append, List.take_append_drop]
  have hleft := hsplit .leftParen
  have hright := hsplit .rightParen
  have hdrop := h n
  rw [Overclosed]
  omega

/-- Only a right parenthesis makes a list close too much, and only if as many were opened as closed before it. -/
theorem eq_rightParen_of_overclosed {k : Kind} (hks : ¬Overclosed ks) (h : Overclosed (ks ++ [k])) :
    k = .rightParen ∧ ks.count .leftParen = ks.count .rightParen := by
  rw [Overclosed] at hks
  rw [overclosed_append] at h
  have hk : k = .rightParen := by
    by_contra hne
    simp [List.count_singleton, hne] at h
    omega
  subst hk
  simp at h
  exact ⟨rfl, by omega⟩

/-- Where a list closes too much, it has a balanced part in front of a right parenthesis. -/
theorem exists_right_of_overclosed (h : ∃ n, Overclosed (ks.take n)) :
    ∃ before behind, ks = before ++ [.rightParen] ++ behind ∧ Balanced before := by
  -- From the right, so that the parts in front stay the same.
  induction ks using List.reverseRecOn with
  | nil =>
      obtain ⟨n, hn⟩ := h
      simp [not_overclosed_nil] at hn
  | append_singleton ks k ih =>
      by_cases hks : ∃ n, Overclosed (ks.take n)
      · obtain ⟨before, behind, rfl, hbefore⟩ := ih hks
        exact ⟨before, behind ++ [k], by simp, hbefore⟩
      · have hks : ∀ n, ¬Overclosed (ks.take n) := not_exists.mp hks
        obtain ⟨n, hn⟩ := h
        have hlong : ks.length < n := by
          by_contra hle
          rw [List.take_append_of_le_length (Nat.le_of_not_lt hle)] at hn
          exact hks n hn
        rw [List.take_of_length_le (by rw [List.length_append]; exact hlong)] at hn
        obtain ⟨rfl, heq⟩ := eq_rightParen_of_overclosed (by simpa using hks ks.length) hn
        exact ⟨ks, [], by simp, hks, heq⟩

/-- Only a left parenthesis makes a list leave one open, and only if as many are closed as opened behind it. -/
theorem eq_leftParen_of_count_lt {k : Kind} (hks : ks.count .leftParen ≤ ks.count .rightParen)
    (h : (k :: ks).count .rightParen < (k :: ks).count .leftParen) :
    k = .leftParen ∧ ks.count .leftParen = ks.count .rightParen := by
  have hk : k = .leftParen := by
    by_contra hne
    simp [List.count_cons, hne] at h
    omega
  subst hk
  simp at h
  exact ⟨rfl, by omega⟩

/-- Where a list leaves a parenthesis open, it has a balanced part behind a left parenthesis. -/
theorem exists_left_of_count_lt (h : ∃ n, (ks.drop n).count .rightParen < (ks.drop n).count .leftParen) :
    ∃ before behind, ks = before ++ [.leftParen] ++ behind ∧ Balanced behind := by
  induction ks with
  | nil =>
      obtain ⟨n, hn⟩ := h
      simp at hn
  | cons k ks ih =>
      by_cases hks : ∃ n, (ks.drop n).count .rightParen < (ks.drop n).count .leftParen
      · obtain ⟨before, behind, rfl, hbehind⟩ := ih hks
        exact ⟨k :: before, behind, rfl, hbehind⟩
      · have hks (n : Nat) : (ks.drop n).count .leftParen ≤ (ks.drop n).count .rightParen :=
          Nat.le_of_not_lt fun hn => hks ⟨n, hn⟩
        obtain ⟨n, hn⟩ := h
        cases n with
        | zero =>
            obtain ⟨rfl, heq⟩ := eq_leftParen_of_count_lt (hks 0) hn
            exact ⟨[], ks, rfl, .of_drop hks heq⟩
        | succ n => exact (Nat.not_lt.mpr (hks n) hn).elim

/-! ## Partners -/

theorem Balanced.matches (h : Balanced ks) (before behind : List Kind) :
    Matches (before ++ [.leftParen] ++ ks ++ [.rightParen] ++ behind) before.length
      (before ++ [Kind.leftParen] ++ ks).length where
  left := by simp
  right := by
    rw [List.append_assoc, List.getElem?_append_right (Nat.le_refl _), Nat.sub_self]
    rfl
  lt := by simp only [List.length_append, List.length_singleton]; omega
  between := by
    rw [List.append_assoc _ [_] behind, List.take_left, List.drop_left' (by simp)]
    exact h

theorem Matches.append_left (h : Matches ks i j) (before : List Kind) :
    Matches (before ++ ks) (before.length + i) (before.length + j) where
  left := by rw [List.getElem?_append_right (by omega), Nat.add_sub_cancel_left, h.left]
  right := by rw [List.getElem?_append_right (by omega), Nat.add_sub_cancel_left, h.right]
  lt := Nat.add_lt_add_left h.lt _
  between := by
    rw [List.take_length_add_append, Nat.add_assoc, List.drop_length_add_append]
    exact h.between

/-- In a balanced list every left parenthesis is closed. -/
theorem Balanced.exists_matches (h : Balanced ks) (hi : ks[i]? = some .leftParen) : ∃ j, Matches ks i j := by
  obtain ⟨hlt, hk⟩ := List.getElem?_eq_some_iff.mp hi
  have hks : ks = ks.take i ++ [.leftParen] ++ ks.drop (i + 1) := by
    rw [← hk, List.append_assoc, List.singleton_append, List.getElem_cons_drop, List.take_append_drop]
  have hover : Overclosed ((ks.drop (i + 1)).take (ks.drop (i + 1)).length) := by
    have hle := h.not_overclosed i
    have heq := h.count_eq
    rw [hks, List.count_append, List.count_append, List.count_append, List.count_append] at heq
    simp at heq
    rw [Overclosed] at hle
    rw [List.take_length, Overclosed]
    omega
  obtain ⟨between, behind, hdrop, hbetween⟩ := exists_right_of_overclosed ⟨_, hover⟩
  have hmatches := hbetween.matches (ks.take i) behind
  rw [List.append_assoc, List.append_assoc, ← List.append_assoc between, ← hdrop, ← hks,
    List.length_take_of_le (Nat.le_of_lt hlt)] at hmatches
  exact ⟨_, hmatches⟩

/-- What stands behind a left parenthesis closes too much if it closes that parenthesis. -/
theorem Matches.exists_overclosed (h : Matches (before ++ [.leftParen] ++ ks) before.length j) :
    ∃ n, Overclosed (ks.take n) := by
  have hle : (before ++ [Kind.leftParen]).length ≤ j := by
    rw [List.length_append]
    exact h.lt
  obtain ⟨n, rfl⟩ := Nat.exists_eq_add_of_le hle
  have hright := h.right
  have hbetween := h.between
  rw [List.getElem?_append_right hle, Nat.add_sub_cancel_left] at hright
  rw [List.take_length_add_append, List.drop_left' (by simp)] at hbetween
  refine ⟨n + 1, ?_⟩
  have heq := hbetween.count_eq
  rw [List.take_add_one, hright, overclosed_append, heq]
  simp

/-- The first right parenthesis without a partner stands behind a balanced part. -/
theorem Balanced.isFirstOverclosing (h : Balanced ks) (behind : List Kind) :
    IsFirstOverclosing (ks ++ [.rightParen] ++ behind) ks.length where
  right := by simp
  overclosed := by
    have heq := h.count_eq
    rw [List.take_left' (by simp), overclosed_append, heq]
    simp
  first n hn := by
    rw [List.append_assoc, List.take_append_of_le_length hn]
    exact h.not_overclosed n

/-- The last left parenthesis without a partner stands in front of a balanced part. -/
theorem Balanced.isLastUnclosed (h : Balanced ks) (before : List Kind) :
    IsLastUnclosed (before ++ [.leftParen] ++ ks) before.length where
  unclosed := by
    refine ⟨by simp, fun j hj => ?_⟩
    obtain ⟨n, hn⟩ := hj.exists_overclosed
    exact h.not_overclosed n hn
  last j hj := by
    by_contra hlt
    have hle : (before ++ [Kind.leftParen]).length ≤ j := by
      rw [List.length_append]
      exact Nat.lt_of_not_le hlt
    obtain ⟨m, rfl⟩ := Nat.exists_eq_add_of_le hle
    have hleft := hj.left
    rw [List.getElem?_append_right hle, Nat.add_sub_cancel_left] at hleft
    obtain ⟨j, hmatches⟩ := h.exists_matches hleft
    exact hj.not_matches _ (hmatches.append_left _)

theorem count_lt_of_not_balanced (hover : ∀ n, ¬Overclosed (ks.take n)) (h : ¬Balanced ks) :
    ks.count .rightParen < ks.count .leftParen := by
  have hle : ¬Overclosed ks := by simpa using hover ks.length
  rw [Overclosed, Nat.not_lt] at hle
  exact Nat.lt_of_le_of_ne hle fun heq => h ⟨hover, heq.symm⟩

theorem exists_left_of_not_balanced (hover : ∀ n, ¬Overclosed (ks.take n)) (h : ¬Balanced ks) :
    ∃ before behind, ks = before ++ [.leftParen] ++ behind ∧ Balanced behind :=
  exists_left_of_count_lt ⟨0, count_lt_of_not_balanced hover h⟩

/-- In a balanced list, and in no other, every parenthesis has a partner. -/
theorem balanced_iff : Balanced ks ↔ (∀ n, ¬Overclosed (ks.take n)) ∧ ∀ i, ¬Unclosed ks i := by
  constructor
  · intro h
    refine ⟨h.not_overclosed, fun i hi => ?_⟩
    obtain ⟨j, hmatches⟩ := h.exists_matches hi.left
    exact hi.not_matches j hmatches
  · rintro ⟨hover, hunclosed⟩
    by_contra h
    obtain ⟨before, behind, rfl, hbehind⟩ := exists_left_of_not_balanced hover h
    exact hunclosed _ (hbehind.isLastUnclosed before).unclosed

theorem balanced_or_exists (ks : List Kind) : Balanced ks ∨ (∃ n, Overclosed (ks.take n)) ∨
    (∀ n, ¬Overclosed (ks.take n)) ∧ ∃ i, Unclosed ks i := by
  by_cases hover : ∃ n, Overclosed (ks.take n)
  · exact .inr (.inl hover)
  · have hnot : ∀ n, ¬Overclosed (ks.take n) := not_exists.mp hover
    by_cases hunclosed : ∃ i, Unclosed ks i
    · exact .inr (.inr ⟨hnot, hunclosed⟩)
    · exact .inl (balanced_iff.mpr ⟨hnot, not_exists.mp hunclosed⟩)

/-! ## Open parentheses on the stack -/

namespace Pending

variable {stack stack' top : List Pending} {t : Token} {ts : List Token} {moves : List Move}

/-- The spans of the open parentheses, the last one first. -/
def opens (stack : List Pending) : List Span :=
  stack.filterMap fun
    | paren span => some span
    | operator _ _ => none

theorem opens_append (stack stack' : List Pending) : opens (stack ++ stack') = opens stack ++ opens stack' :=
  List.filterMap_append

theorem opens_of_isOperator (h : ∀ p ∈ top, p.isOperator) : opens top = [] := by
  rw [opens, List.filterMap_eq_nil_iff]
  intro p hp
  cases p with
  | paren _ => cases h _ hp
  | operator _ _ => rfl

theorem isOperator_of_opens (h : opens stack = []) : ∀ p ∈ stack, p.isOperator := by
  intro p hp
  cases p with
  | paren span => cases List.filterMap_eq_nil_iff.mp h _ hp
  | operator _ _ => rfl

theorem exists_paren_of_opens {span : Span} {spans : List Span} (h : opens stack = span :: spans) :
    ∃ top below, stack = top ++ .paren span :: below ∧ (∀ p ∈ top, p.isOperator) ∧ opens below = spans := by
  obtain ⟨top, below, rfl, htop, hbelow⟩ := exists_run_append isOperator stack
  rw [opens_append, opens_of_isOperator htop, List.nil_append] at h
  cases below with
  | nil => cases h
  | cons p below =>
      cases p with
      | operator _ _ => cases hbelow _ rfl
      | paren span' =>
          obtain ⟨rfl, hspans⟩ := List.cons.inj h
          exact ⟨top, below, rfl, htop, hspans⟩

/-! ## Steps of tokens -/

theorem step_rightParen_of_opens (hk : t.kind = .rightParen) (h : opens stack = []) :
    (step stack t).2 = .error (.missingLeft t.span.start) :=
  step_rightParen_of_all hk (isOperator_of_opens h)

theorem exists_takes_rightParen {span : Span} {spans : List Span} (hk : t.kind = .rightParen)
    (h : opens stack = span :: spans) : ∃ moves stack', Takes stack t moves stack' ∧ opens stack' = spans := by
  obtain ⟨top, below, rfl, htop, hbelow⟩ := exists_paren_of_opens h
  exact ⟨_, below, .rightParen span below hk htop, hbelow⟩

/-- Operators come and go, and variables pass, without any effect on the open parentheses. -/
theorem exists_takes_of_not_isParen (stack : List Pending) (hk : t.kind.isParen = false) :
    ∃ moves stack', Takes stack t moves stack' ∧ opens stack' = opens stack := by
  cases hkind : t.kind with
  | leftParen | rightParen => simp [hkind, Kind.isParen] at hk
  | var name => exact ⟨_, stack, .var stack hkind, rfl⟩
  | operator op =>
      cases op with
      | not => exact ⟨_, _, .not stack hkind, rfl⟩
      | binary c =>
          obtain ⟨top, below, rfl, htop, hbelow⟩ := exists_run_append isTight stack
          refine ⟨_, _, .connective hkind htop hbelow, ?_⟩
          rw [opens_append, opens_of_isOperator fun p hp => isOperator_of_isTight (htop p hp)]
          rfl

/-- A token that closes no more than the inner parentheses does not touch the base below them. -/
theorem exists_takes (inner base : List Span) (hopens : opens stack = inner ++ base)
    (h : [t.kind].count .rightParen ≤ inner.length + [t.kind].count .leftParen) :
    ∃ moves stack' inner', Takes stack t moves stack' ∧ opens stack' = inner' ++ base ∧
      inner'.length + [t.kind].count .rightParen = inner.length + [t.kind].count .leftParen := by
  cases hk : t.kind with
  | leftParen => exact ⟨[], _, t.span :: inner, .leftParen stack hk, congrArg (t.span :: ·) hopens, rfl⟩
  | rightParen =>
      cases inner with
      | nil => simp [hk] at h
      | cons span inner =>
          obtain ⟨moves, stack', htakes, hopens'⟩ := exists_takes_rightParen hk hopens
          exact ⟨moves, stack', inner, htakes, hopens', rfl⟩
  | var _ | operator _ =>
      obtain ⟨moves, stack', htakes, hopens'⟩ := exists_takes_of_not_isParen stack (t := t) (by rw [hk]; rfl)
      exact ⟨moves, stack', inner, htakes, hopens'.trans hopens, rfl⟩

/-- As long as the tokens close no more than the inner parentheses and those among themselves, they are taken without a
failure, and they do not touch the base. -/
theorem exists_steps (inner base : List Span) (hopens : opens stack = inner ++ base)
    (h : ∀ n, ((ts.map Token.kind).take n).count .rightParen ≤
      inner.length + ((ts.map Token.kind).take n).count .leftParen) :
    ∃ moves stack' inner', Steps stack ts moves stack' ∧ opens stack' = inner' ++ base ∧
      inner'.length + (ts.map Token.kind).count .rightParen =
        inner.length + (ts.map Token.kind).count .leftParen := by
  induction ts generalizing stack inner with
  | nil => exact ⟨[], stack, inner, .nil stack, hopens, rfl⟩
  | cons t ts ih =>
      have hcons (k : Kind) (ks : List Kind) : (t.kind :: ks).count k = [t.kind].count k + ks.count k := by
        rw [← List.singleton_append, List.count_append]
      obtain ⟨moves, stack', inner', htakes, hopens', hcount⟩ := exists_takes inner base hopens (h 1)
      have hrest (n : Nat) : ((ts.map Token.kind).take n).count .rightParen ≤
          inner'.length + ((ts.map Token.kind).take n).count .leftParen := by
        have hn := h (n + 1)
        rw [List.map_cons, List.take_succ_cons, hcons .rightParen, hcons .leftParen] at hn
        omega
      obtain ⟨moves', stack'', inner'', hsteps, hopens'', hcount'⟩ := ih inner' hopens' hrest
      refine ⟨moves ++ moves', stack'', inner'', .cons (step_eq_ok_iff.mpr htakes) hsteps, hopens'', ?_⟩
      rw [List.map_cons, hcons .rightParen, hcons .leftParen]
      omega

theorem exists_steps_of_balanced (h : Balanced (ts.map Token.kind)) (stack : List Pending) :
    ∃ moves stack', Steps stack ts moves stack' ∧ opens stack' = opens stack := by
  have hle (n : Nat) := Nat.le_of_not_lt (h.not_overclosed n)
  obtain ⟨moves, stack', inner, hsteps, hopens, hcount⟩ :=
    exists_steps [] (opens stack) rfl (fun n => by simpa using hle n)
  have hinner : inner = [] := by
    have heq := h.count_eq
    rw [← List.length_eq_zero_iff]
    simp at hcount
    omega
  exact ⟨moves, stack', hsteps, by rw [hopens, hinner, List.nil_append]⟩

end Pending

/-! ## The outcome of a reordering -/

namespace Reordering

open Pending

variable {before behind ts : List Token} {t : Token}

theorem failure_drain (stack : List Pending) :
    (drain stack).failure = (opens stack).head?.map fun span => .missingRight span.start := by
  obtain ⟨top, below, rfl, htop, hbelow⟩ := exists_run_append isOperator stack
  rw [drain, dropWhile_run_append htop hbelow, opens_append, opens_of_isOperator htop, List.nil_append]
  cases below with
  | nil => rfl
  | cons p below =>
      cases p with
      | operator _ _ => cases hbelow _ rfl
      | paren span => rfl

theorem failure_of_balanced (h : Balanced (ts.map Token.kind)) : (run [] ts).failure = none := by
  obtain ⟨moves, stack, hsteps, hopens⟩ := exists_steps_of_balanced h []
  rw [run_of_steps hsteps, after, failure_drain, hopens]
  rfl

theorem failure_of_rightParen (hbefore : Balanced (before.map Token.kind)) (hk : t.kind = .rightParen)
    (behind : List Token) : (run [] (before ++ [t] ++ behind)).failure = some (.missingLeft t.span.start) := by
  obtain ⟨moves, stack, hsteps, hopens⟩ := exists_steps_of_balanced hbefore []
  obtain ⟨moves', r, hstep⟩ : ∃ moves r, step stack t = (moves, r) := ⟨_, _, rfl⟩
  have hfails := step_rightParen_of_opens hk hopens
  rw [hstep] at hfails
  obtain rfl : r = .error (.missingLeft t.span.start) := hfails
  rw [List.append_assoc, run_append hsteps, List.singleton_append, run, hstep]
  rfl

theorem failure_of_leftParen (hbefore : ∀ n, ¬Overclosed ((before.map Token.kind).take n)) (hk : t.kind = .leftParen)
    (hbehind : Balanced (behind.map Token.kind)) :
    (run [] (before ++ [t] ++ behind)).failure = some (.missingRight t.span.start) := by
  have hle (n : Nat) := Nat.le_of_not_lt (hbefore n)
  obtain ⟨moves, stack, _, hsteps, _, _⟩ :=
    exists_steps [] (opens []) rfl (fun n => by simpa using hle n)
  have hpush : Steps stack [t] ([] ++ []) (.paren t.span :: stack) := .cons (step_leftParen hk) (.nil _)
  obtain ⟨moves', stack', hsteps', hopens⟩ := exists_steps_of_balanced hbehind (.paren t.span :: stack)
  rw [run_of_steps ((hsteps.append hpush).append hsteps'), after, failure_drain, hopens]
  rfl

end Reordering

namespace Token

variable {ts : List Token} {ks before behind : List Kind}

theorem exists_of_map_kind {k : Kind} (h : ts.map kind = before ++ [k] ++ behind) : ∃ before' t behind',
    ts = before' ++ [t] ++ behind' ∧ before'.map kind = before ∧ t.kind = k ∧ behind'.map kind = behind := by
  obtain ⟨front, behind', rfl, hfront, hbehind⟩ := List.map_eq_append_iff.mp h
  obtain ⟨before', last, rfl, hbefore, hlast⟩ := List.map_eq_append_iff.mp hfront
  obtain ⟨t, rfl, hk⟩ := List.map_eq_singleton_iff.mp hlast
  exact ⟨before', t, behind', rfl, hbefore, hk, hbehind⟩

theorem result_reorder_of_failure {e : Unbalanced} (h : (Reordering.run [] ts).failure = some e) :
    (reorder ts).result = .error e := by
  rw [result_reorder, Reordering.result, h]

theorem exists_ordered_of_balanced (h : Balanced (ts.map kind)) : ∃ ordered, (reorder ts).result = .ok ordered := by
  rw [result_reorder, Reordering.result, Reordering.failure_of_balanced h]
  exact ⟨_, rfl⟩

theorem exists_missingLeft (h : ∃ n, Overclosed (ks.take n)) : ∃ i, IsFirstOverclosing ks i ∧
    ∀ ts : List Token, ts.map kind = ks →
      ∃ t, ts[i]? = some t ∧ (reorder ts).result = .error (.missingLeft t.span.start) := by
  obtain ⟨before, behind, rfl, hbefore⟩ := exists_right_of_overclosed h
  refine ⟨before.length, hbefore.isFirstOverclosing behind, fun ts hts => ?_⟩
  obtain ⟨before, t, behind, rfl, rfl, hk, rfl⟩ := exists_of_map_kind hts
  refine ⟨t, by simp, ?_⟩
  exact result_reorder_of_failure (Reordering.failure_of_rightParen hbefore hk behind)

theorem exists_missingRight (hover : ∀ n, ¬Overclosed (ks.take n)) (h : ∃ i, Unclosed ks i) :
    ∃ i, IsLastUnclosed ks i ∧ ∀ ts : List Token, ts.map kind = ks →
      ∃ t, ts[i]? = some t ∧ (reorder ts).result = .error (.missingRight t.span.start) := by
  obtain ⟨j, hj⟩ := h
  obtain ⟨before, behind, rfl, hbehind⟩ := exists_left_of_not_balanced hover fun h => (balanced_iff.mp h).2 j hj
  refine ⟨before.length, hbehind.isLastUnclosed before, fun ts hts => ?_⟩
  obtain ⟨before, t, behind, rfl, rfl, hk, rfl⟩ := exists_of_map_kind hts
  have hbefore (n : Nat) : ¬Overclosed ((before.map kind).take n) := by
    have hn := hover (min n (before.map kind).length)
    rwa [List.append_assoc, List.take_append_of_le_length (Nat.min_le_right _ _), ← List.take_take,
      List.take_length] at hn
  refine ⟨t, by simp, ?_⟩
  exact result_reorder_of_failure (Reordering.failure_of_leftParen hbefore hk hbehind)

theorem balanced_of_ordered {ordered : List Token} (h : (reorder ts).result = .ok ordered) :
    Balanced (ts.map kind) := by
  rcases balanced_or_exists (ts.map kind) with hb | hover | ⟨hover, hunclosed⟩
  · exact hb
  · obtain ⟨i, _, hall⟩ := exists_missingLeft hover
    obtain ⟨t, _, herror⟩ := hall ts rfl
    rw [h] at herror
    cases herror
  · obtain ⟨i, _, hall⟩ := exists_missingRight hover hunclosed
    obtain ⟨t, _, herror⟩ := hall ts rfl
    rw [h] at herror
    cases herror

/-- Tokens are put into postorder exactly if their parentheses are balanced. Otherwise the parenthesis that is reported
is the first right one that closes more than was opened, and if there is none, the last left one that is never closed;
other tokens do not matter. -/
theorem reorder_parentheses (ts : List Token) :
    ((∃ ordered, (reorder ts).result = .ok ordered) ↔ Balanced (ts.map kind)) ∧
    ((∃ n, Overclosed ((ts.map kind).take n)) → ∃ i t, IsFirstOverclosing (ts.map kind) i ∧ ts[i]? = some t ∧
      (reorder ts).result = .error (.missingLeft t.span.start)) ∧
    ((∀ n, ¬Overclosed ((ts.map kind).take n)) → (∃ i, Unclosed (ts.map kind) i) →
      ∃ i t, IsLastUnclosed (ts.map kind) i ∧ ts[i]? = some t ∧
        (reorder ts).result = .error (.missingRight t.span.start)) := by
  refine ⟨⟨?_, exists_ordered_of_balanced⟩, fun hover => ?_, fun hover hunclosed => ?_⟩
  · rintro ⟨ordered, h⟩
    exact balanced_of_ordered h
  · obtain ⟨i, hi, hall⟩ := exists_missingLeft hover
    obtain ⟨t, ht, herror⟩ := hall ts rfl
    exact ⟨i, t, hi, ht, herror⟩
  · obtain ⟨i, hi, hall⟩ := exists_missingRight hover hunclosed
    obtain ⟨t, ht, herror⟩ := hall ts rfl
    exact ⟨i, t, hi, ht, herror⟩

/-- In `(a)) b (` the second right parenthesis is reported, and the last left one is not. -/
example : (reorder [.startingAt .leftParen 0, .startingAt (.var "a") 1, .startingAt .rightParen 2,
    .startingAt .rightParen 3, .startingAt (.var "b") 5, .startingAt .leftParen 7]).result =
      .error (.missingLeft 3) := rfl

end Token

end Propositional
