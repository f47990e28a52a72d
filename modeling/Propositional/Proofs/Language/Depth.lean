import Propositional.Proofs.Language.Spacing

/-!
# The depth of a list

How many operands are finished at a place in a list is told by the variables and connectives in front of it, without the
operands themselves. Building a formula from a list fails at the first kind that does not find its operands by this
count, and otherwise the count at the end decides (`Formula.ofPostorder_outcome`).

Reordering keeps both counts, so they say much about a text whose parentheses are balanced, whatever it is made of
(`Formula.read_of_balanced`).
-/

namespace Propositional

namespace Kind

def isVariable : Kind → Bool
  | .var _ => true
  | _ => false

def isConnective : Kind → Bool
  | .operator (.binary _) => true
  | _ => false

theorem isVariable_of_isParen {k : Kind} (h : k.isParen = true) : k.isVariable = false := by
  cases k with
  | leftParen | rightParen => rfl
  | var _ | operator _ => cases h

theorem isConnective_of_isParen {k : Kind} (h : k.isParen = true) : k.isConnective = false := by
  cases k with
  | leftParen | rightParen => rfl
  | var _ | operator _ => cases h

/-- The kind cannot come when so many operands are finished: an operator lacks operands, and a parenthesis can never
come. -/
def Misplaced (finished : Int) : Kind → Prop
  | .var _ => False
  | .operator .not => finished = 0
  | .operator (.binary _) => finished < 2
  | .leftParen | .rightParen => True

/-- What is reported when the kind is misplaced. -/
def fault (k : Kind) : ShapeError := if k.isParen then .unexpectedToken k else .missingOperand

theorem unexpectedToken_eq_fault_iff {k k' : Kind} : .unexpectedToken k = k'.fault ↔ k.isParen ∧ k' = k := by
  constructor
  · intro h
    cases hk' : k'.isParen with
    | false => simp [fault, hk'] at h
    | true =>
        rw [fault, if_pos hk'] at h
        cases h
        exact ⟨hk', rfl⟩
  · rintro ⟨hk, rfl⟩
    exact (if_pos hk).symm

theorem missingOperand_eq_fault_iff {k : Kind} : .missingOperand = k.fault ↔ k.isParen = false := by
  cases h : k.isParen <;> simp [fault, h]

theorem empty_ne_fault (k : Kind) : .empty ≠ k.fault := by
  cases h : k.isParen <;> simp [fault, h]

theorem danglingOperands_ne_fault (n : Nat) (k : Kind) : .danglingOperands n ≠ k.fault := by
  cases h : k.isParen <;> simp [fault, h]

end Kind

/-- The number of operands that are finished after the kinds: a variable is one more, and a connective makes one of
two. It is negative only behind a place where an operator lacks operands. -/
def depth (ks : List Kind) : Int := ks.countP Kind.isVariable - ks.countP Kind.isConnective

/-- The position holds the first kind that is misplaced behind the kinds in front of it. -/
structure IsFirstMisplaced (ks : List Kind) (i : Nat) (k : Kind) : Prop where
  holds : ks[i]? = some k
  misplaced : k.Misplaced (depth (ks.take i))
  first : ∀ j < i, ∀ k', ks[j]? = some k' → ¬k'.Misplaced (depth (ks.take j))

variable {ks : List Kind} {k k' : Kind} {i j : Nat}

theorem depth_append (ks ks' : List Kind) : depth (ks ++ ks') = depth ks + depth ks' := by
  rw [depth, depth, depth, List.countP_append, List.countP_append]
  omega

theorem depth_cons (k : Kind) (ks : List Kind) : depth (k :: ks) = depth [k] + depth ks := depth_append [k] ks

theorem IsFirstMisplaced.unique (h : IsFirstMisplaced ks i k) (h' : IsFirstMisplaced ks j k') : k = k' := by
  rcases Nat.lt_trichotomy i j with hlt | rfl | hlt
  · exact (h'.first i hlt k h.holds h.misplaced).elim
  · exact Option.some.inj (h.holds.symm.trans h'.holds)
  · exact (h.first j hlt k' h'.holds h'.misplaced).elim

namespace Formula

variable {stack stack' between : List (Formula String)} {e : ShapeError} {f : Formula String}

/-! ## One kind -/

theorem length_push (h : push stack k = .ok stack') : (stack'.length : Int) = stack.length + depth [k] := by
  cases k with
  | var name => cases h; rfl
  | leftParen | rightParen => cases h
  | operator op =>
      cases op with
      | not =>
          cases stack with
          | nil => cases h
          | cons f below =>
              cases h
              exact (Int.add_zero _).symm
      | binary c =>
          obtain ⟨l, r, below, rfl, rfl⟩ := push_binary_eq_ok_iff.mp h
          have hdepth : depth [.operator (.binary c)] = -1 := rfl
          rw [hdepth, List.length_cons, List.length_cons, List.length_cons]
          omega

/-- A kind is refused exactly where the number of finished operands says so. -/
theorem push_eq_error_iff : push stack k = .error e ↔ k.Misplaced stack.length ∧ e = k.fault := by
  cases k with
  | var name => simp [push, Kind.Misplaced]
  | leftParen | rightParen => simp [push, Kind.Misplaced, Kind.fault, Kind.isParen, eq_comm]
  | operator op =>
      cases op with
      | not =>
          cases stack with
          | nil => simp [push, Kind.Misplaced, Kind.fault, Kind.isParen, eq_comm]
          | cons f below =>
              have hplaced : ¬Kind.Misplaced (f :: below).length (.operator .not) := by
                rw [Kind.Misplaced, List.length_cons]
                omega
              exact iff_of_false (by simp [push]) fun h => hplaced h.1
      | binary c =>
          rcases stack with _ | ⟨r, _ | ⟨l, below⟩⟩
          · simp [push, Kind.Misplaced, Kind.fault, Kind.isParen, eq_comm]
          · simp [push, Kind.Misplaced, Kind.fault, Kind.isParen, eq_comm]
          · have hplaced : ¬Kind.Misplaced (r :: l :: below).length (.operator (.binary c)) := by
              rw [Kind.Misplaced, List.length_cons, List.length_cons]
              omega
            exact iff_of_false (by simp [push]) fun h => hplaced h.1

/-! ## All kinds -/

theorem Builds.length_eq (h : Builds stack ks stack') : (stack'.length : Int) = stack.length + depth ks := by
  induction ks generalizing stack with
  | nil =>
      rw [builds_nil_iff.mp h]
      exact (Int.add_zero _).symm
  | cons k ks ih =>
      obtain ⟨between, hk, hks⟩ := builds_cons_iff.mp h
      rw [ih hks, length_push hk, depth_cons k ks, Int.add_assoc]

theorem Builds.not_misplaced (h : Builds [] ks stack) (hk : ks[i]? = some k) : ¬k.Misplaced (depth (ks.take i)) := by
  -- There are as many operands in front of the kind as the depth says, so a misplaced kind would have been refused.
  obtain ⟨hlt, rfl⟩ := List.getElem?_eq_some_iff.mp hk
  rw [← List.take_append_drop i ks, List.drop_eq_getElem_cons hlt] at h
  obtain ⟨between, hbefore, hbehind⟩ := builds_append_iff.mp h
  obtain ⟨next, hpush, _⟩ := builds_cons_iff.mp hbehind
  have hlength : (between.length : Int) = depth (ks.take i) := by simpa using hbefore.length_eq
  intro hmis
  rw [← hlength] at hmis
  rw [push_eq_error_iff.mpr ⟨hmis, rfl⟩] at hpush
  cases hpush

/-- Either all kinds are taken, or those in front of one are, and this one is refused. -/
theorem builds_or_fails (stack : List (Formula String)) (ks : List Kind) : (∃ stack', Builds stack ks stack') ∨
    ∃ before k behind between, ks = before ++ k :: behind ∧ Builds stack before between ∧
      k.Misplaced between.length ∧ ks.foldlM push stack = .error k.fault := by
  induction ks generalizing stack with
  | nil => exact .inl ⟨stack, .nil stack⟩
  | cons k ks ih =>
      cases hpush : push stack k with
      | error e =>
          obtain ⟨hmis, rfl⟩ := push_eq_error_iff.mp hpush
          refine .inr ⟨[], k, ks, stack, rfl, .nil stack, hmis, ?_⟩
          rw [List.foldlM_cons, hpush]
          rfl
      | ok next =>
          rcases ih next with ⟨stack', hb⟩ | ⟨before, k', behind, between, rfl, hb, hmis, hfails⟩
          · exact .inl ⟨stack', builds_cons_iff.mpr ⟨next, hpush, hb⟩⟩
          · have hbefore := builds_cons_iff.mpr ⟨next, hpush, hb⟩
            refine .inr ⟨k :: before, k', behind, between, rfl, hbefore, hmis, ?_⟩
            rw [List.foldlM_cons, hpush]
            exact hfails

theorem Builds.isFirstMisplaced (h : Builds [] ks between) (hk : k.Misplaced between.length) (behind : List Kind) :
    IsFirstMisplaced (ks ++ k :: behind) ks.length k where
  holds := by simp
  misplaced := by
    have hlength : (between.length : Int) = depth ks := by simpa using h.length_eq
    rwa [List.take_left, ← hlength]
  first j hj k' hk' := by
    rw [List.getElem?_append_left hj] at hk'
    rw [List.take_append_of_le_length (Nat.le_of_lt hj)]
    exact h.not_misplaced hk'

/-- A list is taken up to its first misplaced kind, or to its end if there is none. -/
theorem ofPostorder_cases (ks : List Kind) :
    (∃ stack, Builds [] ks stack ∧ (stack.length : Int) = depth ks ∧ ofPostorder ks = finish stack ∧
      ∀ i k, ¬IsFirstMisplaced ks i k) ∨
    ∃ i k, IsFirstMisplaced ks i k ∧ ofPostorder ks = .error k.fault := by
  rcases builds_or_fails [] ks with ⟨stack, hb⟩ | ⟨before, k, behind, between, rfl, hb, hmis, hfails⟩
  · refine .inl ⟨stack, hb, by simpa using hb.length_eq, ?_, fun i k h => hb.not_misplaced h.holds h.misplaced⟩
    rw [ofPostorder, hb]
    rfl
  · refine .inr ⟨before.length, k, hb.isFirstMisplaced hmis behind, ?_⟩
    rw [ofPostorder, hfails]
    rfl

theorem builds_postorder (stack : List (Formula String)) (f : Formula String) :
    Builds stack f.postorder (f :: stack) := by
  induction f generalizing stack with
  | var name => rfl
  | not f ih => exact builds_append_iff.mpr ⟨f :: stack, ih stack, rfl⟩
  | binary c l r ihl ihr =>
      have hoperands : Builds stack (l.postorder ++ r.postorder) (r :: l :: stack) :=
        builds_append_iff.mpr ⟨l :: stack, ihl stack, ihr (l :: stack)⟩
      exact builds_append_iff.mpr ⟨r :: l :: stack, hoperands, rfl⟩

theorem depth_postorder (f : Formula String) : depth f.postorder = 1 := by
  have hlength := (builds_postorder [] f).length_eq
  rw [List.length_singleton, List.length_nil] at hlength
  omega

/-! ## The outcome -/

theorem finish_eq_error_iff : finish stack = .error e ↔
    stack = [] ∧ e = .empty ∨ 2 ≤ stack.length ∧ e = .danglingOperands stack.length := by
  match stack with
  | [] => simp [finish, eq_comm]
  | [_] => simp [finish]
  | _ :: _ :: _ => simp [finish, eq_comm]

theorem Builds.eq_nil_iff (h : Builds [] ks stack) : stack = [] ↔ ks = [] := by
  constructor
  · rintro rfl
    exact List.self_eq_append_right.mp h.listing_eq
  · rintro rfl
    exact (builds_nil_iff.mp h).symm

theorem ofPostorder_eq_error_iff : ofPostorder ks = .error e ↔
    (∃ i k, IsFirstMisplaced ks i k ∧ e = k.fault) ∨
    ks = [] ∧ e = .empty ∨
    (∀ i k, ¬IsFirstMisplaced ks i k) ∧ ∃ n : Nat, depth ks = n ∧ 2 ≤ n ∧ e = .danglingOperands n := by
  rcases ofPostorder_cases ks with ⟨stack, hb, hlength, heq, hnone⟩ | ⟨i, k, hfirst, heq⟩
  · rw [heq, finish_eq_error_iff, hb.eq_nil_iff, ← hlength]
    constructor
    · rintro (hempty | ⟨htwo, rfl⟩)
      · exact .inr (.inl hempty)
      · exact .inr (.inr ⟨hnone, stack.length, rfl, htwo, rfl⟩)
    · rintro (⟨i, k, hfirst, _⟩ | hempty | ⟨_, n, hn, htwo, rfl⟩)
      · exact (hnone i k hfirst).elim
      · exact .inl hempty
      · obtain rfl := Int.ofNat.inj hn
        exact .inr ⟨htwo, rfl⟩
  · rw [heq]
    constructor
    · intro h
      exact .inl ⟨i, k, hfirst, (Except.error.inj h).symm⟩
    · rintro (⟨j, k', hfirst', rfl⟩ | ⟨rfl, _⟩ | ⟨hnone, _⟩)
      · rw [hfirst.unique hfirst']
      · cases hfirst.holds
      · exact (hnone i k hfirst).elim

theorem ofPostorder_eq_ok_iff_postorder_eq : ofPostorder ks = .ok f ↔ f.postorder = ks := by
  constructor
  · exact postorder_of_ofPostorder
  · rintro rfl
    exact ofPostorder_eq_ok_iff.mpr (builds_postorder [] f)

theorem ofPostorder_eq_unexpectedToken_iff :
    ofPostorder ks = .error (.unexpectedToken k) ↔ (∃ i, IsFirstMisplaced ks i k) ∧ k.isParen := by
  simp [ofPostorder_eq_error_iff, Kind.unexpectedToken_eq_fault_iff]

theorem ofPostorder_eq_missingOperand_iff :
    ofPostorder ks = .error .missingOperand ↔ ∃ i k, IsFirstMisplaced ks i k ∧ k.isParen = false := by
  simp [ofPostorder_eq_error_iff, Kind.missingOperand_eq_fault_iff]

theorem ofPostorder_eq_empty_iff : ofPostorder ks = .error .empty ↔ ks = [] := by
  simp [ofPostorder_eq_error_iff, Kind.empty_ne_fault]

theorem ofPostorder_eq_danglingOperands_iff {n : Nat} : ofPostorder ks = .error (.danglingOperands n) ↔
    (∀ i k, ¬IsFirstMisplaced ks i k) ∧ depth ks = n ∧ 2 ≤ n := by
  simp [ofPostorder_eq_error_iff, Kind.danglingOperands_ne_fault]

/-- A formula is built from its postorder and from no other list. Another list is refused for the first kind that is
misplaced, a parenthesis or an operator without its operands; if there is none, then for having no kinds or for the
number of operands that are left at the end. -/
theorem ofPostorder_outcome (ks : List Kind) :
    (∀ f, ofPostorder ks = .ok f ↔ f.postorder = ks) ∧
    (∀ k, ofPostorder ks = .error (.unexpectedToken k) ↔ (∃ i, IsFirstMisplaced ks i k) ∧ k.isParen) ∧
    (ofPostorder ks = .error .missingOperand ↔ ∃ i k, IsFirstMisplaced ks i k ∧ k.isParen = false) ∧
    (ofPostorder ks = .error .empty ↔ ks = []) ∧
    ∀ n : Nat, ofPostorder ks = .error (.danglingOperands n) ↔
      (∀ i k, ¬IsFirstMisplaced ks i k) ∧ depth ks = n ∧ 2 ≤ n :=
  ⟨fun _ => ofPostorder_eq_ok_iff_postorder_eq, fun _ => ofPostorder_eq_unexpectedToken_iff,
    ofPostorder_eq_missingOperand_iff, ofPostorder_eq_empty_iff, fun _ => ofPostorder_eq_danglingOperands_iff⟩

/-- The connective finds one operand only, and the parenthesis behind it is not reached. -/
example : ofPostorder [.var "a", .operator .not, .operator (.binary .and), .rightParen] = .error .missingOperand := rfl

end Formula

/-! ## Texts with balanced parentheses -/

namespace Token

variable {ts ordered : List Token}

theorem countP_of_reorder {p : Kind → Bool} (h : (reorder ts).result = .ok ordered)
    (hp : ∀ k, k.isParen = true → p k = false) : (ordered.map kind).countP p = (ts.map kind).countP p := by
  rw [((perm_of_reorder h).map kind).countP_eq, map_kind_withoutParens, List.countP_filter]
  refine List.countP_congr fun k _ => ?_
  cases hparen : k.isParen with
  | false => simp
  | true => simp [hp k hparen]

/-- Reordering changes the depth on the way, but not at the end. -/
theorem depth_of_reorder (h : (reorder ts).result = .ok ordered) : depth (ordered.map kind) = depth (ts.map kind) := by
  rw [depth, depth, countP_of_reorder h fun _ => Kind.isVariable_of_isParen,
    countP_of_reorder h fun _ => Kind.isConnective_of_isParen]

theorem not_isParen_of_reorder (h : (reorder ts).result = .ok ordered) :
    ∀ k ∈ ordered.map kind, k.isParen = false := by
  intro k hk
  obtain ⟨t, ht, rfl⟩ := List.mem_map.mp hk
  exact ((mem_of_reorder_iff h).mp ht).2

theorem ordered_eq_nil_iff (h : (reorder ts).result = .ok ordered) :
    ordered.map kind = [] ↔ ∀ t ∈ ts, t.kind.isParen := by
  rw [List.map_eq_nil_iff, List.eq_nil_iff_forall_not_mem]
  simp [mem_of_reorder_iff h]

end Token

namespace Formula

variable {text : String} {ts : List Token}

theorem ofPostorder_ne_unexpectedToken (hks : ∀ k ∈ ks, k.isParen = false) (k : Kind) :
    ofPostorder ks ≠ .error (.unexpectedToken k) := by
  intro h
  obtain ⟨⟨i, hfirst⟩, hparen⟩ := ofPostorder_eq_unexpectedToken_iff.mp h
  rw [hks k (List.mem_of_getElem? hfirst.holds)] at hparen
  cases hparen

/-- What a list without parentheses can end in. -/
theorem ofPostorder_cases_of_not_isParen (hks : ∀ k ∈ ks, k.isParen = false) :
    (∃ f, ofPostorder ks = .ok f) ∨ ofPostorder ks = .error .empty ∨
      (∃ n, ofPostorder ks = .error (.danglingOperands n)) ∨ ofPostorder ks = .error .missingOperand := by
  cases h : ofPostorder ks with
  | ok f => exact .inl ⟨f, rfl⟩
  | error e =>
      cases e with
      | missingOperand => exact .inr (.inr (.inr rfl))
      | unexpectedToken k => exact (ofPostorder_ne_unexpectedToken hks k h).elim
      | empty => exact .inr (.inl rfl)
      | danglingOperands n => exact .inr (.inr (.inl ⟨n, rfl⟩))

theorem depth_of_ofPostorder (h : ofPostorder ks = .ok f) : depth ks = 1 := by
  rw [← postorder_of_ofPostorder h, depth_postorder]

/-- Where there are as many connectives as variables, no operand can be left. -/
theorem ofPostorder_of_depth_le (hks : ∀ k ∈ ks, k.isParen = false) (hne : ks ≠ []) (hdepth : depth ks ≤ 0) :
    ofPostorder ks = .error .missingOperand := by
  rcases ofPostorder_cases_of_not_isParen hks with ⟨f, h⟩ | h | ⟨n, h⟩ | h
  · have hone := depth_of_ofPostorder h
    omega
  · exact (hne (ofPostorder_eq_empty_iff.mp h)).elim
  · obtain ⟨_, hn, htwo⟩ := ofPostorder_eq_danglingOperands_iff.mp h
    omega
  · exact h

theorem result_read_of_balanced (hts : (Token.scan text).result = .ok ts) (hb : Balanced (ts.map Token.kind)) :
    ∃ ordered, (Token.reorder ts).result = .ok ordered ∧
      (∀ f, (read text).result = .ok f ↔ ofPostorder (ordered.map Token.kind) = .ok f) ∧
      ∀ e, (read text).result = .error (.shape e) ↔ ofPostorder (ordered.map Token.kind) = .error e := by
  obtain ⟨ordered, hordered⟩ := Token.exists_ordered_of_balanced hb
  have hread : (read text).result = (ofPostorder (ordered.map Token.kind)).mapError .shape := by
    rw [result_read_of_scan hts, ofTokens, hordered]
    rfl
  refine ⟨ordered, hordered, ?_⟩
  rw [hread]
  cases ofPostorder (ordered.map Token.kind) <;> simp [Except.mapError]

/-- A text with balanced parentheses is refused as empty exactly if it holds nothing else. Otherwise its variables and
connectives are counted, wherever they stand: a formula has one variable more than connectives, operands are left over
only if there are more variables still, and in all other cases an operator lacks an operand. -/
theorem read_of_balanced (hts : (Token.scan text).result = .ok ts) (hb : Balanced (ts.map Token.kind)) :
    let vars := (ts.map Token.kind).countP Kind.isVariable
    let connectives := (ts.map Token.kind).countP Kind.isConnective
    (∀ k, (read text).result ≠ .error (.shape (.unexpectedToken k))) ∧
    ((read text).result = .error (.shape .empty) ↔ ∀ t ∈ ts, t.kind.isParen) ∧
    (∀ f, (read text).result = .ok f → vars = connectives + 1) ∧
    (∀ n, (read text).result = .error (.shape (.danglingOperands n)) → vars = connectives + n ∧ 2 ≤ n) ∧
    ((∃ f, (read text).result = .ok f) ∨ (read text).result = .error (.shape .empty) ∨
      (∃ n, (read text).result = .error (.shape (.danglingOperands n))) ∨
      (read text).result = .error (.shape .missingOperand)) ∧
    (vars ≤ connectives → (∃ t ∈ ts, t.kind.isParen = false) →
      (read text).result = .error (.shape .missingOperand)) := by
  intro vars connectives
  -- The ordered kinds have no parentheses and the same counts, and only these decide the outcome.
  obtain ⟨ordered, hordered, hok, herror⟩ := result_read_of_balanced hts hb
  have hks := Token.not_isParen_of_reorder hordered
  have hdepth : depth (ordered.map Token.kind) = (vars : Int) - connectives := Token.depth_of_reorder hordered
  simp only [ne_eq, hok, herror]
  refine ⟨ofPostorder_ne_unexpectedToken hks, ?_, fun f h => ?_, fun n h => ?_,
    ofPostorder_cases_of_not_isParen hks, fun hle hne => ?_⟩
  · rw [ofPostorder_eq_empty_iff, Token.ordered_eq_nil_iff hordered]
  · have hone := depth_of_ofPostorder h
    omega
  · obtain ⟨_, hn, htwo⟩ := ofPostorder_eq_danglingOperands_iff.mp h
    omega
  · refine ofPostorder_of_depth_le hks ((Token.ordered_eq_nil_iff hordered).not.mpr ?_) (by omega)
    simpa using hne

/-- The conjunction in `(a AND ) -> b` has its right operand outside the parentheses, and does not get it. -/
theorem read_of_balanced_outside :
    let text := "(a AND ) -> b"
    let ts : List Token := [.startingAt .leftParen 0, .startingAt (.var "a") 1,
      .startingAt (.operator (.binary .and)) 3, .startingAt .rightParen 7,
      .startingAt (.operator (.binary .implies)) 9, .startingAt (.var "b") 12]
    (Token.scan text).result = .ok ts ∧ Balanced (ts.map Token.kind) ∧
      (∀ k, (read text).result ≠ .error (.shape (.unexpectedToken k))) ∧
      ((read text).result = .error (.shape .empty) ↔ ∀ t ∈ ts, t.kind.isParen) ∧
      (∀ f, (read text).result = .ok f → 2 = 2 + 1) ∧
      (∀ n, (read text).result = .error (.shape (.danglingOperands n)) → 2 = 2 + n ∧ 2 ≤ n) ∧
      ((∃ f, (read text).result = .ok f) ∨ (read text).result = .error (.shape .empty) ∨
        (∃ n, (read text).result = .error (.shape (.danglingOperands n))) ∨
        (read text).result = .error (.shape .missingOperand)) ∧
      (read text).result = .error (.shape .missingOperand) := by
  intro text ts
  have hts : (Token.scan text).result = .ok ts := by decide +kernel
  have hordered : (Token.reorder ts).result = .ok [.startingAt (.var "a") 1,
      .startingAt (.operator (.binary .and)) 3, .startingAt (.var "b") 12,
      .startingAt (.operator (.binary .implies)) 9] := rfl
  have hb : Balanced (ts.map Token.kind) := Token.balanced_of_ordered hordered
  obtain ⟨hunexpected, hempty, hok, hdangling, hcases, hmissing⟩ := read_of_balanced hts hb
  exact ⟨hts, hb, hunexpected, hempty, hok, hdangling, hcases, hmissing (by decide) (by decide)⟩

end Formula

end Propositional
