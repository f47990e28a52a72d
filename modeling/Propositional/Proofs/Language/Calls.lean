import Propositional.Proofs.Language.Spelling

/-!
# Scanning call by call

A scanner that is asked for one token after the other finds what a scan of the whole text finds, in whatever order
its two kinds of calls are mixed (`Scanner.answers_follow_scan`). A look that finds no token leaves the scan from the
cursor as it was, so it can be repeated; only `next` is told by its own flag that it has reported the error.
-/

namespace Propositional

/-! ## The next token of a scan -/

/-- What is found when all tokens have been taken. -/
def Scanned.ofFailure : Option LexicalError → Scanned
  | none => .finished
  | some e => .failed e

namespace Cursor

variable {c c' : Cursor} {t : Token} {ts : List Token} {failure : Option LexicalError}

theorem skipSpaces_skipSpaces (c : Cursor) : c.skipSpaces.skipSpaces = c.skipSpaces := by
  obtain ⟨n, rest, hrest, hhead⟩ := exists_spaces c.rest
  have hskip : c.skipSpaces = ⟨c.offset + n, rest⟩ := by
    rw [← skipSpaces_spaces n hhead, ← hrest]
  rw [hskip]
  exact skipSpaces_spaces 0 hhead

/-- A look that finds no token only skips spaces, so the next look finds the same. -/
theorem next_of_next {found : Scanned} (h : c.next = (found, c')) (hfound : ∀ t, found ≠ .token t) :
    c'.next = (found, c') := by
  rw [next, take] at h
  split at h
  case h_1 t _ =>
    obtain rfl : Scanned.token t = found := congrArg Prod.fst h
    exact (hfound t rfl).elim
  case h_2 hlook =>
    cases h
    rw [next, skipSpaces_skipSpaces, take]
    split
    case h_1 t ht => exact (hlook t ht).elim
    case h_2 => rfl

theorem next_of_scan_cons (h : c.scan = ⟨t :: ts, failure⟩) :
    ∃ c', c.next = (.token t, c') ∧ c'.scan = ⟨ts, failure⟩ := by
  obtain ⟨found, c', hnext⟩ : ∃ found c', c.next = (found, c') := ⟨_, _, rfl⟩
  rw [scan_eq, hnext] at h
  cases found with
  | finished => cases h
  | failed e => cases h
  | token t' =>
      obtain ⟨htokens, rfl⟩ := Scan.mk.inj h
      obtain ⟨rfl, rfl⟩ := List.cons.inj htokens
      exact ⟨c', hnext, rfl⟩

theorem next_of_scan_nil (h : c.scan = ⟨[], failure⟩) :
    ∃ c', c.next = (.ofFailure failure, c') ∧ c'.scan = ⟨[], failure⟩ := by
  obtain ⟨found, c', hnext⟩ : ∃ found c', c.next = (found, c') := ⟨_, _, rfl⟩
  rw [scan_eq, hnext] at h
  cases found with
  | token t => cases h
  | finished =>
      cases h
      exact ⟨c', hnext, by rw [scan_eq, next_of_next hnext (by simp)]⟩
  | failed e =>
      cases h
      exact ⟨c', hnext, by rw [scan_eq, next_of_next hnext (by simp)]⟩

end Cursor

/-! ## The state after some calls -/

namespace Scan

/-- What a call finds after the given calls: the tokens of the scan in turn, whichever calls are made, and its
outcome when they are used up. An error is found by each `poll`, but only by the first `next` from there on. -/
def answer (s : Scan) (before : List Scanner.Call) (call : Scanner.Call) : Scanned :=
  match s.tokens[before.length]? with
  | some t => .token t
  | none => if call = .next ∧ .next ∈ before.drop s.tokens.length then .finished else .ofFailure s.failure

end Scan

namespace Scanner

/-- The scanner stands where the calls before it have led in the scan: behind as many tokens as there were calls,
and stopped if `next` has met the error. -/
structure Stands (whole : Scan) (before : List Call) (s : Scanner) : Prop where
  scan_eq : s.cursor.scan = ⟨whole.tokens.drop before.length, whole.failure⟩
  stopped_iff : s.stopped = true ↔ whole.failure.isSome ∧ .next ∈ before.drop whole.tokens.length

variable {whole : Scan} {before : List Call} {s : Scanner}

theorem stands_start (text : String) : Stands (Cursor.start text).scan [] (start text) where
  scan_eq := rfl
  stopped_iff := by simp [start]

theorem Stands.call_token {t : Token} (h : Stands whole before s) (ht : whole.tokens[before.length]? = some t)
    (c : Call) : (s.call c).1 = .token t ∧ Stands whole (before ++ [c]) (s.call c).2 := by
  obtain ⟨hlt, rfl⟩ := List.getElem?_eq_some_iff.mp ht
  have hrest := h.scan_eq
  rw [List.drop_eq_getElem_cons hlt] at hrest
  obtain ⟨c', hnext, hscan⟩ := Cursor.next_of_scan_cons hrest
  have hstopped : s.stopped = false := by
    rw [Bool.eq_false_iff, ne_eq, h.stopped_iff, List.drop_eq_nil_of_le (Nat.le_of_lt hlt)]
    simp
  have hcall : s.call c = (.token whole.tokens[before.length], ⟨c', s.stopped⟩) := by
    cases c <;> simp [call, Scanner.next, poll, hnext, hstopped]
  rw [hcall]
  refine ⟨rfl, by rw [hscan, List.length_append, List.length_singleton], ?_⟩
  rw [hstopped, List.drop_eq_nil_of_le (by rw [List.length_append]; exact hlt)]
  simp

section

variable (h : Stands whole before s) (hlength : whole.tokens.length ≤ before.length)
include h hlength

theorem Stands.exists_next : ∃ c', s.cursor.next = (.ofFailure whole.failure, c') ∧
    c'.scan = ⟨[], whole.failure⟩ := by
  have hrest := h.scan_eq
  rw [List.drop_eq_nil_of_le hlength] at hrest
  exact Cursor.next_of_scan_nil hrest

theorem Stands.append {c : Call} {c' : Cursor} {stopped : Bool} (hscan : c'.scan = ⟨[], whole.failure⟩)
    (hstopped : stopped = true ↔ s.stopped = true ∨ whole.failure.isSome ∧ c = .next) :
    Stands whole (before ++ [c]) ⟨c', stopped⟩ where
  scan_eq := by
    rw [hscan, List.drop_eq_nil_of_le]
    exact Nat.le_trans hlength (by simp)
  stopped_iff := by
    rw [hstopped, h.stopped_iff, List.drop_append_of_le_length hlength, List.mem_append, and_or_left,
      List.mem_singleton, eq_comm (a := c)]

theorem Stands.answer_eq (c : Call) : whole.answer before c =
    if c = .next ∧ s.stopped = true then .finished else .ofFailure whole.failure := by
  rw [Scan.answer, List.getElem?_eq_none hlength]
  cases hfailure : whole.failure with
  | none => exact (ite_self _).trans (ite_self _).symm
  | some e =>
      have hiff : s.stopped = true ↔ .next ∈ before.drop whole.tokens.length := by
        simp [h.stopped_iff, hfailure]
      simp only [hiff]

theorem Stands.call_end (c : Call) :
    (s.call c).1 = whole.answer before c ∧ Stands whole (before ++ [c]) (s.call c).2 := by
  obtain ⟨c', hnext, hscan⟩ := h.exists_next hlength
  have hpoll : s.poll = (.ofFailure whole.failure, ⟨c', s.stopped⟩) := by rw [poll, hnext]
  rw [h.answer_eq hlength]
  cases c with
  | poll =>
      rw [call, hpoll]
      exact ⟨(if_neg (by simp)).symm, h.append hlength hscan (by simp)⟩
  | next =>
      rw [call, Scanner.next]
      cases hstopped : s.stopped with
      | true =>
          have hrest := h.scan_eq
          rw [List.drop_eq_nil_of_le hlength] at hrest
          exact ⟨rfl, h.append hlength hrest (by simp [hstopped])⟩
      | false =>
          rw [if_neg Bool.false_ne_true, hpoll, if_neg (by simp)]
          cases hfailure : whole.failure with
          | none => exact ⟨rfl, h.append hlength (by rw [hscan]) (by simp [hstopped, hfailure])⟩
          | some e => exact ⟨rfl, h.append hlength (by rw [hscan]) (by simp [hfailure])⟩

end

/-- One call finds what the scan of the whole text says, and the scanner then stands behind that call. -/
theorem Stands.call (h : Stands whole before s) (c : Call) :
    (s.call c).1 = whole.answer before c ∧ Stands whole (before ++ [c]) (s.call c).2 := by
  by_cases hlength : whole.tokens.length ≤ before.length
  · exact h.call_end hlength c
  · have ht := List.getElem?_eq_getElem (Nat.lt_of_not_le hlength)
    rw [Scan.answer, ht]
    exact h.call_token ht c

/-- All calls are answered as the scan of the whole text says. -/
theorem Stands.answers (h : Stands whole before s) (calls : List Call) {k : Nat} {c : Call}
    (hk : calls[k]? = some c) : (s.answers calls)[k]? = some (whole.answer (before ++ calls.take k) c) := by
  -- The first call moves the scanner and joins those before, so both are general.
  induction calls generalizing s before k with
  | nil => cases hk
  | cons c' calls ih =>
      obtain ⟨hfound, hnext⟩ := h.call c'
      cases k with
      | zero =>
          cases hk
          rw [Scanner.answers, List.getElem?_cons_zero, hfound, List.take_zero, List.append_nil]
      | succ k =>
          rw [List.getElem?_cons_succ] at hk
          rw [Scanner.answers, List.getElem?_cons_succ, ih hnext hk, List.append_assoc]
          rfl

theorem length_answers (s : Scanner) (calls : List Call) : (s.answers calls).length = calls.length := by
  induction calls generalizing s with
  | nil => rfl
  | cons c calls ih => rw [Scanner.answers, List.length_cons, ih, List.length_cons]

/-! ## Iterations -/

/-- An iteration meets these one after the other and is finished from then on. -/
def Yields (s : Scanner) (found : List Scanned) : Prop :=
  ∀ n, s.answers (List.replicate (found.length + n) .next) = found ++ List.replicate n .finished

variable {s' : Scanner} {x : Scanned} {found found' : List Scanned}

theorem Yields.cons (hnext : s.next = (x, s')) (h : s'.Yields found) : s.Yields (x :: found) := by
  intro n
  rw [List.length_cons, Nat.add_right_comm, List.replicate_succ, answers, call, hnext, h n, List.cons_append]

theorem yields_nil {p : Scanner → Prop} (hp : ∀ s, p s → ∃ s', s.next = (.finished, s') ∧ p s') (hs : p s) :
    s.Yields [] := by
  intro n
  rw [List.length_nil, Nat.zero_add, List.nil_append]
  induction n generalizing s with
  | zero => rfl
  | succ n ih =>
      obtain ⟨s', hnext, hs'⟩ := hp s hs
      rw [List.replicate_succ, answers, call, hnext, ih hs', List.replicate_succ]

/-- Of two lists that an iteration meets, the longer one only tells some more ends. -/
theorem Yields.eq_append (h : s.Yields found) (h' : s.Yields found') (hle : found.length ≤ found'.length) :
    found' = found ++ List.replicate (found'.length - found.length) .finished := by
  have hlong := h (found'.length - found.length)
  have hshort := h' 0
  rw [Nat.add_sub_cancel' hle] at hlong
  rw [Nat.add_zero, hlong, List.replicate_zero, List.append_nil] at hshort
  exact hshort.symm

theorem yields_of_stopped (h : s.stopped = true) : s.Yields [] :=
  yields_nil (fun s hs => ⟨s, by rw [Scanner.next, if_pos hs], hs⟩) h

theorem yields_of_finished {c : Cursor} (h : c.scan = ⟨[], none⟩) : Yields ⟨c, false⟩ [] := by
  refine yields_nil (p := fun s => s.stopped = false ∧ s.cursor.scan = ⟨[], none⟩) ?_ ⟨rfl, h⟩
  rintro ⟨c, _⟩ ⟨rfl, hscan⟩
  obtain ⟨c', hnext, hscan'⟩ := Cursor.next_of_scan_nil hscan
  exact ⟨⟨c', false⟩, by simp [Scanner.next, poll, hnext, Scanned.ofFailure], rfl, hscan'⟩

theorem yields_of_scan {c : Cursor} {ts : List Token} {failure : Option LexicalError} (h : c.scan = ⟨ts, failure⟩) :
    Yields ⟨c, false⟩ (ts.map .token ++ failure.toList.map .failed) := by
  induction ts generalizing c with
  | nil =>
      cases failure with
      | none => exact yields_of_finished h
      | some e =>
          obtain ⟨c', hnext, _⟩ := Cursor.next_of_scan_nil h
          have hfails : Scanner.next ⟨c, false⟩ = (.failed e, ⟨c', true⟩) := by
            simp [Scanner.next, poll, hnext, Scanned.ofFailure]
          exact .cons hfails (yields_of_stopped rfl)
  | cons t ts ih =>
      obtain ⟨c', hnext, hscan⟩ := Cursor.next_of_scan_cons h
      have hfinds : Scanner.next ⟨c, false⟩ = (.token t, ⟨c', false⟩) := by simp [Scanner.next, poll, hnext]
      exact .cons hfinds (ih hscan)

end Scanner

theorem Token.result_scan (text : String) : (scan text).result = (Cursor.start text).scan.result := by
  simp only [scan, Logged.result_bind, Logged.result_record, Logged.result_ofExcept, Logged.result_pure]
  cases (Cursor.start text).scan.result <;> rfl

theorem Token.result_scan_of_finished {text : String} (h : (Cursor.start text).scan.failure = none) :
    (scan text).result = .ok (Cursor.start text).scan.tokens := by
  rw [result_scan, Scan.result, h]

theorem Token.result_scan_of_failed {text : String} {e : LexicalError}
    (h : (Cursor.start text).scan.failure = some e) : (scan text).result = .error e := by
  rw [result_scan, Scan.result, h]

/-- For every text there are a list of tokens and an outcome, the end or one error, which are what a split of the whole
text answers. Any sequence of calls is answered by these tokens in turn and then by the outcome. -/
theorem Scanner.answers_follow_scan (text : String) : ∃ whole : Scan,
    (whole.failure = none → (Token.scan text).result = .ok whole.tokens) ∧
    (∀ e, whole.failure = some e → (Token.scan text).result = .error e) ∧
    ∀ calls : List Call, ((start text).answers calls).length = calls.length ∧
      ∀ (k : Nat) (c : Call), calls[k]? = some c →
        ((start text).answers calls)[k]? = some (whole.answer (calls.take k) c) := by
  refine ⟨(Cursor.start text).scan, Token.result_scan_of_finished, fun _ => Token.result_scan_of_failed,
    fun calls => ⟨length_answers _ calls, ?_⟩⟩
  intro k c hk
  exact (stands_start text).answers calls hk

example : (Scanner.start "a ?").answers [.next, .poll, .next, .poll, .next] =
    [.token (.startingAt (.var "a") 0), .failed ⟨2⟩, .failed ⟨2⟩, .failed ⟨2⟩, .finished] := by
  decide +kernel

end Propositional
