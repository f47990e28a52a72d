import Propositional.Language.Formula
import Propositional.Language.Token

/-!
# The journal

Reading a formula and searching its truth table leave a journal of what was done, in order. An operation
that keeps a journal answers a `Logged` value: its entries beside its result, so that the entries made
before a failure are never lost. The answer may also be that of a computation (`LoggedT`).
-/

namespace Propositional

/-! ## Entries -/

/-- How detailed an entry is. -/
inductive Level where
  | trace
  | debug
  deriving DecidableEq

/-- One step of an operation, as the journal tells it. -/
inductive Entry where
  /-- A token was found in the text. -/
  | token (t : Token)
  /-- A whole text was split into so many tokens. -/
  | split (count : Nat) (text : String)
  /-- A waiting operator was completed by the arrival of a connective. -/
  | completed (t : Token) (incoming : Connective)
  /-- All tokens were put into postorder. -/
  | ordered (tokens : List Token)
  /-- A text was read as a formula. -/
  | read (text : String) (f : Formula String)
  /-- A search for a row with the wanted value began; the table is as wide as there are variables. -/
  | searching (rows : UInt64) (width : Nat) (wanted : Bool)
  /-- The search ended at a row with the wanted value. -/
  | found (row : UInt64) (wanted : Bool)
  deriving DecidableEq

namespace Entry

/-- Single tokens and single moves are traced, finished stages are debug entries. -/
def level : Entry → Level
  | .token _ | .completed _ _ => .trace
  | _ => .debug

/-- The text between quotation marks. The texts quoted in the journal are those that were split into
tokens, and these hold no character that would have to be escaped. -/
def quote (text : String) : String := "\"" ++ text ++ "\""

/-- The wording of the entry. -/
def message : Entry → String
  | .token t => s!"lexed {quote t.text} at {t.span.start}..{t.span.stop}"
  | .split count text => s!"tokenized {count} tokens from {quote text}"
  | .completed t incoming => s!"popped {t.text} before {incoming.keyword}"
  | .ordered tokens => s!"postfix order: {Token.join tokens}"
  | .read text f => s!"parsed {quote text} as {f.render}"
  | .searching rows width wanted =>
      s!"searching {rows} rows over {width} variables for a {wanted} row"
  | .found row wanted => s!"row {row} evaluates to {wanted}"

end Entry

/-! ## Operations that keep a journal -/

/-- The result of an operation, with the entries that it made. -/
structure Logged (ε α : Type) where
  entries : List Entry
  result : Except ε α

/-- A computation whose answer is the result of an operation, with the entries that it made. -/
def LoggedT (ε : Type) (m : Type → Type) (α : Type) : Type := m (Logged ε α)

namespace Logged

variable {ε ε' α : Type}

/-- A result that makes no entry. -/
def ofExcept (r : Except ε α) : Logged ε α := ⟨[], r⟩

/-- Makes the given entries. -/
def record (es : List Entry) : Logged ε Unit := ⟨es, .ok ()⟩

/-- The same operation, with its error seen as another one. -/
def mapError (g : ε → ε') (x : Logged ε α) : Logged ε' α := ⟨x.entries, x.result.mapError g⟩

end Logged

namespace LoggedT

variable {ε α β : Type} {m : Type → Type} [Monad m]

def mk (x : m (Logged ε α)) : LoggedT ε m α := x

def run (x : LoggedT ε m α) : m (Logged ε α) := x

/-- Nothing but the operation. -/
def of (x : Logged ε α) : LoggedT ε m α := mk (pure x)

/-- A computation that succeeds and makes no entry. -/
def lift (x : m α) : LoggedT ε m α := mk do return .ofExcept (.ok (← x))

/-- Continues with a successful result; the entries of both parts stay, in order. -/
def bind (x : LoggedT ε m α) (g : α → LoggedT ε m β) : LoggedT ε m β := mk do
  let first ← x.run
  match first.result with
  | .ok a =>
    let second ← (g a).run
    return ⟨first.entries ++ second.entries, second.result⟩
  | .error e => return ⟨first.entries, .error e⟩

instance : Monad (LoggedT ε m) where
  pure a := of (.ofExcept (.ok a))
  bind := bind

@[simp] theorem run_of (x : Logged ε α) : (of x : LoggedT ε m α).run = pure x := rfl

@[simp] theorem run_lift (x : m α) : (lift x : LoggedT ε m α).run = do return .ofExcept (.ok (← x)) := rfl

@[simp] theorem run_pure (a : α) : (pure a : LoggedT ε m α).run = pure (.ofExcept (.ok a)) := rfl

theorem run_bind (x : LoggedT ε m α) (g : α → LoggedT ε m β) : (x >>= g).run = do
    let first ← x.run
    match first.result with
    | .ok a =>
      let second ← (g a).run
      return ⟨first.entries ++ second.entries, second.result⟩
    | .error e => return ⟨first.entries, .error e⟩ := rfl

instance [LawfulMonad m] : LawfulMonad (LoggedT ε m) := by
  refine LawfulMonad.mk' _ ?_ ?_ ?_
  · intro α x
    show (x >>= fun a => pure (id a)).run = x.run
    rw [run_bind, ← bind_pure x.run]
    simp only [bind_assoc, pure_bind]
    refine bind_congr fun first => ?_
    obtain ⟨es, result⟩ := first
    cases result <;> simp [run_pure, Logged.ofExcept]
  · intro α β a g
    show (pure a >>= g).run = (g a).run
    simp [run_bind, run_pure, Logged.ofExcept]
  · intro α β γ x g h
    show (x >>= g >>= h).run = (x >>= fun a => g a >>= h).run
    simp only [run_bind, bind_assoc]
    refine bind_congr fun first => ?_
    obtain ⟨es, result⟩ := first
    cases result with
    | error e => simp
    | ok a =>
        simp only [bind_assoc, pure_bind]
        refine bind_congr fun second => ?_
        obtain ⟨es', result'⟩ := second
        cases result' <;> simp

end LoggedT

namespace Logged

variable {ε ε' α β : Type}

/-- Operations are continued like computations that do nothing else. -/
instance : Monad (Logged ε) := inferInstanceAs (Monad (LoggedT ε Id))

instance : LawfulMonad (Logged ε) := inferInstanceAs (LawfulMonad (LoggedT ε Id))

@[simp] theorem entries_ofExcept (r : Except ε α) : (ofExcept r).entries = [] := rfl

@[simp] theorem result_ofExcept (r : Except ε α) : (ofExcept r).result = r := rfl

@[simp] theorem entries_record (es : List Entry) : (record es : Logged ε Unit).entries = es := rfl

@[simp] theorem result_record (es : List Entry) : (record es : Logged ε Unit).result = .ok () := rfl

@[simp] theorem entries_mapError (g : ε → ε') (x : Logged ε α) :
    (x.mapError g).entries = x.entries := rfl

@[simp] theorem result_mapError (g : ε → ε') (x : Logged ε α) :
    (x.mapError g).result = x.result.mapError g := rfl

@[simp] theorem entries_pure (a : α) : (pure a : Logged ε α).entries = [] := rfl

@[simp] theorem result_pure (a : α) : (pure a : Logged ε α).result = .ok a := rfl

/-- What follows runs only after a success. -/
theorem result_bind (x : Logged ε α) (g : α → Logged ε β) :
    (x >>= g).result = x.result >>= fun a => (g a).result := by
  obtain ⟨es, result⟩ := x
  cases result <;> rfl

/-- The entries of the first part come first, and stay when it fails. -/
theorem entries_bind (x : Logged ε α) (g : α → Logged ε β) :
    (x >>= g).entries = x.entries ++ match x.result with
      | .ok a => (g a).entries
      | .error _ => [] := by
  obtain ⟨es, result⟩ := x
  cases result with
  | ok a => rfl
  | error e => exact (List.append_nil es).symm

theorem bind_eq_ok_iff {x : Except ε α} {g : α → Except ε β} {b : β} :
    (x >>= g) = .ok b ↔ ∃ a, x = .ok a ∧ g a = .ok b := by
  cases x with
  | error e =>
      constructor
      · intro h; cases h
      · rintro ⟨a, h, _⟩; cases h
  | ok a =>
      constructor
      · intro h; exact ⟨a, rfl, h⟩
      · rintro ⟨_, h, hg⟩; cases h; exact hg

/-- An operation in two parts succeeds exactly if both parts do. -/
theorem result_bind_eq_ok_iff {x : Logged ε α} {g : α → Logged ε β} {b : β} :
    (x >>= g).result = .ok b ↔ ∃ a, x.result = .ok a ∧ (g a).result = .ok b := by
  rw [result_bind, bind_eq_ok_iff]

theorem result_mapError_eq_ok_iff {g : ε → ε'} {x : Logged ε α} {a : α} :
    (x.mapError g).result = .ok a ↔ x.result = .ok a := by
  rw [result_mapError]
  cases x.result with
  | error e =>
      constructor
      · intro h; cases h
      · intro h; cases h
  | ok b =>
      constructor
      · intro h; cases h; rfl
      · intro h; cases h; rfl

end Logged

end Propositional
