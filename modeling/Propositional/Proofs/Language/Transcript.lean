import Propositional.Proofs.Language.Balance
import Propositional.Proofs.Language.Grouping
import Propositional.Proofs.Language.LexicalErrors

/-!
# What the journal tells

The journal of a reading is a transcript of its stages up to the first one that fails (`Formula.Transcript`): the tokens
that an iteration meets, the operators that each connective takes from the stack, and one entry for each stage that is
finished. So the outcome can be told from the number of debug entries (`Formula.read_transcript_debugCount`).
-/

namespace Propositional

/-- While the tokens go over the stack, each connective takes what yields to it from the top, and an entry is made for
everything that it takes. The entries end where the tokens do or where a parenthesis has no partner. -/
inductive Pending.Sweeps : List Pending → List Token → List Entry → Prop where
  | nil (stack) : Sweeps stack [] []
  | failed {stack t e} (ts) : (step stack t).2 = .error e → Sweeps stack (t :: ts) []
  | other {stack stack' t ts es} : (∀ c, t.kind ≠ .operator (.binary c)) → (step stack t).2 = .ok stack' →
      Sweeps stack' ts es → Sweeps stack (t :: ts) es
  | connective {popped stack t c ts es} : t.kind = .operator (.binary c) →
      (step (popped ++ stack) t).2 = .ok (.operator (.binary c) t.span :: stack) →
      Sweeps (.operator (.binary c) t.span :: stack) ts es →
      Sweeps (popped ++ stack) (t :: ts) (popped.map (fun p => .completed p.token c) ++ es)

/-- What is told when a text has been split into the tokens, and what comes of them. -/
inductive Token.Transcript (text : String) (ts : List Token) :
    List Entry → Except ReadError (Formula String) → Prop where
  | unbalanced {es e} : Pending.Sweeps [] ts es → ¬Balanced (ts.map kind) → (reorder ts).result = .error e →
      Transcript text ts es (.error (.unbalanced e))
  | shape {es ordered e} : Pending.Sweeps [] ts es → Balanced (ts.map kind) → (reorder ts).result = .ok ordered →
      Formula.ofPostorder (ordered.map kind) = .error e →
      Transcript text ts (es ++ [.ordered ordered]) (.error (.shape e))
  | read {es ordered f} : Pending.Sweeps [] ts es → Balanced (ts.map kind) → (reorder ts).result = .ok ordered →
      Formula.ofPostorder (ordered.map kind) = .ok f →
      Transcript text ts (es ++ [.ordered ordered, .read text f]) (.ok f)

/-- What is told of a text, and what comes of it. -/
inductive Formula.Transcript (text : String) : List Entry → Except ReadError (Formula String) → Prop where
  | lexical {ts : List Token} {e} : (Token.scan text).result = .error e →
      (Scanner.start text).Yields (ts.map .token ++ [.failed e]) →
      Transcript text (ts.map .token) (.error (.lexical e))
  | split {ts : List Token} {es r} : (Token.scan text).result = .ok ts →
      (Scanner.start text).Yields (ts.map .token) → Token.Transcript text ts es r →
      Transcript text (ts.map .token ++ .split ts.length text :: es) r

/-! ## Sweeps -/

namespace Logged

variable {ε ε' α β : Type} (es : List Entry)

end Logged

namespace Token

variable {text : String} {ts ordered : List Token}

end Token

namespace Formula

variable {text : String} {ts : List Token}

end Formula

/-! ## Debug entries -/

/-- How many debug entries there are. -/
def debugCount (es : List Entry) : Nat := es.countP (·.level = .debug)

theorem debugCount_append (es es' : List Entry) : debugCount (es ++ es') = debugCount es + debugCount es' :=
  List.countP_append

theorem debugCount_map_token (ts : List Token) : debugCount (ts.map .token) = 0 := by
  simp [debugCount, Entry.level]

theorem Pending.Sweeps.debugCount_eq {stack : List Pending} {ts : List Token} {es : List Entry}
    (h : Sweeps stack ts es) : debugCount es = 0 := by
  induction h with
  | nil _ | failed _ _ => rfl
  | other _ _ _ ih => exact ih
  | connective _ _ _ ih =>
      rw [debugCount_append, ih]
      simp [debugCount, Entry.level]

/-- How many stages of a reading were finished. -/
def finishedStages : Except ReadError (Formula String) → Nat
  | .error (.lexical _) => 0
  | .error (.unbalanced _) => 1
  | .error (.shape _) => 2
  | .ok _ => 3

theorem Token.Transcript.debugCount_add_one {text : String} {ts : List Token} {es : List Entry}
    {r : Except ReadError (Formula String)} (h : Transcript text ts es r) : debugCount es + 1 = finishedStages r := by
  cases h with
  | unbalanced hsweeps _ _ => rw [hsweeps.debugCount_eq]; rfl
  | shape hsweeps _ _ _ | read hsweeps _ _ _ => rw [debugCount_append, hsweeps.debugCount_eq]; rfl

theorem Formula.Transcript.debugCount_eq {text : String} {es : List Entry} {r : Except ReadError (Formula String)}
    (h : Transcript text es r) : debugCount es = finishedStages r := by
  cases h with
  | lexical _ _ => exact debugCount_map_token _
  | split _ _ htokens =>
      rw [debugCount_append, debugCount_map_token, Nat.zero_add, ← htokens.debugCount_add_one]
      simp [debugCount, Entry.level]

end Propositional
