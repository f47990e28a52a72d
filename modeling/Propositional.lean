import Propositional.Json.Formula
import Propositional.Json.Limits
import Propositional.Json.Token
import Propositional.Language.Reading
import Propositional.Truth.Decision
import Propositional.Proofs.Language.Grammar
import Propositional.Proofs.Language.Stacks
import Propositional.Proofs.Language.Operands
import Propositional.Proofs.Language.Acceptance
import Propositional.Proofs.Language.Precedence
import Propositional.Proofs.Language.Spelling
import Propositional.Proofs.Language.RoundTrip
import Propositional.Proofs.Language.Grouping
import Propositional.Proofs.Language.Layout
import Propositional.Proofs.Truth.Evaluation
import Propositional.Proofs.Truth.Rows
import Propositional.Proofs.Truth.Decision
import Propositional.Proofs.Truth.Assignments
import Propositional.Proofs.Truth.Enumeration
import Propositional.Proofs.Language.Conservation
import Propositional.Proofs.Truth.SourceOrder
import Propositional.Proofs.Language.Calls
import Propositional.Proofs.Language.Renaming
import Propositional.Proofs.Truth.Renaming
import Propositional.Proofs.Json.Layouts
import Propositional.Proofs.Language.Balance
import Propositional.Proofs.Language.Emission
import Propositional.Proofs.Language.Spacing
import Propositional.Proofs.Truth.Guard
import Propositional.Proofs.Language.Depth
import Propositional.Proofs.Truth.Lookups
import Propositional.Proofs.Language.Passages
import Propositional.Proofs.Language.LexicalErrors
import Propositional.Proofs.Language.Concatenation
import Propositional.Proofs.Language.Transcript
import Propositional.Proofs.Language.Segments
import Propositional.Proofs.Language.Cuts
import Propositional.Proofs.Language.Progress
