/-!
# Limits on enumeration

A search or a table over `n` distinct variables goes through `2 ^ n` rows. The limits say how many variables
are admitted before any row is looked at.
-/

namespace Propositional

/-- The numbers of variables asked for: by searches, and by tables, which hold all rows at once. -/
structure Limits where
  maxVariables : Nat
  maxTableVariables : Nat
  deriving DecidableEq

namespace Limits

/-- The rows of so many variables, and no more, can be counted in 64 bits. -/
def maxCountable : Nat := 63

/-- The limits in force where none are given. -/
def standard : Limits := ⟨50, 16⟩

/-- The widest limits. -/
def permissive : Limits := ⟨maxCountable, 24⟩

/-- Narrow limits, for an answer at once. -/
def strict : Limits := ⟨16, 10⟩

/-- Limits for searches over up to `n` variables. -/
def upTo (n : Nat) : Limits := ⟨n, standard.maxTableVariables⟩

/-- The same limits with another one for tables. -/
def withTables (limits : Limits) (n : Nat) : Limits := { limits with maxTableVariables := n }

/-- The limit that holds for searches. -/
def forSearches (limits : Limits) : Nat := min limits.maxVariables maxCountable

/-- The limit that holds for tables; it never exceeds the one for searches. -/
def forTables (limits : Limits) : Nat := min limits.maxTableVariables limits.forSearches

end Limits

end Propositional
