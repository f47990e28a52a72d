import Propositional.Truth.Evaluation

/-!
# Evaluation under complete assignments

The truth value of a formula depends on the values of its own variables only, and a source that has a value for
each of them is all that evaluation needs.
-/

namespace Propositional

namespace Formula

section

variable {α β : Type} {f : Formula α}

theorem holds_map (v : β → Bool) (g : α → β) (f : Formula α) :
    (f.map g).holds v = f.holds fun x => v (g x) := by
  induction f with
  | var x => rfl
  | not f ih => exact congrArg Bool.not ih
  | binary c l r ihl ihr =>
      show c.apply ((l.map g).holds v) ((r.map g).holds v) = _
      rw [ihl, ihr, holds]

theorem holds_congr {v w : α → Bool} (h : ∀ x ∈ f.vars, v x = w x) : f.holds v = f.holds w := by
  induction f with
  | var x => exact h x List.mem_cons_self
  | not f ih => exact congrArg Bool.not (ih h)
  | binary c l r ihl ihr =>
      have ⟨hl, hr⟩ := List.forall_mem_append.mp h
      rw [holds, holds, ihl hl, ihr hr]

theorem mapM_eq_pure {m : Type → Type} [Monad m] [LawfulMonad m] {g : α → m β} {h : α → β}
    (hg : ∀ x ∈ f.vars, g x = pure (h x)) : f.mapM g = pure (f.map h) := by
  induction f with
  | var x =>
      rw [mapM, hg x List.mem_cons_self, pure_bind]
      rfl
  | not f ih =>
      rw [mapM, ih hg, pure_bind]
      rfl
  | binary c l r ihl ihr =>
      have ⟨hl, hr⟩ := List.forall_mem_append.mp hg
      rw [mapM, ihl hl, pure_bind, ihr hr, pure_bind]
      rfl

end

end Formula

namespace Valuation

/-- Every variable of the formula has a value. -/
def Assigns (v : Valuation) (f : Formula String) : Prop := ∀ name ∈ f.vars, (v name).isSome

/-- The values of all names, where false stands in for a missing one. -/
def total (v : Valuation) (name : String) : Bool := (v name).getD false

/-- Values for all names, taken as a source that lacks none. -/
def ofTotal (v : String → Bool) : Valuation := fun name => some (v name)

theorem assigns_ofTotal (v : String → Bool) (f : Formula String) : (ofTotal v).Assigns f := fun _ _ => rfl

end Valuation

namespace Formula

variable {v : Valuation} {f : Formula String}

theorem evaluate_of_assigns (h : v.Assigns f) : f.evaluate v = .ok (f.holds v.total) := by
  have hlook : f.lookUp (m := Id) v = pure (f.map v.total) := by
    refine mapM_eq_pure fun name hname => ?_
    obtain ⟨b, hb⟩ := Option.isSome_iff_exists.mp (h name hname)
    have htotal : v.total name = b := by simp [Valuation.total, hb]
    rw [htotal]
    simp only [hb]
    rfl
  have heval : f.evaluate v = .ok ((f.map v.total).holds id) := by
    rw [evaluate, evaluateM, hlook]
    rfl
  rw [heval, holds_map]
  rfl

/-- Values for all names do as well as any source that has those of the formula. -/
theorem exists_evaluate_iff {b : Bool} :
    (∃ v : Valuation, v.Assigns f ∧ f.evaluate v = .ok b) ↔ ∃ v, f.holds v = b := by
  constructor
  · rintro ⟨v, hv, h⟩
    rw [evaluate_of_assigns hv] at h
    exact ⟨v.total, Except.ok.inj h⟩
  · rintro ⟨v, rfl⟩
    exact ⟨.ofTotal v, Valuation.assigns_ofTotal v f, evaluate_of_assigns (Valuation.assigns_ofTotal v f)⟩

/-- A formula has a value under all complete assignments exactly if it has the other value under none. -/
theorem not_exists_evaluate_iff {b : Bool} :
    (¬∃ v : Valuation, v.Assigns f ∧ f.evaluate v = .ok (!b)) ↔
      ∀ v : Valuation, v.Assigns f → f.evaluate v = .ok b := by
  constructor
  · intro h v hv
    rw [evaluate_of_assigns hv]
    have hne : f.holds v.total ≠ !b := fun heq => h ⟨v, hv, by rw [evaluate_of_assigns hv, heq]⟩
    rw [Bool.not_eq_not.mp hne]
  · rintro h ⟨v, hv, hb⟩
    rw [h v hv] at hb
    cases b <;> cases hb

end Formula

end Propositional
