import Mathlib.Data.List.Nodup

/-!
# Looking entries up

What is found under a key in a list of entries. The first entry with the key is found; where there is no second
one, the order of the entries does not matter.
-/

namespace Propositional

variable {α : Type} {key : String} {value : α} {es : List (String × α)}

theorem lookup_cons_eq (key : String) (value : α) (es : List (String × α)) (name : String) :
    ((key, value) :: es).lookup name = if name = key then some value else es.lookup name := by
  by_cases h : name = key
  · subst h
    simp
  · rw [List.lookup_cons, beq_eq_false_iff_ne.mpr h, if_neg h]

theorem mem_of_lookup (h : es.lookup key = some value) : (key, value) ∈ es := by
  obtain ⟨before, after, rfl, _⟩ := List.lookup_eq_some_iff.mp h
  simp

theorem lookup_of_mem_of_unique (h : (key, value) ∈ es) (hunique : ∀ v, (key, v) ∈ es → v = value) :
    es.lookup key = some value := by
  induction es with
  | nil => cases h
  | cons e es ih =>
      obtain ⟨k, v⟩ := e
      rw [lookup_cons_eq]
      split
      case isTrue hk => rw [hunique v (by simp [hk])]
      case isFalse hk =>
        have hmem : (key, value) ∈ es := by simpa [hk] using h
        exact ih hmem fun v hv => hunique v (List.mem_cons_of_mem _ hv)

theorem lookup_eq_some_iff_mem (hkeys : (es.map Prod.fst).Nodup) :
    es.lookup key = some value ↔ (key, value) ∈ es := by
  refine ⟨mem_of_lookup, fun h => lookup_of_mem_of_unique h fun v hv => ?_⟩
  exact congrArg Prod.snd (List.inj_on_of_nodup_map hkeys hv h rfl)

theorem mapM_keys {find : String → Option α} (h : ∀ e ∈ es, find e.1 = some e.2) :
    (es.map Prod.fst).mapM find = some (es.map Prod.snd) := by
  induction es with
  | nil => rfl
  | cons e es ih =>
      have ⟨he, hes⟩ := List.forall_mem_cons.mp h
      rw [List.map_cons, List.mapM_cons, he, ih hes]
      rfl

end Propositional
