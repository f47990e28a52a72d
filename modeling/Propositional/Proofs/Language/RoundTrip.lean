import Propositional.Proofs.Language.Acceptance
import Propositional.Proofs.Language.Spelling

/-!
# Reading a rendered formula

A rendered formula is an expression of the grammar, and the text spells it if all names can be written. Nothing
else is read back: reading a text keeps the order of its names, so every variable of the result is a name that
stood in the text.
-/

namespace Propositional

/-- The text spells tokens of these kinds, wherever it begins. -/
def Writes (cs : List Char) (ks : List Kind) : Prop :=
  ∀ offset, ∃ ts, Spells offset cs ts ∧ ts.map Token.kind = ks

namespace Writes

variable {cs : List Char} {ks : List Kind}

theorem nil : Writes [] [] := fun offset => ⟨[], .nil offset, rfl⟩

theorem space (h : Writes cs ks) : Writes (' ' :: cs) ks := by
  intro offset
  obtain ⟨ts, hts, hk⟩ := h (offset + 1)
  exact ⟨ts, .space hts, hk⟩

theorem token {k : Kind} (h : Writes cs ks) (hk : k.Proper) (hcs : k.MayPrecede cs) :
    Writes (k.text.toList ++ cs) (k :: ks) := by
  intro offset
  obtain ⟨ts, hts, rfl⟩ := h (offset + k.text.length)
  exact ⟨.startingAt k offset :: ts, .token hk hcs hts, rfl⟩

end Writes

namespace Formula

/-- The kinds of the tokens of a rendered formula. -/
def kinds : Formula String → List Kind
  | .var name => [.var name]
  | .not f => .operator .not :: f.kinds
  | .binary c l r => .leftParen :: (l.kinds ++ .operator (.binary c) :: r.kinds) ++ [.rightParen]

/-- A rendered formula is a term of the grammar, of which it is the formula. -/
theorem derives_kinds (f : Formula String) : Rank.term.Derives f.kinds f := by
  induction f with
  | var name => exact .var name
  | not f ih => exact .not ih
  | binary c l r ihl ihr =>
      refine .parens ?_
      by_cases hc : c = .implies
      · subst hc
        exact .implies (.single ihl) (.last (.single ihr))
      · exact .last (.more hc (.single ihl) ihr)

theorem writes_render {f : Formula String} (hf : ∀ name ∈ f.vars, IsName name) {cs : List Char}
    {ks : List Kind} (hcs : Kind.EndsName cs) (h : Writes cs ks) :
    Writes (f.render.toList ++ cs) (f.kinds ++ ks) := by
  induction f generalizing cs ks with
  | var name => exact h.token (k := .var name) (hf name List.mem_cons_self) hcs
  | not f ih =>
      have hoperand := (ih hf hcs h).space
      have := hoperand.token (k := .operator .not) trivial rfl
      simpa [render, kinds, Kind.text] using this
  | binary c l r ihl ihr =>
      simp only [vars, List.forall_mem_append] at hf
      have hclose := h.token (k := .rightParen) trivial trivial
      have hright := (ihr hf.2 (.inr (.inr rfl)) hclose).space
      have hconnective := hright.token (k := .operator (.binary c)) trivial rfl
      have hleft := ihl hf.1 (.inr (.inl rfl)) hconnective.space
      have hopen := hleft.token (k := .leftParen) trivial trivial
      simpa [render, kinds, Kind.text, Operator.keyword] using hopen

theorem read_render_of_isName {f : Formula String} (hf : ∀ name ∈ f.vars, IsName name) :
    (read f.render).result = .ok f := by
  have hw : Writes (f.render.toList ++ []) (f.kinds ++ []) := writes_render hf (.inl rfl) .nil
  obtain ⟨ts, hts, hk⟩ := hw 0
  rw [List.append_nil] at hts hk
  refine read_eq_ok_iff.mpr ⟨ts, Token.scan_eq_ok_iff.mpr hts, ?_⟩
  rw [hk]
  exact (Rank.Derives.last (.single f.derives_kinds)).adds []

/-- Only names that can be written are read. -/
theorem isName_of_read {text : String} {f : Formula String} (h : (read text).result = .ok f) :
    ∀ name ∈ f.vars, IsName name := by
  obtain ⟨ts, hts, _⟩ := read_eq_ok_iff.mp h
  intro name hname
  rw [vars_of_read h hts] at hname
  obtain ⟨k, hk, hkname⟩ := List.mem_filterMap.mp hname
  obtain ⟨t, ht, rfl⟩ := List.mem_map.mp hk
  have hproper := (Token.scan_eq_ok_iff.mp hts).proper t ht
  rw [Kind.eq_var_of_name?_eq_some hkname] at hproper
  exact hproper

/-- A rendered formula is read back as itself exactly if each of its variables has a name of small letters. A
formula that was read from a text, whichever, is such a formula. -/
theorem read_render_iff (f : Formula String) :
    ((read f.render).result = .ok f ↔ ∀ name ∈ f.vars, IsName name) ∧
      ∀ text, (read text).result = .ok f → (read f.render).result = .ok f :=
  ⟨⟨isName_of_read, read_render_of_isName⟩, fun _ h => read_render_of_isName (isName_of_read h)⟩

end Formula

end Propositional
