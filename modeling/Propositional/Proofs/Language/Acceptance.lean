import Propositional.Proofs.Language.Precedence
import Propositional.Proofs.Language.Spelling

/-!
# Accepted texts

Which texts are read as a formula, and which of them are formulas of the grammar. Reading never asks whether an
operand or a connective should come next, so it accepts every text in which enough operands are finished when
an operator takes them; `a b AND ` is read like `a AND b`. Such a text belongs to the grammar exactly if its
neighbouring tokens fit together.
-/

namespace Propositional

/-- A text is read exactly if it is split into tokens that leave one operand, the formula. -/
theorem Formula.read_eq_ok_iff {text : String} {f : Formula String} : (read text).result = .ok f ↔
    ∃ ts, (Token.scan text).result = .ok ts ∧ Part.group.Resolves [] (ts.map Token.kind) [f] := by
  simp only [read, Logged.result_bind_eq_ok_iff, Logged.result_mapError_eq_ok_iff, Logged.result_ofExcept,
    Logged.result_record, Logged.result_pure]
  constructor
  · rintro ⟨ts, hts, ordered, hordered, f', hf, _, -, heq⟩
    obtain rfl : f' = f := by simpa using heq
    exact ⟨ts, hts, Reordering.resolves_of_leaves (Reordering.leaves_iff.mpr ⟨ordered, hordered, hf⟩)⟩
  · rintro ⟨ts, hts, h⟩
    obtain ⟨ordered, hordered, hf⟩ := Reordering.leaves_iff.mp (Reordering.leaves_of_resolves h)
    exact ⟨ts, hts, ordered, hordered, f, hf, (), trivial, rfl⟩

theorem Formula.resolves_of_read {text : String} {f : Formula String} {ts : List Token}
    (h : (read text).result = .ok f) (hts : (Token.scan text).result = .ok ts) :
    Part.group.Resolves [] (ts.map Token.kind) [f] := by
  obtain ⟨ts', hts', hf⟩ := read_eq_ok_iff.mp h
  rw [hts] at hts'
  obtain rfl := Except.ok.inj hts'
  exact hf

/-- The variables of a formula stand in the order in which the text names them. -/
theorem Formula.vars_of_read {text : String} {f : Formula String} {ts : List Token}
    (h : (read text).result = .ok f) (hts : (Token.scan text).result = .ok ts) :
    f.vars = (ts.map Token.kind).filterMap Kind.name? := by
  have hnames : names [f] = (ts.map Token.kind).filterMap Kind.name? := (resolves_of_read h hts).names_eq
  simpa [names] using hnames

namespace Part.Resolves

variable {ks ks' : List Kind} {operands operands' : List (Formula String)}

/-- Where neighbours fit, a stretch does not go on behind a finished operand. -/
theorem eq_nil_of_fits {k k' : Kind} (h : stretch.Resolves operands ks operands') (hk : k.closes)
    (hfits : (k :: (ks ++ [k'])).IsChain Kind.Fits) : ks = [] := by
  cases h with
  | nil _ => rfl
  | var _ | not _ | parens _ _ => simp [Kind.Fits, Kind.opens, hk] at hfits

/-- The rest of a group does not change whether the neighbours before it fit. -/
theorem wellPlaced_left (h : rest.Resolves operands ks' operands') (hfits : WellPlaced (ks ++ ks')) :
    WellPlaced ks := by
  cases h with
  | stop _ => rwa [List.append_nil] at hfits
  | more _ _ _ | implies _ => exact ((WellPlaced.connective_iff _).mp hfits).1

/-- What a part of the wide grammar is when its neighbours fit. -/
def Narrow : Part → List Kind → Prop
  | .stretch, ks => WellPlaced ks → Phrase.term.Derives ks
  | .rest, ks => ∀ before, Phrase.expression.Derives before → WellPlaced (before ++ ks) →
      Phrase.expression.Derives (before ++ ks)
  | .group, ks => WellPlaced ks → Phrase.expression.Derives ks

theorem narrow {part : Part} (h : part.Resolves operands ks operands') : Narrow part ks := by
  induction h with
  | nil _ => exact fun hfits => (WellPlaced.not_nil hfits).elim
  | @var name _ _ _ hks _ =>
      intro hfits
      have hfits := (List.isChain_cons_cons.mp hfits).2
      obtain rfl := hks.eq_nil_of_fits rfl hfits
      exact .var name
  | not _ ih => exact fun hfits => .not (ih (WellPlaced.not_iff.mp hfits))
  | parens _ hks ih _ =>
      intro hfits
      obtain ⟨hin, hfits⟩ := WellPlaced.parens_iff.mp hfits
      obtain rfl := hks.eq_nil_of_fits rfl hfits
      exact .parens (ih hin)
  | stop _ => exact fun before hbefore _ => by rwa [List.append_nil]
  | @more c _ _ ks ks' _ _ _ _ _ hrest ih ih' =>
      intro before hbefore hfits
      have hright := ((WellPlaced.connective_iff c).mp hfits).2
      have hmore := Phrase.Derives.more c hbefore (ih (hrest.wellPlaced_left hright))
      have heq : before ++ (.operator (.binary c) :: ks ++ ks') =
          before ++ .operator (.binary c) :: ks ++ ks' := by simp
      rw [heq] at hfits ⊢
      exact ih' _ hmore hfits
  | implies _ ih =>
      intro before hbefore hfits
      exact hbefore.append .implies (ih ((WellPlaced.connective_iff _).mp hfits).2)
  | group _ hrest ih ih' =>
      intro hfits
      exact ih' _ (.single (ih (hrest.wellPlaced_left hfits))) hfits

end Part.Resolves

namespace Formula

/-- A text whose neighbouring tokens fit is read exactly if it belongs to the grammar. -/
theorem derives_iff_read {text : String} {ts : List Token} (hts : (Token.scan text).result = .ok ts) :
    Phrase.expression.Derives (ts.map Token.kind) ↔
      (∃ f, (read text).result = .ok f) ∧ WellPlaced (ts.map Token.kind) := by
  constructor
  · intro h
    obtain ⟨f, hf⟩ := h.exists_rank
    exact ⟨⟨f, read_eq_ok_iff.mpr ⟨ts, hts, hf.adds []⟩⟩, h.wellPlaced⟩
  · rintro ⟨⟨f, hf⟩, hfits⟩
    exact (resolves_of_read hf hts).narrow hfits

/-- Reading accepts exactly the texts whose tokens leave a single operand. No text beyond the grammar is among
them just when the neighbouring tokens of such a text fit together. -/
theorem read_within_grammar_iff (text : String) :
    (∀ f, (read text).result = .ok f ↔
      ∃ ts, (Token.scan text).result = .ok ts ∧ Part.group.Resolves [] (ts.map Token.kind) [f]) ∧
    ((∀ f, (read text).result = .ok f → ∃ ts, (Token.scan text).result = .ok ts ∧
        Phrase.expression.Derives (ts.map Token.kind)) ↔
      ∀ ts, (Token.scan text).result = .ok ts → (∃ f, Part.group.Resolves [] (ts.map Token.kind) [f]) →
        WellPlaced (ts.map Token.kind)) := by
  refine ⟨fun f => read_eq_ok_iff, ?_, ?_⟩
  · rintro h ts hts ⟨f, hf⟩
    obtain ⟨ts', hts', hd⟩ := h f (read_eq_ok_iff.mpr ⟨ts, hts, hf⟩)
    obtain rfl : ts = ts' := by simpa [hts] using hts'
    exact ((derives_iff_read hts).mp hd).2
  · intro h f hf
    obtain ⟨ts, hts, hr⟩ := read_eq_ok_iff.mp hf
    exact ⟨ts, hts, (derives_iff_read hts).mpr ⟨⟨f, hf⟩, h ts hts ⟨f, hr⟩⟩⟩

/-- An operator behind its two operands is read, although no formula of the grammar is written so. -/
theorem read_operator_behind_operands : (read "a b AND ").result = .ok (.binary .and (.var "a") (.var "b")) ∧
    ∃ ts, (Token.scan "a b AND ").result = .ok ts ∧ ¬Phrase.expression.Derives (ts.map Token.kind) := by
  have hspells : Spells 0 "a b AND ".toList [.startingAt (.var "a") 0, .startingAt (.var "b") 2,
      .startingAt (.operator (.binary .and)) 4] :=
    .token (k := .var "a") (isName_takeWhile (c := 'a') rfl []) (.inr (.inl rfl)) (.space
      (.token (k := .var "b") (isName_takeWhile (c := 'b') rfl []) (.inr (.inl rfl)) (.space
        (.token (k := .operator (.binary .and)) trivial rfl (.space (.nil _))))))
  have hresolves : Part.group.Resolves [] [.var "a", .var "b", .operator (.binary .and)]
      [.binary .and (.var "a") (.var "b")] :=
    .group (.var (.var (.nil _))) (.more (by decide) (.nil _) (.stop _))
  have hscan := Token.scan_eq_ok_iff.mpr hspells
  refine ⟨read_eq_ok_iff.mpr ⟨_, hscan, hresolves⟩, _, hscan, ?_⟩
  intro h
  exact absurd h.wellPlaced (by decide)

end Formula

end Propositional
