import Beamline.Proofs.Plain.Blame
import Beamline.Proofs.Plain.Discipline

/-!
# Decks without texts

If no formula contains a text, no constant ever becomes one, and no stored term comes to one. So
all values are numbers, and nothing fails because of a text. What can still fail is the layout of a
line with a repetition, and an evaluation without a limit on a deck whose records lead back to
themselves.

* `Discipline.numeric`: what is said of such a deck.
* `Discipline.numeric_governs`: formulas without texts keep to it.
-/

namespace Beamline

open Source (Position)
open Beamline.Expr (Formula Term)

/-- The formula contains no text. -/
def Expr.Formula.Textless (formula : Formula) : Prop :=
  ∀ content, .text content ∉ formula.leaves

/-- The body contains a repetition. -/
inductive Line.Body.Repeats : Line.Body → Prop where
  | repetition (count : String) (body : Line.Body) : Repeats (.repetition count body)
  | sequence {items : List Line.Body} {body : Line.Body} (hmem : body ∈ items)
      (h : Repeats body) : Repeats (.sequence items)
  | reflection {body : Line.Body} (h : Repeats body) : Repeats (.reflection body)

namespace Plain

/-! ## Lowering and laying out -/

/-- Without texts, nothing is refused, and the term may stand where a number is needed. -/
theorem LoweringScope.admits_textless {scope : LoweringScope} {formula : Formula}
    (hformula : formula.Textless)
    (hconstants : ∀ name v, scope.constant? name = some v → ∃ x, v = .number x) :
    scope.Admits formula (fun _ t => t.Apt true) fun _ => False := by
  have htext {name : Name} {content : String} (h : scope.constant? name = some (.text content)) :
      False := by
    obtain ⟨_, hx⟩ := hconstants name _ h
    cases hx
  exact
    { number := fun _ _ => trivial
      text := fun content hmem => (hformula content hmem).elim
      refusedText := hformula
      numberConstant := fun _ _ _ _ => trivial
      textConstant := fun _ _ h => (htext h).elim
      refusedConstant := fun _ _ => htext
      otherName := fun _ _ _ _ => trivial
      lengthOf := fun _ _ _ => trivial
      parens := fun _ _ h => h
      signed := fun _ _ _ h => h
      binary := fun _ _ _ _ hleft hright => ⟨hleft, hright⟩
      call := fun _ _ _ h => h }

namespace LayoutScope

variable (scope : LayoutScope)

/-- The error that a repetition is too long. -/
def overflow (scope : LayoutScope) : Error :=
  .lineTooLong (Line.bound scope.limit) scope.pos

mutual

/-- Only a repetition fails. -/
theorem ensures_layout (body : Line.Body) :
    Ensures (fun _ => True) (scope.layout body) (fun _ _ => True)
      fun e _ => e = scope.overflow ∧ body.Repeats := by
  have hreturn (entries : List Line.Entry) :
      Ensures (fun _ => True) (pure entries : Step (List Line.Entry)) (fun _ _ => True)
        fun e _ => e = scope.overflow ∧ body.Repeats :=
    Ensures.of_pure fun _ _ => trivial
  match body with
  | .member raw =>
    unfold layout
    dsimp only
    exact Ensures.ite (fun _ => hreturn _) fun _ =>
      Ensures.bind (R := fun _ _ => True) (Ensures.of_modify fun _ _ => trivial)
        fun _ => hreturn _
  | .sequence items =>
    refine (ensures_layoutAll items).imp_error ?_
    rintro e _ ⟨he, body, hmem, hbody⟩
    exact ⟨he, .sequence hmem hbody⟩
  | .repetition count body =>
    unfold layout
    refine Ensures.bind ((ensures_layout body).imp_error fun e _ he => ?_) fun entries => ?_
    · exact ⟨he.1, .repetition count body⟩
    · cases hrepeat : Line.repeat? count entries scope.limit with
      | ok repeated => exact hreturn repeated
      | error e =>
        obtain ⟨-, rfl⟩ := Line.repeat?_eq_error_iff.1 hrepeat
        exact Ensures.of_throw fun _ _ => ⟨rfl, .repetition count body⟩
  | .reflection body =>
    unfold layout
    refine Ensures.bind ((ensures_layout body).imp_error fun e _ he => ?_) fun entries => hreturn _
    exact ⟨he.1, .reflection he.2⟩

theorem ensures_layoutAll (items : List Line.Body) :
    Ensures (fun _ => True) (scope.layoutAll items) (fun _ _ => True)
      fun e _ => e = scope.overflow ∧ ∃ body ∈ items, body.Repeats := by
  match items with
  | [] => exact Ensures.of_pure fun _ _ => trivial
  | item :: items =>
    unfold layoutAll
    refine Ensures.bind ((ensures_layout item).imp_error fun e _ he => ?_) fun entries => ?_
    · exact ⟨he.1, item, List.mem_cons_self, he.2⟩
    · refine Ensures.bind ((ensures_layoutAll items).imp_error ?_) fun _ =>
        Ensures.of_pure fun _ _ => trivial
      rintro e _ ⟨he, body, hmem, hbody⟩
      exact ⟨he, body, List.mem_cons_of_mem _ hmem, hbody⟩

end

end LayoutScope

/-! ## Evaluation -/

/-- A term that may stand where a number is needed means no text, if the same holds of all terms
that names refer to. -/
theorem EvaluationScope.Means.ne_text {scope : EvaluationScope} {t : Term} {o : Option Value}
    (h : scope.Means t o) (hrefers : ∀ name u, scope.Refers name u → u.Apt true)
    (ht : t.Apt true) (content : String) : o ≠ some (.text content) := by
  -- by induction on the derivation, which goes on from a name to the term that it refers to
  induction h with
  | number | undefined | unset | refused => nofun
  | text | textConstant => cases ht
  | numberConstant name => exact Value.map_number_ne_text (f := id)
  | «variable» h _ ih => exact ih (hrefers _ _ (.inl h))
  | lengthOf h _ ih => exact ih (hrefers _ _ (.inr h))
  | parens _ ih => exact ih ht
  | signed | binary | call => exact Value.map_number_ne_text

namespace Deck

variable {d : Deck Term} {t : Term}

/-- An evaluation is endless only without a limit, and only if a record leads back to itself. -/
theorem exists_cycle_of_endless {p : Progress} (hp : p.tripped = false)
    (h : ((d.scope.visit (d.levels t) t).run p).1 = .error .endless) :
    d.limits.evalDepth = 0 ∧ ∃ u ∈ d.symbols.exprs, ¬d.scope.Grounded u := by
  by_cases hlimit : d.limits.evalDepth = 0
  · refine ⟨hlimit, ?_⟩
    -- otherwise the term has a meaning, and there are levels enough to come to it
    by_contra hnone
    push Not at hnone
    obtain ⟨o, hmeans⟩ := exists_means_of_grounded hnone t
    exact (finishes_of_means hlimit hmeans p hp).1 h
  · exact absurd h (EvaluationScope.ne_endless_of_limit hlimit hp)

end Deck

/-! ## The discipline -/

/-- All terms may stand where a number is needed, and all values are numbers. Nothing fails but
the layout of a body with a repetition, and an evaluation without a limit where a record leads back
to itself. -/
def Discipline.numeric (bodies : List Line.Body) : Discipline where
  term t := t.Apt true
  value v := ∃ x, v = .number x
  error d e :=
    match e with
    | .textInArithmetic _ _ => False
    | .lineTooLong limit _ =>
      limit = Line.bound d.limits.lineEntries ∧ ∃ body ∈ bodies, body.Repeats
    | .endless => d.limits.evalDepth = 0 ∧ ∃ t ∈ d.symbols.exprs, ¬d.scope.Grounded t

namespace Discipline

variable {d : Deck Term} {bodies : List Line.Body}

theorem numeric_tracks_lower (hd : d.Obeys (numeric bodies)) {formula : Formula}
    (hformula : formula.Textless) (constantsOnly : Bool) :
    (numeric bodies).Tracks d (Deck.lowerWith constantsOnly formula) (numeric bodies).term := by
  have hconstants (name : Name) (v : Value)
      (h : (d.symbols.loweringScope d.pos constantsOnly).constant? name = some v) :
      ∃ x, v = .number x := by
    obtain ⟨c, hc, rfl⟩ := Option.map_eq_some_iff.1 h
    exact (hd.consts c (Table.mem_of_get? hc)).1
  have hlower := (LoweringScope.admits_textless hformula hconstants).ensures_lower false
  exact tracks_observe (hlower.imp_error fun _ _ he => he.elim)

theorem numeric_tracks_layout {body : Line.Body} (hbody : body ∈ bodies) :
    (numeric bodies).Tracks d (Deck.layout body) fun _ => True := by
  refine tracks_observe ((LayoutScope.ensures_layout _ body).imp_error ?_)
  rintro e _ ⟨rfl, hrepeats⟩
  exact ⟨rfl, body, hbody, hrepeats⟩

/-- What obeys comes to a number, or does not come to an end. -/
theorem numeric_tracks_evaluate (hd : d.Obeys (numeric bodies)) {t : Term} (ht : t.Apt true) :
    (numeric bodies).Tracks d (Deck.evaluate t) (numeric bodies).value := by
  have hrecords : ∀ u ∈ d.symbols.exprs, u.Apt true := fun u => hd.term_of_mem
  have hrefers (name : Name) (u : Term) (h : d.scope.Refers name u) : u.Apt true := by
    rcases h with h | h
    · exact hrecords u (Deck.mem_exprs_of_expr? h)
    · exact hrecords u (Deck.mem_exprs_of_length? (congrArg Option.join h))
  have hfaithful := Deck.faithful_visit (fun u hu => (hrecords u hu).anywhere) ht.anywhere
  rintro ⟨deck, raised⟩ rfl
  rw [Deck.run_evaluate]
  rcases hrun : (deck.scope.visit (deck.levels t) t).run ⟨false, raised⟩ with ⟨e | v, p⟩
  · refine .inr ⟨e, _, rfl, ?_, rfl⟩
    rcases hfaithful.of_run_error trivial hrun with rfl | ⟨name, pos, rfl, hblamed⟩
    · exact Deck.exists_cycle_of_endless rfl (congrArg Prod.fst hrun)
    · -- there is nothing to be blamed
      cases hblamed with
      | constant content htext =>
        obtain ⟨c, hc, hvalue⟩ := Option.map_eq_some_iff.1 htext
        obtain ⟨x, hx⟩ := (hd.consts c (Table.mem_of_get? hc)).1
        cases hx.symm.trans hvalue
      | reference hu hmeans => exact hmeans.ne_text hrefers (hrefers name _ hu) _ rfl
  · refine .inl ⟨v, _, rfl, ?_, rfl⟩
    cases v with
    | number x => exact ⟨x, rfl⟩
    | text content =>
      -- a text would be what the term means, as nothing was cut short on the way to it
      have hp : p.tripped = false := hfaithful.of_run_ok trivial hrun rfl
      have hmeans := (EvaluationScope.finishes_and_means_of_text hp hrun).2
      exact absurd rfl (hmeans.ne_text hrefers ht content)

/-- Formulas without texts keep to numbers, whatever the constants are. -/
theorem numeric_governs {formulas : List Formula}
    (hformulas : ∀ formula ∈ formulas, formula.Textless) {part : List Line.Body}
    (hpart : part ⊆ bodies) (consts : Table (Constant Term)) :
    (numeric bodies).Governs consts formulas part := fun d _ hd =>
  { number := fun x => ⟨x, rfl⟩
    ofValue := by
      rintro _ ⟨x, rfl⟩
      exact trivial
    lower := fun formula hmem => numeric_tracks_lower hd (hformulas formula hmem)
    evaluate := fun _ => numeric_tracks_evaluate hd
    layout := fun _ hbody => numeric_tracks_layout (hpart hbody) }

end Discipline

end Plain

end Beamline
