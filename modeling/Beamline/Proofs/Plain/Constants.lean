import Beamline.Proofs.Plain.Deferral
import Beamline.Proofs.Plain.Lowered
import Beamline.Proofs.Portrait.Meaning

/-!
# Constants and what they depend on

The definition of a constant looks at constants only, unless its formula asks for the length of an
element: every other identifier is lowered to zero. So two decks with the same constants make the
same of it, whatever else they hold.

* `EvaluationScope.SameConstants.visit_eq`: the value of a term that refers to constants only.
* `Deck.mirrors_defineConstant`: the definition on two decks with the same constants.
-/

namespace Beamline

open Source (Position)
open Beamline.Expr (Formula Term)

/-- The term refers to constants only. -/
def Expr.Term.Standalone : Term → Prop
  | .number _ | .text _ | .numberConstant _ | .textConstant _ => True
  | .variable _ | .lengthOf _ => False
  | .parens inner => inner.Standalone
  | .signed _ operand => operand.Standalone
  | .binary _ left right => left.Standalone ∧ right.Standalone
  | .call _ argument => argument.Standalone

/-- What is below a term that refers to constants only does so, too. -/
theorem Expr.Term.Standalone.of_mem_subterms {t u : Term} (ht : t.Standalone)
    (h : u ∈ t.subterms) : u.Standalone :=
  Term.of_mem_subterms (fun _ => id) (fun _ _ => id) (fun _ _ _ => id) (fun _ _ => id) ht h

namespace Plain

/-! ## Lowering -/

namespace LoweringScope

variable {scope other : LoweringScope} {formula : Formula}

/-- Where only constants count, scopes with the same constants lower a formula alike. -/
theorem SameConstants.lower_eq (h : scope.SameConstants other) (honly : scope.constantsOnly = true)
    (hlengths : ∀ raw, .lengthOf raw ∉ formula.leaves) (operand : Bool) :
    scope.lower formula operand = other.lower formula operand := by
  induction formula generalizing operand with
  | number x => rfl
  | text content => rw [lower, lower, h.pos]
  | name raw =>
    rw [lower, lower, classify, classify, h.constant?, h.pos, ← h.constantsOnly, honly]
    rfl
  | lengthOf raw => exact absurd (List.mem_singleton_self _) (hlengths raw)
  | parens inner ih => rw [lower, lower, ih hlengths]
  | signed sign inner ih => rw [lower, lower, ih hlengths]
  | binary op left right ihl ihr =>
    rw [lower, lower, ihl fun raw hmem => hlengths raw (List.mem_append_left _ hmem),
      ihr fun raw hmem => hlengths raw (List.mem_append_right _ hmem)]
  | call f argument ih => rw [lower, lower, ih hlengths]

/-- Where only constants count, the term of a formula refers to nothing else. -/
theorem admits_standalone (honly : scope.constantsOnly = true)
    (hlengths : ∀ raw, .lengthOf raw ∉ formula.leaves) :
    scope.Admits formula (fun _ t => t.Standalone) fun e => e ≠ .endless where
  number _ _ := trivial
  text _ _ := trivial
  refusedText _ _ := nofun
  numberConstant _ _ _ _ := trivial
  textConstant _ _ _ := trivial
  refusedConstant _ _ _ := nofun
  otherName _ _ hall := absurd (honly.symm.trans hall) nofun
  lengthOf _ raw hmem := absurd hmem (hlengths raw)
  parens _ _ h := h
  signed _ _ _ h := h
  binary _ _ _ _ hleft hright := ⟨hleft, hright⟩
  call _ _ _ h := h

end LoweringScope

/-! ## Evaluation -/

namespace EvaluationScope

/-- Both scopes have the same constants, the same position and the same limit. -/
structure SameConstants (scope other : EvaluationScope) : Prop where
  /-- The constants are the same. -/
  constant? : scope.constant? = other.constant?
  /-- The positions are the same. -/
  pos : scope.pos = other.pos
  /-- The limits are the same. -/
  limit : scope.limit = other.limit

variable {scope other : EvaluationScope} {t : Term}

/-- A term that refers to constants only is evaluated alike where the constants are the same. -/
theorem SameConstants.visit_eq (h : scope.SameConstants other) (ht : t.Standalone)
    (levels : Nat) : scope.visit levels t = other.visit levels t := by
  have hconstant (name : Name) : scope.constant name = other.constant name := by
    unfold constant raise
    rw [h.constant?, h.pos]
  induction levels generalizing t with
  | zero =>
    rw [visit, visit]
    unfold exhausted
    rw [h.limit, h.pos]
  | succ levels ih =>
    have hnumber {u : Term} (hu : u.Standalone) :
        scope.number (scope.visit levels) u = other.number (other.visit levels) u := by
      unfold number
      rw [ih hu, h.pos]
    rw [visit, visit]
    congr 1
    cases t with
    | number x => rw [node, node]
    | text content => rw [node, node]
    | numberConstant name => rw [node, node, hconstant, h.pos]
    | textConstant name => exact hconstant name
    | «variable» name => exact ht.elim
    | lengthOf name => exact ht.elim
    | parens inner => exact ih ht
    | signed sign operand => rw [node, node, hnumber (u := operand) ht]
    | binary op left right => rw [node, node, hnumber ht.1, hnumber ht.2]
    | call f argument => rw [node, node, hnumber (u := argument) ht]

/-- A term that refers to constants only needs nothing but what is below it. -/
theorem closed_subterms (ht : t.Standalone) : scope.Closed t.subterms := by
  intro u hu o ho
  have hu' := ht.of_mem_subterms hu
  rcases needs_cases ho with h | ⟨name, rfl, -⟩ | ⟨name, rfl, -⟩
  · exact Term.subterms_subset hu h
  · exact hu'.elim
  · exact hu'.elim

/-- A term that refers to constants only has a meaning. -/
theorem exists_means_of_standalone (ht : t.Standalone) : ∃ o, scope.Means t o := by
  refine exists_means_of_references fun v hv hname => ?_
  have hv' := ht.of_mem_subterms hv
  rcases hname with ⟨name, rfl⟩ | ⟨name, rfl⟩ <;> exact hv'.elim

/-- Without a limit, as many levels as a term has nodes are enough if it refers to constants
only. -/
theorem finishes_of_standalone (ht : t.Standalone) : scope.Finishes t.size t := by
  have hmeans : ∃ o, scope.Means t o := exists_means_of_standalone ht
  obtain ⟨levels, hlevels⟩ := exists_means_iff.1 hmeans
  rw [← t.length_subterms]
  exact hlevels.of_closed (closed_subterms ht) t.mem_subterms_self

end EvaluationScope

/-! ## Two decks with the same constants -/

namespace Deck

/-- Both decks have the same constants, are at the same position and have the same limits. -/
structure SameConstants (d d' : Deck Term) : Prop where
  /-- The constants have the same values. -/
  constant? : d.scope.constant? = d'.scope.constant?
  /-- The positions are the same. -/
  pos : d.pos = d'.pos
  /-- The limits are the same. -/
  limits : d.limits = d'.limits

/-- Both decks at work have the same constants, and both have raised the same. -/
def Level (w w' : Work) : Prop :=
  w.raised = w'.raised ∧ w.deck.SameConstants w'.deck

variable {d d' : Deck Term} {t : Term} {p : Progress}

theorem SameConstants.contains_consts (h : d.SameConstants d') (name : Name) :
    d.symbols.consts.contains name = d'.symbols.consts.contains name := by
  have hname := congrArg Option.isSome (congrFun h.constant? name)
  change ((d.symbols.consts.get? name).map Constant.value).isSome =
    ((d'.symbols.consts.get? name).map Constant.value).isSome at hname
  rwa [Option.isSome_map, Option.isSome_map] at hname

/-- A term that refers to constants only is evaluated alike on both decks, and never without
end. -/
theorem SameConstants.run_visit_eq (h : d.SameConstants d') (ht : t.Standalone)
    (hp : p.tripped = false) :
    (d.scope.visit (d.levels t) t).run p = (d'.scope.visit (d'.levels t) t).run p ∧
      ((d.scope.visit (d.levels t) t).run p).1 ≠ .error .endless := by
  have hscope : d.scope.SameConstants d'.scope :=
    ⟨h.constant?, h.pos, congrArg Limits.evalDepth h.limits⟩
  by_cases hzero : d.limits.evalDepth = 0
  · -- both decks leave more levels than the term has nodes
    have hrun (e : Deck Term) (hzero : e.limits.evalDepth = 0) :
        (e.scope.visit (e.levels t) t).run p = (e.scope.visit t.size t).run p := by
      have hle : t.size ≤ e.levels t := by
        rw [levels, if_pos hzero]
        exact Nat.le_add_left _ _
      have hbelow : EvaluationScope.Below (e.scope.visit t.size t) (e.scope.visit (e.levels t) t) :=
        EvaluationScope.visit_below hle e.scope.limit t
      exact hbelow.run_eq p hp (EvaluationScope.finishes_of_standalone ht p hp)
    rw [hrun d hzero, hrun d' (h.limits ▸ hzero), hscope.visit_eq ht]
    exact ⟨rfl, (EvaluationScope.finishes_of_standalone ht p hp).1⟩
  · have hlevels : d'.levels t = d.levels t := by
      rw [levels, levels, ← h.limits, if_neg hzero, if_neg hzero]
    rw [hlevels, hscope.visit_eq ht, and_iff_right rfl, ← hscope.visit_eq ht]
    exact EvaluationScope.ne_endless_of_limit hzero hp

/-- The steps come to the same result or the same error, which is not that an evaluation is
endless, and the constants are the same afterwards. -/
abbrev Agree {α : Type} (P : Work → Work → Prop) (a b : Action α)
    (Q : α → Work → Work → Prop) : Prop :=
  Mirrors P a b (fun x y w w' => x = y ∧ Q x w w')
    fun e e' w w' => (e = e' ∧ e ≠ .endless) ∧ w.deck.SameConstants w'.deck

theorem agree_lowerConstant {formula : Formula}
    (hlengths : ∀ raw, .lengthOf raw ∉ formula.leaves) :
    Agree Level (lowerWith true formula) (lowerWith true formula)
      fun t w w' => t.Standalone ∧ Level w w' := by
  rintro w w' ⟨hraised, hsame⟩
  let scope := w.deck.symbols.loweringScope w.deck.pos true
  have hscope : scope.SameConstants (w'.deck.symbols.loweringScope w'.deck.pos true) :=
    ⟨hsame.constant?, hsame.pos, rfl⟩
  rw [lowerWith, run_observe, run_observe, ← hscope.lower_eq rfl hlengths false, ← hraised]
  rcases (scope.admits_standalone rfl hlengths).ensures_lower false w.raised trivial with
    ⟨t, raised, hrun, ht⟩ | ⟨e, raised, hrun, he⟩
  · rw [hrun]
    exact .inl ⟨t, t, _, _, rfl, rfl, rfl, ht, rfl, hsame⟩
  · rw [hrun]
    exact .inr ⟨e, e, _, _, rfl, rfl, ⟨rfl, he⟩, hsame⟩

theorem agree_evaluate (ht : t.Standalone) :
    Agree Level (evaluate t) (evaluate t) fun _ => Level := by
  rintro w w' ⟨hraised, hsame⟩
  obtain ⟨hrun, hend⟩ := hsame.run_visit_eq ht (p := ⟨false, w.raised⟩) rfl
  rw [run_evaluate, run_evaluate, ← hraised, ← hrun]
  rcases hvisit : (w.deck.scope.visit (w.deck.levels t) t).run ⟨false, w.raised⟩ with ⟨e | v, q⟩
  · rw [hvisit] at hend
    exact .inr ⟨e, e, _, _, rfl, rfl, ⟨rfl, fun h => hend (congrArg Except.error h)⟩, hsame⟩
  · exact .inl ⟨v, v, _, _, rfl, rfl, rfl, rfl, hsame⟩

/-- What is done with both decks as they are. -/
theorem agree_current {α : Type} {P : Work → Work → Prop} {f g : Deck Term → Action α}
    {Q : α → Work → Work → Prop}
    (h : ∀ d d', Agree (fun w w' => (w.deck = d ∧ w'.deck = d') ∧ P w w') (f d) (g d') Q) :
    Agree P (current >>= f) (current >>= g) Q :=
  fun w w' hw => h w.deck w'.deck w w' ⟨⟨rfl, rfl⟩, hw⟩

theorem agree_raise (condition : Diagnostic.Condition) :
    Agree Level (raise condition) (raise condition) fun _ => Level := by
  refine Mirrors.of_modify fun w w' ⟨hraised, hsame⟩ => ⟨rfl, ?_, hsame⟩
  change w.raised.push _ = w'.raised.push _
  rw [hraised, hsame.pos]

theorem constant?_insert (d : Deck Term) (record : Constant Term) (name : Name) :
    (({ d with symbols := { d.symbols with
      consts := d.symbols.consts.insert record } } : Deck Term)).scope.constant? name =
        if name = record.name then some record.value else d.scope.constant? name := by
  change ((d.symbols.consts.insert record).get? name).map Constant.value = _
  rw [Table.get?_insert, apply_ite (Option.map Constant.value)]
  rfl

/-- The same constant is stored on both decks. -/
theorem agree_insertConstant (record : Constant Term) :
    Agree Level (insertConstant record) (insertConstant record) fun _ w w' =>
      w.deck.SameConstants w'.deck ∧ (w.deck.scope.constant? record.name).isSome = true := by
  refine Mirrors.of_modify fun w w' ⟨_, hsame⟩ =>
    ⟨rfl, ⟨funext fun name => ?_, hsame.pos, hsame.limits⟩, ?_⟩
  · refine (constant?_insert w.deck record name).trans ?_
    rw [hsame.constant?]
    exact (constant?_insert w'.deck record name).symm
  · refine (congrArg Option.isSome (constant?_insert w.deck record record.name)).trans ?_
    rw [if_pos rfl]
    rfl

/-- On decks with the same constants a constant is defined alike, unless its formula asks for a
length: the definition ends in the same error, or the same value is stored. -/
theorem agree_defineConstant {raw : String} {formula : Formula}
    (hlengths : ∀ raw, .lengthOf raw ∉ formula.leaves) :
    Agree
      (fun w w' => (w.deck.symbols.vars.contains (Name.ofText raw) = false ∧
        w'.deck.symbols.vars.contains (Name.ofText raw) = false) ∧ Level w w')
      (defineConstant raw formula) (defineConstant raw formula)
      fun _ w w' => w.deck.SameConstants w'.deck ∧
        (w.deck.scope.constant? (Name.ofText raw)).isSome = true := by
  refine agree_current fun d d' => ?_
  rintro w w' ⟨⟨rfl, rfl⟩, ⟨hvars, hvars'⟩, hlevel⟩
  -- the name is taken by no variable, so that the formula is looked at on both decks
  rw [hvars, hvars']
  refine ((agree_lowerConstant hlengths).bind fun t u => ?_) w w' hlevel
  refine Mirrors.of_and fun htu => Mirrors.of_and fun ht => ?_
  subst htu
  refine (agree_evaluate ht).bind_eq fun value => agree_current fun d d' => ?_
  rintro w w' ⟨⟨rfl, rfl⟩, hlevel⟩
  -- either both warn about a redefinition or neither does
  rw [← hlevel.2.contains_consts, ← hlevel.2.pos]
  let record : Constant Term := ⟨Name.ofText raw, value, t, w.deck.pos⟩
  have hinsert := agree_insertConstant record
  cases w.deck.symbols.consts.contains (Name.ofText raw) with
  | true => exact ((agree_raise _).bind_eq fun _ => hinsert) w w' hlevel
  | false => exact hinsert w w' hlevel

end Deck

end Plain

end Beamline
