import Beamline.Evaluator
import Beamline.Lowerer
import Beamline.Proofs.Mirror

/-!
# Formulas do not listen to the console

Lowering and evaluation report to a console while they are at work, and get an answer to each
report. The versions without a console keep a list of what they would report. Both come to the same:
to the same result or error and to the same stored nodes, and the console has been told what is on
the list, in order. Nothing in between depends on what the console has kept, counted or answered.

* `Lowerer.agree_lower`: of storing a formula.
* `Evaluator.agree_evaluate`, `Evaluator.agree_evaluateNumber`: of evaluating a stored expression.
-/

namespace Beamline

open Diagnostic (Condition Console)
open Beamline.Expr (Formula Node NodeId)

/-! ## Agreement -/

section Agreement

variable {ε σ τ α β : Type} {R : σ → τ → Prop} {a : ExceptT ε (StateM σ) α}
  {b : ExceptT ε (StateM τ) α}

/-- From states related by `R`, the steps come to the same result or to the same error, and to
states related by `R`. -/
abbrev Agree (R : σ → τ → Prop) (a : ExceptT ε (StateM σ) α) (b : ExceptT ε (StateM τ) α) : Prop :=
  Mirrors R a b (fun x y s t => x = y ∧ R s t) fun e d s t => e = d ∧ R s t

namespace Agree

theorem of_pure (x : α) : Agree R (pure x : ExceptT ε (StateM σ) α) (pure x) :=
  Mirrors.of_pure fun _ _ h => ⟨rfl, h⟩

theorem of_throw (e : ε) :
    Agree R (throw e : ExceptT ε (StateM σ) α) (throw e : ExceptT ε (StateM τ) α) :=
  Mirrors.of_throw fun _ _ h => ⟨rfl, h⟩

theorem bind {f : α → ExceptT ε (StateM σ) β} {g : α → ExceptT ε (StateM τ) β} (h : Agree R a b)
    (hf : ∀ x, Agree R (f x) (g x)) : Agree R (a >>= f) (b >>= g) :=
  Mirrors.bind_eq h hf

theorem map (f : α → β) (h : Agree R a b) : Agree R (f <$> a) (f <$> b) :=
  Mirrors.map (h.imp (fun _ _ => id) (fun _ _ _ _ hxy => ⟨congrArg f hxy.1, hxy.2⟩)
    fun _ _ _ _ => id)

theorem ite {c : Prop} [Decidable c] {a' : ExceptT ε (StateM σ) α} {b' : ExceptT ε (StateM τ) α}
    (ht : Agree R a b) (hf : Agree R a' b') :
    Agree R (if c then a else a') (if c then b else b') :=
  Mirrors.ite Iff.rfl (fun _ => ht) fun _ => hf

theorem discarded {b : ExceptT ε (StateM τ) PUnit}
    (h : Mirrors R a b (fun _ _ => R) fun e d s t => e = d ∧ R s t) :
    Agree R (discard a) b :=
  Mirrors.discarded (h.imp (fun _ _ => id) (fun _ _ _ _ hr => ⟨rfl, hr⟩) fun _ _ _ _ => id)

theorem foldlM {ι : Type} {f : α → ι → ExceptT ε (StateM σ) α} {g : α → ι → ExceptT ε (StateM τ) α}
    (h : ∀ x item, Agree R (f x item) (g x item)) (items : List ι) (x : α) :
    Agree R (items.foldlM f x) (items.foldlM g x) := by
  induction items generalizing x with
  | nil => exact of_pure x
  | cons item items ih =>
    rw [List.foldlM_cons, List.foldlM_cons]
    exact (h x item).bind ih

end Agree

end Agreement

/-! ## Lowering -/

namespace Lowerer

open Lowering (Draft Scope)

variable {c : Console}

/-- The lowerer has stored what the draft has, and its console is `c` after it was told what the
draft has raised. -/
structure Told (c : Console) (lowerer : Lowerer) (draft : Draft) : Prop where
  /-- The stored nodes. -/
  forest : lowerer.forest = draft.forest
  /-- What the console was told. -/
  console : lowerer.console = c.reportAll draft.raised.toList

theorem agree_report (scope : Scope) (condition : Condition) :
    Agree (Told c) (discard (report scope condition)) (Lowering.raise scope condition) := by
  -- the answer of the console is dropped, whatever it is
  refine Agree.discarded fun lowerer draft h => ?_
  refine .inl ⟨_, ⟨⟩, _, _, run_report scope condition lowerer, rfl, h.forest, ?_⟩
  exact h.console ▸ (Console.reportAll_push ..).symm

theorem agree_alloc (node : Node) : Agree (Told c) (alloc node) (Lowering.alloc node) := by
  intro lowerer draft h
  refine .inl ⟨_, _, _, _, rfl, rfl, ?_, ?_, h.console⟩
  · rw [h.forest]
  · rw [h.forest]

theorem agree_classify (scope : Scope) (name : Name) (arithmetic : Bool) :
    Agree (Told c) (classify scope name arithmetic) (Lowering.classify scope name arithmetic) := by
  unfold classify Lowering.classify
  cases scope.symbols.consts.get? name with
  | some constant =>
    refine Agree.ite (Agree.of_pure _) ?_
    exact Agree.ite (Agree.of_throw _) (Agree.of_pure _)
  | none =>
    -- after a report the node is the one that it would be without it
    refine Agree.ite ((agree_report scope _).bind fun _ => Agree.of_pure _) ?_
    exact Agree.ite (Agree.of_pure _) ((agree_report scope _).bind fun _ => Agree.of_pure _)

/-- Storing a formula with a console comes to what storing it comes to. -/
theorem agree_lower (scope : Scope) (formula : Formula) (arithmetic : Bool) :
    Agree (Told c) (lower scope formula arithmetic) (Lowering.lower scope formula arithmetic) := by
  -- by induction on the formula: the reports on one part are made before the next is stored
  induction formula generalizing arithmetic with
  | number x => exact agree_alloc _
  | text content =>
    exact Agree.ite ((Agree.of_throw _).bind fun _ => agree_alloc _) (agree_alloc _)
  | name raw => exact (agree_classify scope _ arithmetic).bind agree_alloc
  | lengthOf raw =>
    exact Agree.ite (agree_alloc _) ((agree_report scope _).bind fun _ => agree_alloc _)
  | parens inner ih => exact (ih arithmetic).bind fun id => agree_alloc _
  | signed sign operand ih => exact (ih true).bind fun id => agree_alloc _
  | binary op left right ihl ihr =>
    exact (ihl true).bind fun l => (ihr true).bind fun r => agree_alloc _
  | call f argument ih => exact (ih true).bind fun id => agree_alloc _

end Lowerer

/-! ## Evaluation -/

namespace Evaluator

open Evaluation (Scope)

variable {c : Console} {scope : Scope}

/-- Both evaluations have come to the same depth, and the console is `c` after it was told what the
evaluation without a console has raised. -/
structure Told (c : Console) (e : Evaluator) (plain : Evaluation) : Prop where
  /-- The levels entered and not left. -/
  nesting : e.nesting = plain.nesting
  /-- Whether the limit was reached. -/
  tripped : e.tripped = plain.tripped
  /-- What the console was told. -/
  console : e.console = c.reportAll plain.raised.toList

theorem Told.leave {e : Evaluator} {plain : Evaluation} (h : Told c e plain) :
    Told c { e with nesting := e.nesting.leave } { plain with nesting := plain.nesting.leave } :=
  ⟨congrArg Nesting.leave h.nesting, h.tripped, h.console⟩

theorem agree_report (condition : Condition) :
    Agree (Told c) (discard (report scope condition)) (Evaluation.raise scope condition) := by
  refine Agree.discarded fun e plain h => ?_
  refine .inl ⟨_, ⟨⟩, _, _, run_report scope condition e, rfl, h.nesting, h.tripped, ?_⟩
  exact h.console ▸ (Console.reportAll_push ..).symm

/-- What is reported on both sides counts as zero on both. -/
theorem agree_missing (scope : Scope) (condition : Condition) :
    Agree (Told c) (missing scope condition)
      (do
        Evaluation.raise scope condition
        return Value.zero) :=
  (agree_report condition).bind fun _ => Agree.of_pure _

theorem agree_constant (name : Name) :
    Agree (Told c) (constant scope name) (Evaluation.constant scope name) := by
  unfold constant Evaluation.constant
  cases scope.symbols.consts.get? name with
  | some record => exact Agree.of_pure _
  | none => exact agree_missing _ _

/-- At the limit there is a report on both sides, and none of the steps is run. -/
theorem agree_deeper {step : Step Value} {plainStep : Evaluation.Step Value}
    (h : Agree (Told c) step plainStep) :
    Agree (Told c) (deeper scope step) (Evaluation.deeper scope plainStep) := by
  intro e plain he
  rw [run_deeper, Evaluation.run_deeper, ← he.tripped, ← he.nesting]
  by_cases htripped : e.tripped = true
  · -- nothing more is reported once the limit was reached
    rw [if_pos htripped, if_pos htripped]
    exact .inl ⟨_, _, e, plain, rfl, rfl, rfl, he⟩
  · rw [if_neg htripped, if_neg htripped]
    cases e.nesting.enter with
    | error exceeded =>
      exact agree_missing scope _ { e with tripped := true }
        { plain with nesting := e.nesting, tripped := true } ⟨rfl, rfl, he.console⟩
    | ok nesting =>
      -- the level is left again on both sides, be it with a result or with an error
      have hinner : Told c { e with nesting } { plain with tripped := e.tripped, nesting } :=
        ⟨rfl, rfl, he.console⟩
      dsimp only
      rcases h _ _ hinner with
        ⟨x, y, e', plain', ha, hb, hxy, hr⟩ | ⟨d, d', e', plain', ha, hb, hd, hr⟩
      · rw [ha, hb]
        exact .inl ⟨x, y, _, _, rfl, rfl, hxy, hr.leave⟩
      · rw [ha, hb]
        exact .inr ⟨d, d', _, _, rfl, rfl, hd, hr.leave⟩

section Nodes

variable {visit : NodeId → Step Value} {plainVisit : NodeId → Evaluation.Step Value}
  (h : ∀ id, Agree (Told c) (visit id) (plainVisit id))
include h

theorem agree_number (id : NodeId) :
    Agree (Told c) (number scope visit id) (Evaluation.number scope plainVisit id) := by
  refine (h id).bind fun value => ?_
  cases value with
  | number x => exact Agree.of_pure x
  -- whom to blame is read off the forest, not off the console
  | text content => exact Agree.of_throw _

theorem agree_node (n : Node) :
    Agree (Told c) (node scope visit n) (Evaluation.node scope plainVisit n) := by
  cases n with
  | number x => exact Agree.of_pure _
  | text content => exact Agree.of_pure _
  | numberConstant name =>
    refine (agree_constant name).bind fun value => ?_
    cases value with
    | number x => exact Agree.of_pure _
    | text content => exact Agree.of_throw _
  | textConstant name => exact agree_constant name
  | «variable» name =>
    rw [node, Evaluation.node]
    cases scope.symbols.vars.get? name with
    | some record => exact h record.expr
    | none => exact agree_missing _ _
  | lengthOf name =>
    rw [node, Evaluation.node]
    cases scope.symbols.elements.get? name with
    | none => exact agree_missing _ _
    | some record =>
      dsimp only
      cases record.length? with
      | some length => exact h length
      | none => exact Agree.of_pure _
  | parens inner => exact h inner
  | signed sign operand => exact (agree_number h operand).bind fun _ => Agree.of_pure _
  | binary op left right =>
    refine (agree_number h left).bind fun _ => ?_
    exact (agree_number h right).bind fun _ => Agree.of_pure _
  | call f argument => exact (agree_number h argument).bind fun _ => Agree.of_pure _

end Nodes

theorem agree_visitWithin (levels : Nat) (id : NodeId) :
    Agree (Told c) (visitWithin scope levels id) (Evaluation.visitWithin scope levels id) := by
  -- by induction on the levels left, of which each node takes one
  induction levels generalizing id with
  | zero => exact Agree.of_throw _
  | succ levels ih =>
    refine agree_deeper ?_
    cases scope.forest.get? id with
    | some n => exact agree_node ih n
    | none => exact Agree.of_throw _

/-- As many levels are given to both sides, by the limit of the nesting, which they share. -/
theorem agree_visit (id : NodeId) :
    Agree (Told c) (visit scope id) (Evaluation.visit scope id) := by
  intro e plain he
  have hplain : (Evaluation.visit scope id).run plain =
      (Evaluation.visitWithin scope (Evaluation.levels scope e.nesting.limit) id).run plain := by
    rw [he.nesting]
    rfl
  rw [hplain]
  exact agree_visitWithin (Evaluation.levels scope e.nesting.limit) id e plain he

theorem agree_begin : Agree (Told c) begin Evaluation.begin :=
  fun _ _ he => .inl ⟨⟨⟩, ⟨⟩, _, _, rfl, rfl, rfl, he.nesting, rfl, he.console⟩

/-- Evaluating a stored expression with a console comes to what evaluating it comes to. -/
theorem agree_evaluate (id : NodeId) :
    Agree (Told c) (evaluate scope id) (Evaluation.evaluate scope id) :=
  agree_begin.bind fun _ => agree_visit id

theorem agree_evaluateNumber (id : NodeId) :
    Agree (Told c) (evaluateNumber scope id) (Evaluation.evaluateNumber scope id) :=
  agree_begin.bind fun _ => agree_number agree_visit id

/-- The evaluation with a console that was told what it has raised. -/
def ofTold (c : Console) (plain : Evaluation) : Evaluator where
  nesting := plain.nesting
  tripped := plain.tripped
  console := c.reportAll plain.raised.toList

theorem Told.eq_ofTold {e : Evaluator} {plain : Evaluation} (h : Told c e plain) :
    e = ofTold c plain := by
  obtain ⟨nesting, tripped, console⟩ := e
  obtain ⟨rfl, rfl, rfl⟩ := h
  rfl

/-- Steps that agree do the same, and what the ones raise the others report. -/
theorem run_of_agree {α : Type} {step : Step α} {plainStep : Evaluation.Step α}
    (h : Agree (Told c) step plainStep) (plain : Evaluation) :
    step.run (ofTold c plain) =
      ((plainStep.run plain).1, ofTold c (plainStep.run plain).2) := by
  rcases h (ofTold c plain) plain ⟨rfl, rfl, rfl⟩ with
    ⟨x, y, e, plain', ha, hb, rfl, htold⟩ | ⟨d, d', e, plain', ha, hb, rfl, htold⟩
  · rw [ha, hb, htold.eq_ofTold]
  · rw [ha, hb, htold.eq_ofTold]

end Evaluator

end Beamline
