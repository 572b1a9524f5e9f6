import Beamline.Evaluation
import Beamline.Proofs.Grove.Basic
import Beamline.Proofs.Mirror
import Beamline.Proofs.Plain.Evaluation

/-!
# Evaluation in a grove

The evaluation of a stored tree goes through the same steps as that of its term: it looks up the
same names, enters and leaves the same levels and raises the same warnings.

* `Evaluation.mirrors_node`: a node mirrors its term, if what lies below it does.
* `Evaluation.mirrors_visitWithin`: a stored tree mirrors its term.
-/

namespace Beamline

open Beamline.Expr (Forest Node NodeId Term Tree)
open Diagnostic (Condition)

/-! ## Blame -/

/-- What is blamed for a text is read off the nodes. -/
theorem Evaluation.blame_root {forest : Forest} {t : Tree} (h : forest.Stands t)
    (content : String) {levels : Nat} (hl : t.size ≤ levels) :
    blame forest content levels t.root = t.term.blame content := by
  induction t using Tree.induction_on_operands generalizing levels with
  | h t ih =>
    have hpos : 0 < t.size := by
      rw [t.size_eq]
      exact Nat.succ_pos _
    obtain ⟨levels, rfl⟩ : ∃ n, levels = n + 1 := ⟨levels - 1, by omega⟩
    rw [blame, h.get?_root]
    -- parentheses pass the blame on to what they hold
    cases t with
    | parens id inner =>
      have hinner : inner ∈ (Tree.parens id inner).operands := by simp [Tree.operands]
      have hlt := Tree.size_lt_of_mem_operands hinner
      exact ih inner hinner (h.of_mem_operands hinner) (by omega)
    | _ => rfl

namespace Evaluation

/-! ## Scopes -/

/-- The tree stands in the forest of the scope. -/
structure Scope.Holds (scope : Scope) (t : Tree) : Prop where
  /-- Each node lies behind its handle. -/
  stands : scope.forest.Stands t
  /-- The forest has at least the nodes of the tree. -/
  size_le : t.size ≤ scope.forest.size

theorem Scope.Holds.of_mem_operands {scope : Scope} {t o : Tree} (h : scope.Holds t)
    (ho : o ∈ t.operands) : scope.Holds o where
  stands := h.stands.of_mem_operands ho
  size_le := Nat.le_trans (Nat.le_of_lt (Tree.size_lt_of_mem_operands ho)) h.size_le

/-- What an evaluation looks up in the scope is what it looks up in the plain scope. -/
structure Scope.Agrees (scope : Scope) (plain : Plain.EvaluationScope) : Prop where
  /-- The constants have the same values. -/
  constant? : ∀ name, (scope.symbols.consts.get? name).map Constant.value = plain.constant? name
  /-- The variables have the trees of the same terms. -/
  expr? : ∀ name,
    (scope.symbols.vars.get? name = none ∧ plain.expr? name = none) ∨
      ∃ record t, scope.symbols.vars.get? name = some record ∧
        plain.expr? name = some t.term ∧ t.root = record.expr ∧ scope.Holds t
  /-- The elements have the same lengths. -/
  length? : ∀ name,
    (scope.symbols.elements.get? name = none ∧ plain.length? name = none) ∨
      (∃ record, scope.symbols.elements.get? name = some record ∧ record.length? = none ∧
        plain.length? name = some none) ∨
      ∃ record t, scope.symbols.elements.get? name = some record ∧
        record.length? = some t.root ∧ plain.length? name = some (some t.term) ∧ scope.Holds t
  /-- The position is the same. -/
  pos : scope.pos = plain.pos

/-! ## States -/

/-- Both evaluations have come equally far, with the given number of levels left. Without a limit
no evaluation is ever cut short. -/
structure Alike (limit levels : Nat) (e : Evaluation) (p : Plain.Progress) : Prop where
  /-- Both or neither were cut short. -/
  tripped : e.tripped = p.tripped
  /-- Both have raised the same. -/
  raised : e.raised = p.raised
  /-- The nesting has the limit. -/
  limit_eq : e.nesting.limit = limit
  /-- The levels entered and those left make up the limit. -/
  depth : if limit = 0 then p.tripped = false else e.nesting.depth + levels = limit

/-- Both evaluations came to the same result and are equally far. -/
def Returned {α : Type} (limit levels : Nat) (x y : α) (e : Evaluation) (p : Plain.Progress) :
    Prop :=
  x = y ∧ Alike limit levels e p

/-- The errors correspond. An evaluation without end is only met where there is no limit. -/
def Corresponds (limit : Nat) (e : FatalError) (d : Plain.Error) : Prop :=
  e = d.fatal ∧ d ≠ .endless ∨ limit = 0 ∧ d = .endless ∧ ∃ h, e = .fault (.endless h)

/-- Both evaluations ended in the same error and raised the same before. -/
def Failed (limit : Nat) (e : FatalError) (d : Plain.Error) (s : Evaluation)
    (p : Plain.Progress) : Prop :=
  Corresponds limit e d ∧ s.raised = p.raised

variable {scope : Scope} {plain : Plain.EvaluationScope} {limit levels : Nat}

theorem mirrors_raise (hagree : scope.Agrees plain) (condition : Condition) :
    Mirrors (Alike limit levels) (raise scope condition) (plain.raise condition)
      (fun _ _ => Alike limit levels) (Failed limit) := by
  refine Mirrors.of_modify fun e p hs => { hs with raised := ?_ }
  change e.raised.push _ = p.raised.push _
  rw [hs.raised, hagree.pos]

theorem mirrors_return {α : Type} (x : α) :
    Mirrors (Alike limit levels) (pure x : Step α) (pure x : Plain.EvaluationScope.Step α)
      (Returned limit levels) (Failed limit) :=
  Mirrors.of_pure fun _ _ hs => ⟨rfl, hs⟩

theorem mirrors_textInArithmetic (hagree : scope.Agrees plain) {α : Type} (symbol : String) :
    Mirrors (Alike limit levels)
      (throw (.textInArithmetic symbol scope.pos) : Step α)
      (throw (.textInArithmetic symbol plain.pos) : Plain.EvaluationScope.Step α)
      (Returned limit levels) (Failed limit) := by
  refine Mirrors.of_throw fun _ _ hs => ⟨.inl ⟨?_, nofun⟩, hs.raised⟩
  rw [hagree.pos]
  rfl

/-! ## Depth -/

theorem run_deeper_of_tripped (scope : Scope) (step : Step Value) {e : Evaluation}
    (h : e.tripped = true) : (deeper scope step).run e = (.ok .zero, e) := by
  rw [run_deeper, if_pos h]

theorem run_deeper_of_enter (scope : Scope) (step : Step Value) {e : Evaluation}
    {nesting : Nesting} (h : e.tripped = false) (henter : e.nesting.enter = .ok nesting) :
    (deeper scope step).run e =
      ((step.run { e with nesting }).1,
        { (step.run { e with nesting }).2 with
          nesting := (step.run { e with nesting }).2.nesting.leave }) := by
  rw [run_deeper, if_neg (by rw [h]; decide), henter]

theorem run_deeper_of_exceeded (scope : Scope) (step : Step Value) {e : Evaluation}
    {exceeded : Nesting.Exceeded} (h : e.tripped = false)
    (henter : e.nesting.enter = .error exceeded) :
    (deeper scope step).run e =
      (.ok .zero,
        { e with
          tripped := true
          raised := e.raised.push
            ((Condition.nestingTooDeep exceeded.limit).diagnostic scope.pos) }) := by
  rw [run_deeper, if_neg (by rw [h]; decide), henter]

/-- While a level is left it can be entered. -/
theorem Alike.enter {e : Evaluation} {p : Plain.Progress} (h : Alike limit (levels + 1) e p) :
    ∃ nesting, e.nesting.enter = .ok nesting ∧ Alike limit levels { e with nesting } p := by
  have hdepth := h.depth
  -- without a limit it is never full; with one, a level left is one below the limit
  have hfull : ¬(0 < limit ∧ limit ≤ e.nesting.depth) := by
    split at hdepth <;> omega
  refine ⟨{ e.nesting with depth := e.nesting.depth + 1 }, ?_, { h with depth := ?_ }⟩
  · simp only [Nesting.enter, Nesting.isFull, h.limit_eq, Bool.and_eq_true, decide_eq_true_eq,
      if_neg hfull]
  · split
    · rwa [if_pos ‹_›] at hdepth
    · rw [if_neg ‹_›] at hdepth
      change e.nesting.depth + 1 + levels = limit
      omega

/-- After a level that was entered it can be left. -/
theorem Alike.leave {e : Evaluation} {p : Plain.Progress} (h : Alike limit levels e p)
    (hlevels : limit ≠ 0 → levels < limit) :
    Alike limit (levels + 1) { e with nesting := e.nesting.leave } p := by
  have hdepth := h.depth
  refine { h with depth := ?_ }
  split
  · rwa [if_pos ‹_›] at hdepth
  · rename_i hne
    rw [if_neg hne] at hdepth
    have := hlevels hne
    change e.nesting.depth - 1 + (levels + 1) = limit
    omega

/-- A step one level deeper mirrors a step that is run unless no level was left before. -/
theorem mirrors_deeper (scope : Scope) {step : Step Value}
    {plainStep : Plain.EvaluationScope.Step Value}
    (h : Mirrors (Alike limit levels) step plainStep (Returned limit levels) (Failed limit)) :
    Mirrors (Alike limit (levels + 1)) (deeper scope step)
      (Plain.EvaluationScope.unlessTripped plainStep) (Returned limit (levels + 1))
      (Failed limit) := by
  intro e p hs
  -- what was cut short runs neither step; otherwise both run, one inside a level
  cases htripped : p.tripped with
  | true =>
    have hright := Plain.EvaluationScope.run_unlessTripped_of_tripped plainStep htripped
    have hleft := run_deeper_of_tripped scope step (hs.tripped.trans htripped)
    exact .inl ⟨_, _, _, _, hleft, hright, rfl, hs⟩
  | false =>
    have hright := Plain.EvaluationScope.run_unlessTripped_of_not_tripped plainStep htripped
    obtain ⟨nesting, henter, hinner⟩ := hs.enter
    rw [run_deeper_of_enter scope step (hs.tripped.trans htripped) henter, hright]
    rcases h _ p hinner with ⟨x, y, e', p', ha, hb, hxy, hs'⟩ | ⟨err, d, e', p', ha, hb, herr⟩
    · rw [ha, hb]
      refine .inl ⟨x, y, _, p', rfl, rfl, hxy, hs'.leave fun hne => ?_⟩
      have hdepth := hs.depth
      rw [if_neg hne] at hdepth
      omega
    · rw [ha, hb]
      exact .inr ⟨err, d, _, p', rfl, rfl, herr⟩

/-- At the limit no step is run. -/
theorem mirrors_exhausted (hagree : scope.Agrees plain) (hlimit : plain.limit ≠ 0)
    (step : Step Value) :
    Mirrors (Alike plain.limit 0) (deeper scope step) plain.exhausted
      (Returned plain.limit 0) (Failed plain.limit) := by
  intro e p hs
  have hdepth := hs.depth
  rw [if_neg hlimit] at hdepth
  cases htripped : p.tripped with
  | true =>
    have hright := plain.run_exhausted_of_tripped htripped
    have hleft := run_deeper_of_tripped scope step (hs.tripped.trans htripped)
    exact .inl ⟨_, _, _, _, hleft, hright, rfl, hs⟩
  | false =>
    have hright := plain.run_exhausted_of_limited htripped hlimit
    -- all levels are entered, so that the nesting is full
    have henter : e.nesting.enter = .error ⟨plain.limit⟩ := by
      have hfull : 0 < plain.limit ∧ plain.limit ≤ e.nesting.depth := by omega
      simp only [Nesting.enter, Nesting.isFull, hs.limit_eq, Bool.and_eq_true, decide_eq_true_eq,
        if_pos hfull]
    have hleft := run_deeper_of_exceeded scope step (hs.tripped.trans htripped) henter
    refine .inl ⟨_, _, _, _, hleft, hright, rfl, rfl, ?_, hs.limit_eq, ?_⟩
    · rw [hs.raised, hagree.pos]
    · rwa [if_neg hlimit]

/-! ## Nodes -/

section Nodes

variable {visit : NodeId → Step Value} {plainVisit : Term → Plain.EvaluationScope.Step Value}
  (hagree : scope.Agrees plain)
  (hvisit : ∀ t : Tree, scope.Holds t → Mirrors (Alike limit levels) (visit t.root)
    (plainVisit t.term) (Returned limit levels) (Failed limit))
include hagree

theorem mirrors_constant (name : Name) :
    Mirrors (Alike limit levels) (constant scope name) (plain.constant name)
      (Returned limit levels) (Failed limit) := by
  unfold constant Plain.EvaluationScope.constant
  rw [← hagree.constant?]
  cases scope.symbols.consts.get? name with
  | some record => exact mirrors_return record.value
  | none => exact (mirrors_raise hagree _).bind fun _ _ => mirrors_return Value.zero

include hvisit

theorem mirrors_number {t : Tree} (ht : scope.Holds t) :
    Mirrors (Alike limit levels) (number scope visit t.root) (plain.number plainVisit t.term)
      (Returned limit levels) (Failed limit) := by
  refine (hvisit t ht).bind_eq fun x => ?_
  cases x with
  | number x => exact mirrors_return x
  | text content =>
    have hblame := blame_root ht.stands content (Nat.le_succ_of_le ht.size_le)
    dsimp only
    rw [hblame]
    exact mirrors_textInArithmetic hagree _

/-- A node mirrors its term, if what lies below it and what it refers to does. -/
theorem mirrors_node {t : Tree} (ht : scope.Holds t) :
    Mirrors (Alike limit levels) (node scope visit t.node) (plain.node plainVisit t.term)
      (Returned limit levels) (Failed limit) := by
  have hnumber {o : Tree} (ho : o ∈ t.operands) :=
    mirrors_number hagree hvisit (ht.of_mem_operands ho)
  cases t with
  | number id x => exact mirrors_return (Value.number x)
  | text id content => exact mirrors_return (Value.text content)
  | numberConstant id name =>
    refine (mirrors_constant hagree name).bind_eq fun x => ?_
    cases x with
    | number x => exact mirrors_return (Value.number x)
    | text content => exact mirrors_textInArithmetic hagree name.text
  | textConstant id name => exact mirrors_constant hagree name
  | «variable» id name =>
    rw [Expr.Tree.node, Tree.term, node, Plain.EvaluationScope.node]
    rcases hagree.expr? name with ⟨hrecord, hterm⟩ | ⟨record, o, hrecord, hterm, hroot, ho⟩
    · simp only [hterm, hrecord]
      exact (mirrors_raise hagree _).bind fun _ _ => mirrors_return Value.zero
    · simp only [hterm, hrecord, ← hroot]
      exact hvisit o ho
  | lengthOf id name =>
    rw [Expr.Tree.node, Tree.term, node, Plain.EvaluationScope.node]
    rcases hagree.length? name with ⟨hrecord, hterm⟩ | ⟨record, hrecord, hlength, hterm⟩ |
      ⟨record, o, hrecord, hlength, hterm, ho⟩
    -- no such element, no length set, a length set
    · simp only [hterm, hrecord]
      exact (mirrors_raise hagree _).bind fun _ _ => mirrors_return Value.zero
    · simp only [hterm, hrecord, hlength]
      exact mirrors_return Value.zero
    · simp only [hterm, hrecord, hlength]
      exact hvisit o ho
  | parens id inner => exact hvisit inner (ht.of_mem_operands (by simp [Tree.operands]))
  | signed id sign operand =>
    exact (hnumber (by simp [Tree.operands])).bind_eq fun x => mirrors_return _
  | binary id op left right =>
    -- left before right, so that the warnings come in the same order
    refine (hnumber (by simp [Tree.operands])).bind_eq fun x => ?_
    exact (hnumber (by simp [Tree.operands])).bind_eq fun y => mirrors_return _
  | call id f argument =>
    exact (hnumber (by simp [Tree.operands])).bind_eq fun x => mirrors_return _

end Nodes

/-! ## Stored trees -/

/-- A stored tree mirrors its term. With a limit the nodes take one level more, at which the limit
takes effect. -/
theorem mirrors_visitWithin (hagree : scope.Agrees plain) {t : Tree} (ht : scope.Holds t) :
    Mirrors (Alike plain.limit levels)
      (visitWithin scope (levels + if plain.limit = 0 then 0 else 1) t.root)
      (plain.visit levels t.term) (Returned plain.limit levels) (Failed plain.limit) := by
  -- by induction on the levels left, which every step of both evaluations takes one of
  induction levels generalizing t with
  | zero =>
    split
    -- without a limit both run out of levels at once
    · rename_i hlimit
      intro e p hs
      have hdepth := hs.depth
      rw [if_pos hlimit] at hdepth
      have hright := plain.run_exhausted_of_unlimited hdepth hlimit
      exact .inr ⟨_, _, _, _, rfl, hright, .inr ⟨hlimit, rfl, _, rfl⟩, hs.raised⟩
    · exact mirrors_exhausted hagree ‹_› _
  | succ levels ih =>
    rw [Nat.add_right_comm, visitWithin, ht.stands.get?_root, Plain.EvaluationScope.visit]
    exact mirrors_deeper scope (mirrors_node hagree (fun o ho => ih ho) ht)

end Evaluation

end Beamline
