import Beamline.Lowering
import Beamline.Proofs.Grove.Basic
import Beamline.Proofs.Mirror
import Beamline.Proofs.Plain.Lowering

/-!
# Lowering into a grove

Storing a formula adds one tree to a grove: the tree whose term is the term of the formula. The
warnings are those of the lowering to terms, and so is the error, at which the nodes stored so far
become strays.

* `Lowering.mirrors_lower`: storing a formula mirrors its lowering to a term.
-/

namespace Beamline

open Beamline.Expr (Forest Formula Grove Node NodeId Term Tree)
open Diagnostic (Condition)

namespace Lowering

/-- What lowering sees of its scope. -/
def Scope.plain (scope : Scope) : Plain.LoweringScope where
  constant? name := (scope.symbols.consts.get? name).map Constant.value
  isVariable := scope.symbols.vars.contains
  isElement := scope.symbols.elements.contains
  pos := scope.pos
  constantsOnly := scope.constantsOnly

/-- The draft holds a grove of the given trees, and both sides have raised the same. -/
def Alike (trees : List Tree) (stray : Nat) (draft : Draft) (raised : Array Diagnostic) : Prop :=
  draft.raised = raised ∧ Grove draft.forest trees stray

/-- The draft holds one more tree, which is that of the term. -/
def Stored (trees : List Tree) (stray : Nat) (id : NodeId) (term : Term) (draft : Draft)
    (raised : Array Diagnostic) : Prop :=
  ∃ t : Tree, t.root = id ∧ t.term = term ∧ Alike (t :: trees) stray draft raised

/-- Both sides end in the same error, and the draft holds the given trees next to strays. -/
def Failed (trees : List Tree) (e : FatalError) (d : Plain.Error) (draft : Draft)
    (raised : Array Diagnostic) : Prop :=
  (e = d.fatal ∧ d ≠ .endless) ∧ ∃ stray, Alike trees stray draft raised

variable {trees : List Tree} {stray : Nat}

/-- A tree that was stored on the way to an error is abandoned. -/
theorem Failed.abandon {t : Tree} {e : FatalError} {d : Plain.Error} {draft : Draft}
    {raised : Array Diagnostic} (h : Failed (t :: trees) e d draft raised) :
    Failed trees e d draft raised := by
  obtain ⟨he, stray, hraised, hgrove⟩ := h
  exact ⟨he, _, hraised, Grove.abandon (show Grove _ ([t] ++ trees) _ from hgrove)⟩

variable {E : FatalError → Plain.Error → Draft → Array Diagnostic → Prop}

theorem mirrors_raise (scope : Scope) (condition : Condition) :
    Mirrors (Alike trees stray) (raise scope condition) (Plain.report condition scope.pos)
      (fun _ _ => Alike trees stray) E := by
  refine Mirrors.of_modify fun draft raised hs => ⟨?_, hs.2⟩
  change draft.raised.push _ = raised.push _
  rw [hs.1]

/-- Storing a node makes a tree of the trees that it refers to. -/
theorem mirrors_alloc {node : Node} {term : Term} {operands : List Tree} (build : NodeId → Tree)
    (h : ∀ id, (build id).root = id ∧ (build id).node = node ∧ (build id).term = term ∧
      (build id).operands = operands) :
    Mirrors (Alike (operands ++ trees) stray) (alloc node) (pure term) (Stored trees stray) E := by
  intro draft raised ⟨hraised, hgrove⟩
  -- the tree is the one built on the handle that the forest gives
  obtain ⟨hroot, hnode, hterm, hoperands⟩ := h (draft.forest.alloc node).1
  have hstored := Grove.alloc (hoperands.symm ▸ hgrove) (hroot.trans (by rw [hnode]))
  rw [hnode] at hstored
  exact .inl ⟨(draft.forest.alloc node).1, term,
    { draft with forest := (draft.forest.alloc node).2 }, raised, rfl, rfl,
    build (draft.forest.alloc node).1, hroot, hterm, hraised, hstored⟩

/-- Storing a node without operands adds a tree. -/
theorem mirrors_leaf {node : Node} {term : Term} (build : NodeId → Tree)
    (h : ∀ id, (build id).root = id ∧ (build id).node = node ∧ (build id).term = term ∧
      (build id).operands = []) :
    Mirrors (Alike trees stray) (alloc node) (pure term) (Stored trees stray) E :=
  mirrors_alloc build h

/-- Storing a node with one operand makes a tree of the tree stored before. -/
theorem mirrors_wrap {f : NodeId → Node} {g : Term → Term} (build : Tree → NodeId → Tree)
    (h : ∀ t id, (build t id).root = id ∧ (build t id).node = f t.root ∧
      (build t id).term = g t.term ∧ (build t id).operands = [t]) (id : NodeId) (term : Term) :
    Mirrors (Stored trees stray id term) (alloc (f id)) (pure (g term)) (Stored trees stray)
      E :=
  Mirrors.of_view (f := fun id => alloc (f id)) (g := fun term => pure (g term))
    (fun t => mirrors_alloc (build t) (h t)) id term

theorem mirrors_classify (scope : Scope) (name : Name) (arithmetic : Bool) :
    Mirrors (Alike trees stray) (classify scope name arithmetic >>= alloc)
      (scope.plain.classify name arithmetic) (Stored trees stray) (Failed trees) := by
  unfold classify Plain.LoweringScope.classify Scope.plain
  dsimp only
  -- both sides branch alike; they differ in when the node is stored
  cases scope.symbols.consts.get? name with
  | some constant =>
    dsimp only [Option.map_some]
    by_cases htext : constant.value.isText
    · cases arithmetic with
      | true =>
        simp only [htext, Bool.not_true, Bool.false_eq_true, if_false, if_true]
        change Mirrors _ (throw (FatalError.textInArithmetic name.text scope.pos)) _ _ _
        exact Mirrors.of_throw fun draft raised hs => ⟨⟨rfl, nofun⟩, stray, hs⟩
      | false =>
        simp only [htext, Bool.not_true, Bool.false_eq_true, if_false, pure_bind]
        exact mirrors_leaf (fun id => .textConstant id name) fun _ => ⟨rfl, rfl, rfl, rfl⟩
    · simp only [htext, Bool.not_false, if_true, pure_bind]
      exact mirrors_leaf (fun id => .numberConstant id name) fun _ => ⟨rfl, rfl, rfl, rfl⟩
  | none =>
    dsimp only [Option.map_none]
    by_cases honly : scope.constantsOnly
    · simp only [honly, if_true, bind_assoc, pure_bind]
      refine (mirrors_raise scope _).bind fun _ _ => ?_
      exact mirrors_leaf (fun id => .number id 0.0) fun _ => ⟨rfl, rfl, rfl, rfl⟩
    · have hvariable : Mirrors (Alike trees stray) (alloc (.variable name))
          (pure (.variable name)) (Stored trees stray) (Failed trees) :=
        mirrors_leaf (fun id => .variable id name) fun _ => ⟨rfl, rfl, rfl, rfl⟩
      by_cases hdefined : scope.symbols.vars.contains name
      · simp only [honly, hdefined, Bool.false_eq_true, if_false, if_true, pure_bind]
        exact hvariable
      · simp only [honly, hdefined, Bool.false_eq_true, if_false, bind_assoc, pure_bind]
        exact (mirrors_raise scope _).bind fun _ _ => hvariable

/-- Storing a formula mirrors its lowering to a term. -/
theorem mirrors_lower (scope : Scope) (formula : Formula) (arithmetic : Bool) :
    Mirrors (Alike trees stray) (lower scope formula arithmetic)
      (scope.plain.lower formula arithmetic) (Stored trees stray) (Failed trees) := by
  -- by induction on the formula, with any trees in the grove: the operand to the left stands
  -- there while the one to the right is stored
  induction formula generalizing arithmetic trees with
  | number x => exact mirrors_leaf (fun id => .number id x) fun _ => ⟨rfl, rfl, rfl, rfl⟩
  | text content =>
    cases arithmetic with
    | true => exact Mirrors.of_throw fun draft raised hs => ⟨⟨rfl, nofun⟩, stray, hs⟩
    | false => exact mirrors_leaf (fun id => .text id content) fun _ => ⟨rfl, rfl, rfl, rfl⟩
  | name raw => exact mirrors_classify scope (Name.ofText raw) arithmetic
  | lengthOf raw =>
    have hlength : Mirrors (Alike trees stray) (alloc (.lengthOf (Name.ofText raw)))
        (pure (.lengthOf (Name.ofText raw))) (Stored trees stray) (Failed trees) :=
      mirrors_leaf (fun id => .lengthOf id (Name.ofText raw)) fun _ => ⟨rfl, rfl, rfl, rfl⟩
    unfold lower Plain.LoweringScope.lower Scope.plain
    refine Mirrors.ite Iff.rfl (fun _ => hlength) fun _ => ?_
    exact (mirrors_raise scope _).bind fun _ _ => hlength
  | parens inner ih =>
    exact (ih arithmetic).bind (mirrors_wrap (fun t id => .parens id t)
      fun _ _ => ⟨rfl, rfl, rfl, rfl⟩)
  | signed sign operand ih =>
    exact (ih true).bind (mirrors_wrap (fun t id => .signed id sign t)
      fun _ _ => ⟨rfl, rfl, rfl, rfl⟩)
  | binary op left right ihl ihr =>
    unfold lower Plain.LoweringScope.lower
    refine (ihl true).bind_view fun l => ?_
    -- an error to the right leaves the tree to the left behind
    have hright : Mirrors (Alike (l :: trees) stray) (lower scope right true)
        (scope.plain.lower right true) (Stored (l :: trees) stray) (Failed trees) :=
      (ihr true).imp (fun _ _ => id) (fun _ _ _ _ => id) fun _ _ _ _ => Failed.abandon
    refine hright.bind_view fun r => ?_
    have hnode : Mirrors (Alike ([l, r] ++ trees) stray) (alloc (.binary op l.root r.root))
        (pure (.binary op l.term r.term)) (Stored trees stray) (Failed trees) :=
      mirrors_alloc (fun id => .binary id op l r) fun _ => ⟨rfl, rfl, rfl, rfl⟩
    refine hnode.imp (fun draft raised hs => ?_) (fun _ _ _ _ => id) fun _ _ _ _ => id
    exact ⟨hs.1, hs.2.perm (.swap l r trees)⟩
  | call f argument ih =>
    exact (ih true).bind (mirrors_wrap (fun t id => .call id f t)
      fun _ _ => ⟨rfl, rfl, rfl, rfl⟩)

end Lowering

end Beamline
