import Beamline.Proofs.Plain.Lookups
import Beamline.Proofs.Portrait.Actions

/-!
# What the evaluation of a stored expression looks up

The names under which the evaluation of a stored expression looks for variables, node by node, and
the same names as those that the evaluation of its term looks up.

* `Deck.lookups`: the names that are looked up.
* `Deck.Depicts.lookups_root`: they are those of the term.
-/

namespace Beamline

open Beamline.Expr (Forest Node NodeId Term Tree)

namespace Evaluation

/-- The names that the evaluation of a node looks up. `visit` evaluates what lies behind a handle,
and `below` tells the names that are looked up there. -/
def nodeLookups (scope : Scope) (visit : NodeId → Step Value)
    (below : NodeId → Evaluation → List Name) (e : Evaluation) : Node → List Name
  | .number _ | .text _ | .numberConstant _ | .textConstant _ => []
  | .variable name =>
    name :: match scope.symbols.vars.get? name with
      | some record => below record.expr e
      | none => []
  | .lengthOf name =>
    match (scope.symbols.elements.get? name).map Element.length? with
    | some (some length) => below length e
    | _ => []
  | .parens inner => below inner e
  | .signed _ operand => below operand e
  | .binary _ left right =>
    -- the right operand is looked at only if the left one is a number
    below left e ++ match (number scope visit left).run e with
      | (.ok _, inner) => below right inner
      | (.error _, _) => []
  | .call _ argument => below argument e

/-- The names that the evaluation of what lies behind a handle looks up, if at most `levels` levels
are needed. -/
def lookups (scope : Scope) : (levels : Nat) → NodeId → Evaluation → List Name
  | 0, _, _ => []
  | levels + 1, id, e =>
    if e.tripped then []
    else
      match e.nesting.enter, scope.forest.get? id with
      | .ok nesting, some n =>
        nodeLookups scope (visitWithin scope levels) (lookups scope levels) { e with nesting } n
      | _, _ => []

variable {scope : Scope} {plain : Plain.EvaluationScope} {limit levels : Nat}

/-- The evaluation of a node looks up the names that the evaluation of its term does, if that is so
for what lies below it and what it refers to. -/
theorem nodeLookups_node (hagree : scope.Agrees plain) {visit : NodeId → Step Value}
    {plainVisit : Term → Plain.EvaluationScope.Step Value}
    {below : NodeId → Evaluation → List Name} {plainBelow : Term → Plain.Progress → List Name}
    (hvisit : ∀ t : Tree, scope.Holds t → Mirrors (Alike limit levels) (visit t.root)
      (plainVisit t.term) (Returned limit levels) (Failed limit))
    (hbelow : ∀ t : Tree, scope.Holds t → ∀ e p, Alike limit levels e p →
      below t.root e = plainBelow t.term p)
    {t : Tree} (ht : scope.Holds t) {e : Evaluation} {p : Plain.Progress}
    (hs : Alike limit levels e p) :
    nodeLookups scope visit below e t.node = plain.nodeLookups plainVisit plainBelow p t.term := by
  have hoperand {o : Tree} (ho : o ∈ t.operands) :
      below o.root e = plainBelow o.term p := hbelow o (ht.of_mem_operands ho) e p hs
  cases t with
  | number | text | numberConstant | textConstant => rfl
  | «variable» id name =>
    rw [Expr.Tree.node, Tree.term, nodeLookups, Plain.EvaluationScope.nodeLookups]
    rcases hagree.expr? name with ⟨hrecord, hterm⟩ | ⟨record, o, hrecord, hterm, hroot, ho⟩
    · rw [hrecord, hterm]
    · rw [hrecord, hterm]
      dsimp only
      rw [← hroot, hbelow o ho e p hs]
  | lengthOf id name =>
    rw [Expr.Tree.node, Tree.term, nodeLookups, Plain.EvaluationScope.nodeLookups]
    rcases hagree.length? name with ⟨hrecord, hterm⟩ | ⟨record, hrecord, hlength, hterm⟩ |
      ⟨record, o, hrecord, hlength, hterm, ho⟩
    · rw [hrecord, hterm]
      rfl
    · rw [hrecord, hterm, Option.map_some, hlength]
    · rw [hrecord, hterm, Option.map_some, hlength]
      exact hbelow o ho e p hs
  | parens id inner => exact hoperand (by simp [Tree.operands])
  | signed id sign operand => exact hoperand (by simp [Tree.operands])
  | binary id op left right =>
    rw [Expr.Tree.node, Tree.term, nodeLookups, Plain.EvaluationScope.nodeLookups,
      hoperand (o := left) (by simp [Tree.operands])]
    congr 1
    -- both come to the right operand from where the left one has ended, or neither does
    have hleft : left ∈ (Tree.binary id op left right).operands := by simp [Tree.operands]
    have hright : right ∈ (Tree.binary id op left right).operands := by simp [Tree.operands]
    rcases mirrors_number hagree hvisit (ht.of_mem_operands hleft) e p hs with
      ⟨x, y, e', p', ha, hb, -, hs'⟩ | ⟨err, d, e', p', ha, hb, -⟩
    · rw [ha, hb]
      exact hbelow right (ht.of_mem_operands hright) e' p' hs'
    · rw [ha, hb]
  | call id f argument => exact hoperand (by simp [Tree.operands])

/-- At the limit nothing is looked up. -/
theorem lookups_of_full {id : NodeId} {e : Evaluation} {p : Plain.Progress} (hlimit : limit ≠ 0)
    (hs : Alike limit 0 e p) : lookups scope 1 id e = [] := by
  have hdepth := hs.depth
  rw [if_neg hlimit] at hdepth
  have hfull : 0 < limit ∧ limit ≤ e.nesting.depth := by omega
  have henter : e.nesting.enter = .error ⟨limit⟩ := by
    simp only [Nesting.enter, Nesting.isFull, hs.limit_eq, Bool.and_eq_true, decide_eq_true_eq,
      if_pos hfull]
  rw [lookups, henter]
  split <;> rfl

/-- The evaluation of a stored tree looks up the names that the evaluation of its term does. -/
theorem lookups_root (hagree : scope.Agrees plain) {t : Tree} (ht : scope.Holds t)
    {e : Evaluation} {p : Plain.Progress} (hs : Alike plain.limit levels e p) :
    lookups scope (levels + if plain.limit = 0 then 0 else 1) t.root e =
      plain.lookups levels t.term p := by
  -- by induction on the levels left, as for the evaluation itself
  induction levels generalizing t e p with
  | zero =>
    rw [Plain.EvaluationScope.lookups]
    split
    · rfl
    · exact lookups_of_full ‹_› hs
  | succ levels ih =>
    rw [Nat.add_right_comm, lookups, Plain.EvaluationScope.lookups]
    cases htripped : p.tripped with
    | true =>
      rw [if_pos (hs.tripped.trans htripped)]
      rfl
    | false =>
      rw [if_neg (by rw [hs.tripped, htripped]; decide)]
      obtain ⟨nesting, henter, hinner⟩ := hs.enter
      rw [henter, ht.stands.get?_root]
      exact nodeLookups_node hagree (fun o ho => mirrors_visitWithin hagree ho)
        (fun o ho e p hs => ih ho hs) ht hinner

end Evaluation

namespace Deck

/-- The names of the variables that the evaluation of a stored expression looks up. -/
def lookups (deck : Deck) (id : NodeId) : List Name :=
  Evaluation.lookups deck.scope (Evaluation.levels deck.scope deck.limits.evalDepth) id
    (Evaluation.ofLimit deck.limits.evalDepth)

/-- With a limit on the depth, the evaluation of a stored tree looks up the names that the
evaluation of its term does. -/
theorem Depicts.lookups_root {deck : Deck} {limits : Limits} {g : Plain.Deck Tree}
    {held : List Tree} {stray : Nat} (hd : deck.Depicts limits g held stray) {t : Tree}
    (ht : t ∈ g.symbols.exprs ++ held) (hlimit : limits.evalDepth ≠ 0) :
    deck.lookups t.root = (g.map Tree.term).lookups t.term := by
  let plain := g.map Tree.term
  have hplain : plain.limits.evalDepth = limits.evalDepth :=
    congrArg Limits.evalDepth hd.plain_limits_eq
  have hscope : plain.scope.limit = limits.evalDepth := hplain
  have hstart : Evaluation.Alike plain.scope.limit limits.evalDepth
      (Evaluation.ofLimit limits.evalDepth) ⟨false, #[]⟩ := by
    refine ⟨rfl, rfl, hscope.symm, ?_⟩
    rw [if_neg (hscope ▸ hlimit), hscope]
    exact Nat.zero_add _
  have hroot := Evaluation.lookups_root hd.agrees (hd.holds ht) hstart
  rw [if_neg (hscope ▸ hlimit)] at hroot
  have hlevels : plain.levels t.term = limits.evalDepth := by
    rw [Plain.Deck.levels, hplain, if_neg hlimit]
  unfold lookups Plain.Deck.lookups Evaluation.levels
  rw [hd.limits_eq, if_neg hlimit, hroot, show (g.map Tree.term).levels t.term = _ from hlevels]

end Deck

end Beamline
