import Beamline.Proofs.Evaluation.Depth
import Beamline.Proofs.Portrait.Evaluation

/-!
# The course of an evaluation

What a step of an evaluation comes to depends on whether the limit on the depth was reached before,
and on nothing that was raised before. It leaves all levels that it enters, adds its diagnostics to
those there are, and warns of the limit where it reaches it. This is its `Course`.

`Concur` says of two steps that they take the same course. The rules follow the way in which steps
are put together; what they carry along is whether the step would have to go beyond the limit.
From them follows that an evaluation under a limit ends: however many levels it is given beyond
the limit, it takes one course, and so it does if it is watched and would fail as soon as it held
more levels than the limit allows.

* `concur_node`: nodes concur, if what they need does.
* `concur_visitWithin`: an evaluation that is watched takes the course of one that is not.
* `run_visit`: an evaluation under a limit follows its recursion, of which no bound is left.
-/

namespace Beamline.Evaluation

open Diagnostic (Condition)
open Beamline.Expr (Node NodeId)

/-! ## Courses -/

/-- The warnings that the limit on the depth was reached. -/
def warnings (raised : Array Diagnostic) : Nat :=
  raised.countP (·.code = .nestingTooDeep)

@[simp]
theorem warnings_append (raised added : Array Diagnostic) :
    warnings (raised ++ added) = warnings raised + warnings added :=
  Array.countP_append

/-- What a step comes to. -/
structure Course (α : Type) where
  /-- The result or the error. -/
  outcome : Except FatalError α
  /-- Whether the limit has been reached, before the step or in it. -/
  tripped : Bool
  /-- The diagnostics that the step adds. -/
  added : Array Diagnostic

namespace Course

variable {α β : Type}

/-- The state after a step that takes the course. -/
def after (c : Course α) (nesting : Nesting) (raised : Array Diagnostic) : Evaluation where
  nesting := nesting
  tripped := c.tripped
  raised := raised ++ c.added

/-- The step takes the course, whatever was raised before, and leaves all levels that it enters. -/
def IsOf (c : Course α) (nesting : Nesting) (tripped : Bool) (a : Step α) : Prop :=
  ∀ raised, a.run ⟨nesting, tripped, raised⟩ = (c.outcome, c.after nesting raised)

/-- The course of a step under a limit on the depth. The step goes `deep` if it has to go beyond
the limit; `tripped` says whether the limit was reached before. -/
structure Guarded (c : Course α) (tripped : Bool) (deep : Prop) : Prop where
  /-- The step ends. -/
  ends : ∀ id, c.outcome ≠ .error (.fault (.endless id))
  /-- The limit once reached is never forgotten, and there is one warning where it is reached. -/
  warned : tripped.toNat + warnings c.added = c.tripped.toNat
  /-- Where there is a result, the limit is reached just if the step goes beyond it. -/
  tripped_iff : tripped = false → c.outcome.isOk → (c.tripped ↔ deep)

namespace Guarded

variable {tripped tripped' : Bool} {deep : Prop} {added : Array Diagnostic}

theorem of_ok {x : α} (hwarned : tripped.toNat + warnings added = tripped'.toNat)
    (h : tripped = false → (tripped' ↔ deep)) :
    Guarded ⟨.ok x, tripped', added⟩ tripped deep where
  ends _ h := by cases h
  warned := hwarned
  tripped_iff htripped _ := h htripped

/-- An error says nothing about the depth. -/
theorem of_error {err : FatalError} (hends : ∀ id, err ≠ .fault (.endless id))
    (hwarned : tripped.toNat + warnings added = tripped'.toNat) :
    Guarded (⟨.error err, tripped', added⟩ : Course α) tripped deep where
  ends id hid := hends id (Except.error.inj hid)
  warned := hwarned
  tripped_iff _ hok := absurd hok Bool.false_ne_true

/-- The limit once reached is never forgotten. -/
theorem tripped_eq_true {c : Course α} (h : c.Guarded true deep) : c.tripped = true := by
  have hwarned := h.warned
  by_contra hnot
  rw [Bool.eq_false_of_not_eq_true hnot] at hwarned
  simp at hwarned

/-- One course after the other: there is one warning at most, as the second step does not reach the
limit again. -/
theorem bind {x : α} {next : Course β} {deep' : Prop}
    (h : Guarded ⟨.ok x, tripped', added⟩ tripped deep) (hnext : next.Guarded tripped' deep') :
    Guarded { next with added := added ++ next.added } tripped (deep ∨ deep') where
  ends := hnext.ends
  warned := by
    calc tripped.toNat + warnings (added ++ next.added)
        = tripped.toNat + warnings added + warnings next.added := by
          rw [warnings_append, Nat.add_assoc]
      _ = tripped'.toNat + warnings next.added := by rw [h.warned]
      _ = next.tripped.toNat := hnext.warned
  tripped_iff htripped hok := by
    have hfirst : tripped' = true ↔ deep := h.tripped_iff htripped rfl
    -- where the first step has reached the limit, the second is cut short however deep it goes
    cases tripped' with
    | false => simpa [← hfirst] using hnext.tripped_iff rfl hok
    | true => exact iff_of_true hnext.tripped_eq_true (.inl (hfirst.1 rfl))

end Guarded

namespace IsOf

variable {nesting inner : Nesting} {tripped tripped' : Bool} {added : Array Diagnostic}

/-- A step that leaves the state as it is. -/
theorem of_run {a : Step α} {outcome : Except FatalError α} (h : ∀ e, a.run e = (outcome, e)) :
    IsOf ⟨outcome, tripped, #[]⟩ nesting tripped a := by
  intro raised
  rw [h, after, Array.append_empty]

theorem bind_of_error {a : Step α} {err : FatalError}
    (h : IsOf ⟨.error err, tripped', added⟩ nesting tripped a) (f : α → Step β) :
    IsOf ⟨.error err, tripped', added⟩ nesting tripped (a >>= f) :=
  fun raised => run_bind_of_error (h raised) f

theorem bind_of_ok {a : Step α} {x : α} {f : α → Step β} {next : Course β}
    (h : IsOf ⟨.ok x, tripped', added⟩ nesting tripped a) (hf : next.IsOf nesting tripped' (f x)) :
    IsOf { next with added := added ++ next.added } nesting tripped (a >>= f) := by
  intro raised
  calc (a >>= f).run ⟨nesting, tripped, raised⟩
      = (f x).run ⟨nesting, tripped', raised ++ added⟩ := run_bind_of_ok (h raised) f
    _ = (next.outcome, next.after nesting (raised ++ added)) := hf _
    _ = _ := by rw [after, after, Array.append_assoc]

/-- Inside a level that can be entered the step is run. -/
theorem deeper {scope : Scope} {a : Step Value} {c : Course Value}
    (henter : nesting.enter = .ok inner) (h : c.IsOf inner false a) :
    c.IsOf nesting false (deeper scope a) := by
  intro raised
  have hrun := run_deeper_of_enter scope a (e := ⟨nesting, false, raised⟩) rfl henter
  rw [hrun, h raised, after, after, Nesting.leave_enter henter]

end IsOf

end Course

/-! ## Steps that take the same course -/

/-- The steps take the same course from the levels held, be it that the limit was reached before or
not. -/
def Concur {α : Type} (nesting : Nesting) (deep : Prop) (a b : Step α) : Prop :=
  ∀ tripped, ∃ c : Course α, c.Guarded tripped deep ∧ c.IsOf nesting tripped a ∧
    c.IsOf nesting tripped b

/-- The step, unless more than `most` levels are held. -/
def unlessAbove (most : Nat) (id : NodeId) (step : Step Value) : Step Value := do
  if most < (← get).nesting.depth then throw (.fault (.endless id)) else step

namespace Concur

variable {α β : Type} {nesting inner : Nesting} {deep deep' : Prop} {a b : Step α}

/-- How deep a step goes may be said otherwise. -/
theorem of_iff (h : Concur nesting deep a b) (hdeep : deep ↔ deep') : Concur nesting deep' a b :=
  propext hdeep ▸ h

theorem of_pure (x : α) : Concur nesting False (pure x : Step α) (pure x) := by
  intro tripped
  have hx : Course.IsOf ⟨.ok x, tripped, #[]⟩ nesting tripped (pure x) := .of_run fun _ => rfl
  refine ⟨⟨.ok x, tripped, #[]⟩, .of_ok rfl ?_, hx, hx⟩
  rintro rfl
  exact iff_of_false Bool.false_ne_true id

/-- An error says nothing about the depth. -/
theorem of_throw {err : FatalError} (h : ∀ id, err ≠ .fault (.endless id)) :
    Concur nesting deep (throw err : Step α) (throw err) := by
  intro tripped
  have herr : Course.IsOf ⟨.error err, tripped, #[]⟩ nesting tripped (throw err : Step α) :=
    .of_run fun _ => rfl
  exact ⟨⟨.error err, tripped, #[]⟩, .of_error h rfl, herr, herr⟩

/-- A condition other than the limit on the depth. -/
theorem of_raise (scope : Scope) {condition : Condition} (h : condition.code ≠ .nestingTooDeep) :
    Concur nesting False (raise scope condition) (raise scope condition) := by
  intro tripped
  let added := #[condition.diagnostic scope.pos]
  have hraise : Course.IsOf ⟨.ok (), tripped, added⟩ nesting tripped (raise scope condition) :=
    fun raised => by
      rw [Course.after, Array.append_singleton]
      rfl
  have hwarnings : warnings added = 0 := by
    simpa [added, warnings, Condition.diagnostic] using h
  refine ⟨⟨.ok (), tripped, added⟩, .of_ok (by rw [hwarnings]; rfl) ?_, hraise, hraise⟩
  rintro rfl
  exact iff_of_false Bool.false_ne_true id

/-- Steps one after the other go as deep as either. -/
theorem bind {f g : α → Step β} (h : Concur nesting deep a b)
    (hf : ∀ x, Concur nesting deep' (f x) (g x)) :
    Concur nesting (deep ∨ deep') (a >>= f) (b >>= g) := by
  intro tripped
  obtain ⟨⟨outcome, tripped', added⟩, hc, ha, hb⟩ := h tripped
  cases outcome with
  | error err =>
    -- what the second step would do is not known, and need not be
    have hends id : err ≠ .fault (.endless id) := fun hid => hc.ends id (congrArg _ hid)
    exact ⟨⟨.error err, tripped', added⟩, .of_error hends hc.warned, ha.bind_of_error f,
      hb.bind_of_error g⟩
  | ok x =>
    obtain ⟨next, hnext, hfx, hgx⟩ := hf x tripped'
    exact ⟨{ next with added := added ++ next.added }, hc.bind hnext, ha.bind_of_ok hfx,
      hb.bind_of_ok hgx⟩

/-- Steps that take the same course do the same. -/
theorem run_eq (h : Concur nesting deep a b) (tripped : Bool) (raised : Array Diagnostic) :
    a.run ⟨nesting, tripped, raised⟩ = b.run ⟨nesting, tripped, raised⟩ := by
  obtain ⟨c, -, ha, hb⟩ := h tripped
  exact (ha raised).trans (hb raised).symm

/-- A step goes as deep as its first part if nothing is evaluated after that. -/
theorem bind_flat {f g : α → Step β} (h : Concur nesting deep a b)
    (hf : ∀ x, Concur nesting False (f x) (g x)) : Concur nesting deep (a >>= f) (b >>= g) :=
  (h.bind hf).of_iff (by rw [or_false])

/-- Where no more levels are held than may be, watching for them changes nothing. -/
theorem unlessAbove {a b : Step Value} (h : Concur nesting deep a b) {most : Nat}
    (hle : nesting.depth ≤ most) (id : NodeId) :
    Concur nesting deep (unlessAbove most id a) b := by
  intro tripped
  obtain ⟨c, hc, ha, hb⟩ := h tripped
  refine ⟨c, hc, fun raised => ?_, hb⟩
  have hrun : (Evaluation.unlessAbove most id a).run ⟨nesting, tripped, raised⟩ =
      (if most < nesting.depth then (throw (.fault (.endless id)) : Step Value) else a).run
        ⟨nesting, tripped, raised⟩ := rfl
  rw [hrun, if_neg (Nat.not_lt.2 hle)]
  exact ha raised

/-- A step one level deeper, which is beyond the limit if the level cannot be entered. -/
theorem deeper {a b : Step Value} (scope : Scope)
    (h : ∀ inner, nesting.enter = .ok inner → Concur inner deep a b)
    (hfull : ∀ exceeded, nesting.enter = .error exceeded → deep) :
    Concur nesting deep (deeper scope a) (deeper scope b) := by
  intro tripped
  cases tripped with
  | true =>
    have hskip (step : Step Value) :
        Course.IsOf ⟨.ok .zero, true, #[]⟩ nesting true (Evaluation.deeper scope step) :=
      fun raised => run_deeper_of_tripped scope step rfl
    exact ⟨⟨.ok .zero, true, #[]⟩, .of_ok rfl fun h => absurd h.symm Bool.false_ne_true,
      hskip a, hskip b⟩
  | false =>
    cases henter : nesting.enter with
    | ok inner =>
      obtain ⟨c, hc, ha, hb⟩ := h inner henter false
      exact ⟨c, hc, ha.deeper henter, hb.deeper henter⟩
    | error exceeded =>
      let added := #[(Condition.nestingTooDeep exceeded.limit).diagnostic scope.pos]
      have hstop (step : Step Value) :
          Course.IsOf ⟨.ok .zero, true, added⟩ nesting false (Evaluation.deeper scope step) := by
        intro raised
        rw [run_deeper_of_exceeded scope step rfl henter, Course.after, Array.append_singleton]
      have hwarned : false.toNat + warnings added = true.toNat := by
        simp [added, warnings, Condition.diagnostic, Condition.code]
      exact ⟨⟨.ok .zero, true, added⟩,
        .of_ok hwarned fun _ => iff_of_true rfl (hfull exceeded henter), hstop a, hstop b⟩

end Concur

/-! ## Nodes -/

section Nodes

variable {nesting : Nesting} {scope : Scope} {visit visit' : NodeId → Step Value}
  {deep : NodeId → Prop} (hvisit : ∀ o, Concur nesting (deep o) (visit o) (visit' o))

theorem concur_textInArithmetic {α : Type} {deep : Prop} (scope : Scope) (symbol : String) :
    Concur nesting deep (throw (.textInArithmetic symbol scope.pos) : Step α)
      (throw (.textInArithmetic symbol scope.pos)) :=
  .of_throw fun _ h => by cases h

/-- A name without a record is warned about and counts as zero. -/
theorem concur_missing (scope : Scope) (condition : Condition)
    (h : condition.code ≠ .nestingTooDeep) :
    Concur nesting False (do raise scope condition; return Value.zero)
      (do raise scope condition; return Value.zero) :=
  (Concur.of_raise scope h).bind_flat fun _ => .of_pure Value.zero

theorem concur_constant (scope : Scope) (name : Name) :
    Concur nesting False (constant scope name) (constant scope name) := by
  unfold constant
  cases scope.symbols.consts.get? name with
  | some record => exact .of_pure record.value
  | none => exact concur_missing scope (.constantUndefined name) (by simp [Condition.code])

include hvisit

theorem concur_number (id : NodeId) :
    Concur nesting (deep id) (number scope visit id) (number scope visit' id) := by
  refine (hvisit id).bind_flat fun value => ?_
  cases value with
  | number x => exact .of_pure x
  | text content => exact concur_textInArithmetic scope _

/-- Nodes concur, if what they need does, and go as deep as that. -/
theorem concur_node (n : Node) :
    Concur nesting (∃ o ∈ scope.needsOf n, deep o) (node scope visit n) (node scope visit' n) := by
  have hnumber (id : NodeId) :
      Concur nesting (deep id) (number scope visit id) (number scope visit' id) :=
    concur_number hvisit id
  cases n with
  | number x => exact Concur.of_iff (.of_pure (Value.number x)) (by simp [Node.operands])
  | text content => exact Concur.of_iff (.of_pure (Value.text content)) (by simp [Node.operands])
  | numberConstant name =>
    have hname : Concur nesting False (node scope visit (.numberConstant name))
        (node scope visit' (.numberConstant name)) := by
      refine (concur_constant scope name).bind_flat fun value => ?_
      cases value with
      | number x => exact .of_pure (Value.number x)
      | text content => exact concur_textInArithmetic scope name.text
    exact hname.of_iff (by simp [Node.operands])
  | textConstant name => exact Concur.of_iff (concur_constant scope name) (by simp [Node.operands])
  | «variable» name =>
    rw [node, node, Scope.needsOf]
    cases scope.symbols.vars.get? name with
    | some record => exact Concur.of_iff (hvisit record.expr) (by simp)
    | none =>
      have hcode : (Condition.variableUndefined name).code ≠ .nestingTooDeep := by
        simp [Condition.code]
      exact (concur_missing scope _ hcode).of_iff (by simp)
  | lengthOf name =>
    rw [node, node, Scope.needsOf]
    cases scope.symbols.elements.get? name with
    | none =>
      have hcode : (Condition.elementUndefined name).code ≠ .nestingTooDeep := by
        simp [Condition.code]
      exact (concur_missing scope _ hcode).of_iff (by simp)
    | some record =>
      simp only [Option.bind_some]
      -- an element without a length needs nothing
      cases record.length? with
      | some length => exact Concur.of_iff (hvisit length) (by simp)
      | none => exact Concur.of_iff (.of_pure Value.zero) (by simp)
  | parens inner => exact Concur.of_iff (hvisit inner) (by simp [Node.operands])
  | signed sign operand =>
    exact Concur.of_iff ((hnumber operand).bind_flat fun _ => .of_pure _) (by simp [Node.operands])
  | binary op left right =>
    exact Concur.of_iff
      ((hnumber left).bind fun _ => (hnumber right).bind_flat fun _ => .of_pure _)
      (by simp [Node.operands])
  | call f argument =>
    exact Concur.of_iff ((hnumber argument).bind_flat fun _ => .of_pure _) (by simp [Node.operands])

end Nodes

/-! ## Expressions -/

/-- The value of the node behind a handle. `visit` evaluates what lies behind a handle. -/
def nodeBehind (scope : Scope) (visit : NodeId → Step Value) (id : NodeId) : Step Value :=
  match scope.forest.get? id with
  | some n => node scope visit n
  | none => throw (.fault (.stale id))

theorem visitWithin_succ (scope : Scope) (levels : Nat) (id : NodeId) :
    visitWithin scope (levels + 1) id =
      deeper scope (nodeBehind scope (visitWithin scope levels) id) :=
  rfl

/-- The value behind a handle, if at most `levels` levels are needed and at most `most` levels are
ever held at once. -/
def visitWatched (scope : Scope) (most : Nat) : (levels : Nat) → NodeId → Step Value
  | 0, id => throw (.fault (.endless id))
  | levels + 1, id =>
    deeper scope (unlessAbove most id (nodeBehind scope (visitWatched scope most levels) id))

theorem lt_of_enter_eq_ok {limit held : Nat} {inner : Nesting} (hlimit : 0 < limit)
    (h : Nesting.enter ⟨held, limit⟩ = .ok inner) : held < limit ∧ inner = ⟨held + 1, limit⟩ := by
  by_cases hle : limit ≤ held
  · simp [Nesting.enter, Nesting.isFull, hlimit, hle] at h
  · have hinner : ⟨held + 1, limit⟩ = inner := by
      simpa [Nesting.enter, Nesting.isFull, hle] using h
    exact ⟨Nat.lt_of_not_le hle, hinner.symm⟩

theorem le_of_enter_eq_error {limit held : Nat} {exceeded : Nesting.Exceeded}
    (h : Nesting.enter ⟨held, limit⟩ = .error exceeded) : limit ≤ held := by
  by_contra hle
  simp [Nesting.enter, Nesting.isFull, hle] at h

/-- One level of an evaluation goes as deep as what it needs, one level further down. -/
theorem concur_deeper (scope : Scope) {limit held : Nat} (hlimit : 0 < limit)
    {visit visit' : NodeId → Step Value}
    (h : held < limit → ∀ o, Concur ⟨held + 1, limit⟩ (scope.Exceeds (limit - (held + 1)) o)
      (visit o) (visit' o))
    (id : NodeId) :
    Concur ⟨held, limit⟩ (scope.Exceeds (limit - held) id)
      (deeper scope (unlessAbove limit id (nodeBehind scope visit id)))
      (deeper scope (nodeBehind scope visit' id)) := by
  refine .deeper scope (fun inner henter => ?_) fun exceeded henter => ?_
  · obtain ⟨hlt, rfl⟩ := lt_of_enter_eq_ok hlimit henter
    have hrest : limit - held = limit - (held + 1) + 1 := by omega
    refine Concur.unlessAbove ?_ hlt id
    rw [hrest, Scope.Exceeds, Scope.needs, nodeBehind, nodeBehind]
    cases scope.forest.get? id with
    | some node => exact concur_node (h hlt) node
    | none => exact .of_throw fun _ h => by cases h
  · -- a level that cannot be entered is beyond the limit
    rw [Nat.sub_eq_zero_of_le (le_of_enter_eq_error henter)]
    trivial

/-- With levels left for all that the limit allows and one more, an evaluation takes one course,
watched or not. -/
theorem concur_visitWithin (scope : Scope) {limit held levels levels' : Nat} (hlimit : 0 < limit)
    (hheld : held ≤ limit) (hlevels : limit < held + levels) (hlevels' : limit < held + levels')
    (id : NodeId) :
    Concur ⟨held, limit⟩ (scope.Exceeds (limit - held) id) (visitWatched scope limit levels id)
      (visitWithin scope levels' id) := by
  -- by induction on the levels left; one is taken with every level that is held
  induction levels generalizing held levels' id with
  | zero => omega
  | succ levels ih =>
    obtain ⟨levels', rfl⟩ : ∃ n, levels' = n + 1 := ⟨levels' - 1, by omega⟩
    rw [visitWatched, visitWithin_succ]
    exact concur_deeper scope hlimit (fun hlt o => ih hlt (by omega) (by omega) o) id

/-- The levels that an evaluation gives itself under a limit are enough wherever it stands. -/
theorem concur_visit (scope : Scope) {limit held : Nat} (hlimit : 0 < limit) (hheld : held ≤ limit)
    {levels : Nat} (hlevels : limit < held + levels) (id : NodeId) :
    Concur ⟨held, limit⟩ (scope.Exceeds (limit - held) id) (visitWatched scope limit levels id)
      (visit scope id) := by
  have hown : Evaluation.levels scope limit = limit + 1 := if_neg (Nat.ne_of_gt hlimit)
  intro tripped
  obtain ⟨c, hc, hwatched, hrun⟩ := concur_visitWithin scope hlimit hheld hlevels
    (show limit < held + (limit + 1) by omega) id tripped
  refine ⟨c, hc, hwatched, fun raised => ?_⟩
  calc (visit scope id).run ⟨⟨held, limit⟩, tripped, raised⟩
      = (visitWithin scope (Evaluation.levels scope limit) id).run
          ⟨⟨held, limit⟩, tripped, raised⟩ := rfl
    _ = _ := by rw [hown, hrun raised]

/-- Under a limit the value behind a handle is that of the node, one level deeper, with the values
of what the node needs evaluated in the same way. No number of levels is mentioned. -/
theorem run_visit (scope : Scope) {limit held : Nat} (hlimit : 0 < limit) (hheld : held ≤ limit)
    (id : NodeId) (tripped : Bool) (raised : Array Diagnostic) :
    (visit scope id).run ⟨⟨held, limit⟩, tripped, raised⟩ =
      (deeper scope (nodeBehind scope (visit scope) id)).run
        ⟨⟨held, limit⟩, tripped, raised⟩ := by
  -- both sides take the course of what is watched, with one level more to begin with
  have hwhole := concur_visit scope hlimit hheld (show limit < held + (limit + 2) by omega) id
  have hbelow (hlt : held < limit) (o : NodeId) :=
    concur_visit scope hlimit hlt (show limit < held + 1 + (limit + 1) by omega) o
  have hlevel := concur_deeper scope hlimit hbelow id
  exact (hwhole.run_eq tripped raised).symm.trans (hlevel.run_eq tripped raised)

end Beamline.Evaluation
