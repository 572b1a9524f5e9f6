import Beamline.Proofs.Evaluation.Blame
import Beamline.Proofs.Evaluation.Course
import Beamline.Proofs.Interpreter.Formulas

/-!
# Calls under a limit on the depth

Under a limit every call of an evaluation comes to an end, whatever is stored and whatever the
symbols refer to. It warns of the limit at most once, and if it has a result, it does so exactly if
the expression is deeper than the limit. It leaves all levels that it enters, be it that it comes
to a result, to an error or to the limit, so that calls one after the other do what each would do
as the first.

* `Call.exists_course`: a call takes one course from wherever it begins.
* `Call.run_telling`: a call does the same where there is a console to be told.
* `guarded_calls`: what is promised of calls, one at a time and one after the other.
-/

namespace Beamline.Evaluation

open Source (Position)
open Diagnostic (Console)
open Beamline.Expr (Node NodeId)

/-- What may be asked for. -/
inductive Call where
  /-- The value of a stored expression. -/
  | value (id : NodeId)
  /-- The value of a stored expression where a number is needed. -/
  | number (id : NodeId)

namespace Call

variable {limit levels : Nat}

/-- The expression that is asked for. -/
def handle : Call → NodeId
  | value id | number id => id

/-- The call, once begun. `visit` evaluates what lies behind a handle. -/
def via (scope : Scope) (visit : NodeId → Step Value) : Call → Step Value
  | value id => visit id
  | number id => .number <$> Evaluation.number scope visit id

/-- The call. -/
def step (scope : Scope) : Call → Step Value
  | value id => evaluate scope id
  | number id => .number <$> evaluateNumber scope id

/-- The call where there is a console to be told. -/
def telling (scope : Scope) : Call → Evaluator.Step Value
  | value id => Evaluator.evaluate scope id
  | number id => .number <$> Evaluator.evaluateNumber scope id

theorem agree_telling {c : Console} (scope : Scope) (call : Call) :
    Agree (Evaluator.Told c) (call.telling scope) (call.step scope) := by
  cases call with
  | value id => exact Evaluator.agree_evaluate id
  | number id => exact (Evaluator.agree_evaluateNumber id).map _

/-- With a console the call comes to the same, and the console is told what the call raises. -/
theorem run_telling (scope : Scope) (call : Call) (e : Evaluation) (c : Console) :
    (call.telling scope).run (.ofTold c e) =
      (((call.step scope).run e).1, .ofTold c ((call.step scope).run e).2) :=
  Evaluator.run_of_agree (call.agree_telling scope) e

/-- A call forgets that an earlier one has reached the limit. -/
theorem run_step (scope : Scope) (call : Call) (e : Evaluation) :
    (call.step scope).run e = (call.via scope (visit scope)).run { e with tripped := false } := by
  cases call <;> rfl

/-- A call that is watched takes the course of one that is not. -/
theorem concur_via (scope : Scope) (hlimit : 0 < limit) (hlevels : limit < levels) (call : Call) :
    Concur (.ofLimit limit) (limit < scope.depth call.handle)
      (call.via scope (visitWatched scope limit levels)) (call.via scope (visit scope)) := by
  have hvisit (id : NodeId) :
      Concur (.ofLimit limit) (limit < scope.depth id) (visitWatched scope limit levels id)
        (visit scope id) :=
    (concur_visit scope hlimit (Nat.zero_le limit) (by omega) id).of_iff Scope.lt_depth_iff.symm
  cases call with
  | value id => exact hvisit id
  | number id =>
    rw [via, via, map_eq_pure_bind, map_eq_pure_bind]
    exact (concur_number hvisit id).bind_flat fun x => .of_pure (Value.number x)

/-- A call takes one course from wherever it begins. -/
theorem exists_course (scope : Scope) (hlimit : 0 < limit) (call : Call) :
    ∃ c : Course Value, c.Guarded false (limit < scope.depth call.handle) ∧
      ∀ e : Evaluation, e.nesting = .ofLimit limit →
        (call.step scope).run e = (c.outcome, c.after (.ofLimit limit) e.raised) := by
  obtain ⟨c, hc, -, hrun⟩ := call.concur_via scope hlimit (Nat.lt_succ_self limit) false
  refine ⟨c, hc, fun e he => ?_⟩
  rw [run_step, he]
  exact hrun e.raised

/-- However many levels a call is given beyond the limit, it does the same, and it never holds more
levels than the limit allows. -/
theorem run_watched (scope : Scope) (hlimit : 0 < limit) (hlevels : limit < levels) (call : Call)
    {e : Evaluation} (he : e.nesting = .ofLimit limit) :
    (begin >>= fun _ => call.via scope (visitWatched scope limit levels)).run e =
      (call.step scope).run e := by
  have hbegin : begin.run e = (.ok (), { e with tripped := false }) := rfl
  rw [run_bind_of_ok hbegin, run_step, he]
  exact (call.concur_via scope hlimit hlevels).run_eq false e.raised

/-- What is promised of a call that begins in a state. -/
structure Guarded (scope : Scope) (limit : Nat) (call : Call) (e : Evaluation) : Prop where
  /-- However many levels the call is given beyond the limit, it does the same; and so it does if
  it would fail as soon as it held more levels than the limit allows. -/
  watched : ∀ levels, limit < levels →
    (begin >>= fun _ => call.via scope (visitWatched scope limit levels)).run e =
      (call.step scope).run e
  /-- It does not fail for want of levels. -/
  ends : ∀ id, ((call.step scope).run e).1 ≠ .error (.fault (.endless id))
  /-- It leaves all levels that it enters. -/
  nesting : ((call.step scope).run e).2.nesting = .ofLimit limit
  /-- It comes to what it would come to as the first call. -/
  outcome : ((call.step scope).run e).1 = ((call.step scope).run (ofLimit limit)).1
  /-- It adds what it would raise as the first call. -/
  raised : ((call.step scope).run e).2.raised =
    e.raised ++ ((call.step scope).run (ofLimit limit)).2.raised
  /-- It warns of the limit once at most. -/
  warnings_le : warnings ((call.step scope).run e).2.raised ≤ warnings e.raised + 1
  /-- If it has a result, it warns of the limit just if the expression is deeper than that. -/
  warned_iff : ((call.step scope).run e).1.isOk →
    (warnings ((call.step scope).run e).2.raised = warnings e.raised + 1 ↔
      limit < scope.depth call.handle)

theorem guarded (scope : Scope) (hlimit : 0 < limit) (call : Call) {e : Evaluation}
    (he : e.nesting = .ofLimit limit) : call.Guarded scope limit e := by
  -- the course is the same from here and from a fresh start, which only the earlier diagnostics
  -- tell apart
  obtain ⟨c, hc, hrun⟩ := exists_course scope hlimit call
  have hfresh : (call.step scope).run (ofLimit limit) =
      (c.outcome, c.after (.ofLimit limit) #[]) := hrun _ rfl
  have hwarned : warnings c.added = c.tripped.toNat := by simpa using hc.warned
  refine
    { watched := fun levels hlevels => run_watched scope hlimit hlevels call he
      ends := by simpa only [hrun e he] using hc.ends
      nesting := by rw [hrun e he]; rfl
      outcome := by rw [hrun e he, hfresh]
      raised := by rw [hrun e he, hfresh, Course.after, Course.after, Array.empty_append]
      warnings_le := ?_
      warned_iff := fun hok => ?_ }
  all_goals rw [hrun e he, Course.after, warnings_append, hwarned]
  · exact Nat.add_le_add_left c.tripped.toNat_le _
  · rw [hrun e he] at hok
    rw [Nat.add_left_cancel_iff, Bool.toNat_eq_one]
    exact hc.tripped_iff rfl hok

end Call

/-! ## One call after the other -/

/-- Makes calls one after the other, each from the state that the one before leaves, be it that it
succeeds or fails. -/
def serve (scope : Scope) : List Call → Evaluation → List (Except FatalError Value) × Evaluation
  | [], e => ([], e)
  | call :: calls, e =>
    let (outcome, next) := (call.step scope).run e
    let (outcomes, last) := serve scope calls next
    (outcome :: outcomes, last)

/-- Calls one after the other do what each would do as the first. -/
theorem serve_eq (scope : Scope) {limit : Nat} (hlimit : 0 < limit) (calls : List Call)
    {e : Evaluation} (he : e.nesting = .ofLimit limit) :
    (serve scope calls e).1 = calls.map (fun call => ((call.step scope).run (ofLimit limit)).1) ∧
      (serve scope calls e).2.nesting = .ofLimit limit ∧
      (serve scope calls e).2.raised.toList = e.raised.toList ++
        calls.flatMap fun call => ((call.step scope).run (ofLimit limit)).2.raised.toList := by
  -- by induction on the calls: each begins at depth zero, as the one before has left all levels
  induction calls generalizing e with
  | nil => exact ⟨rfl, he, by simp [serve]⟩
  | cons call calls ih =>
    have hcall := call.guarded scope hlimit he
    obtain ⟨houtcomes, hnesting, hraised⟩ := ih hcall.nesting
    refine ⟨?_, hnesting, ?_⟩
    · calc (serve scope (call :: calls) e).1
          = ((call.step scope).run e).1 :: (serve scope calls ((call.step scope).run e).2).1 := rfl
        _ = _ := by rw [houtcomes, hcall.outcome, List.map_cons]
    · calc (serve scope (call :: calls) e).2.raised.toList
          = (serve scope calls ((call.step scope).run e).2).2.raised.toList := rfl
        _ = _ := by
          rw [hraised, hcall.raised, Array.toList_append, List.append_assoc, List.flatMap_cons]

/-- What is promised of evaluations under a limit on the depth. -/
structure Scope.Guards (scope : Scope) (limit : Nat) : Prop where
  /-- Within the limit an evaluation follows its recursion, of which no bound is left: the value
  behind a handle is that of the node, one level deeper, with the values of what the node needs
  evaluated in the same way. -/
  recursion : ∀ (held : Nat) (id : NodeId) (tripped : Bool) (raised : Array Diagnostic),
    held ≤ limit → (visit scope id).run ⟨⟨held, limit⟩, tripped, raised⟩ =
      (deeper scope (nodeBehind scope (visit scope) id)).run ⟨⟨held, limit⟩, tripped, raised⟩
  /-- Every call from depth zero keeps the promises, whatever was raised before and whether or not
  the limit was reached before. -/
  call : ∀ (call : Call) (e : Evaluation), e.nesting = .ofLimit limit → call.Guarded scope limit e
  /-- Calls one after the other come to what each would come to as the first. -/
  outcomes : ∀ (calls : List Call) (e : Evaluation), e.nesting = .ofLimit limit →
    (serve scope calls e).1 = calls.map fun call => ((call.step scope).run (ofLimit limit)).1
  /-- Together they raise what each would raise as the first, in order. -/
  raised : ∀ (calls : List Call) (e : Evaluation), e.nesting = .ofLimit limit →
    (serve scope calls e).2.raised.toList = e.raised.toList ++
      calls.flatMap fun call => ((call.step scope).run (ofLimit limit)).2.raised.toList
  /-- They leave all levels. -/
  nesting : ∀ (calls : List Call) (e : Evaluation), e.nesting = .ofLimit limit →
    (serve scope calls e).2.nesting = .ofLimit limit
  /-- Where there is a console, a call has the same result and leaves the same levels, and the
  console is told what the call raises. -/
  telling : ∀ (call : Call) (e : Evaluation) (c : Console),
    (call.telling scope).run (.ofTold c e) =
      (((call.step scope).run e).1, .ofTold c ((call.step scope).run e).2)
  /-- Wherever an evaluation comes to a text, the walk to what is to blame for it ends. -/
  blames : ∀ (levels : Nat) (id : NodeId) (e : Evaluation) (content : String),
    ((visitWithin scope levels id).run e).1 = .ok (.text content) →
      ∃ count, Blames scope.forest content count id
        (blame scope.forest content (scope.forest.size + 1) id)

/-- Whatever is stored and whatever the symbols refer to, evaluation under a limit on the depth
ends, warns of the limit exactly where it must and can be used again. -/
theorem guarded_calls (scope : Scope) {limit : Nat} (hlimit : 0 < limit) : scope.Guards limit where
  recursion _ id tripped raised hheld := run_visit scope hlimit hheld id tripped raised
  call call _ he := call.guarded scope hlimit he
  outcomes calls _ he := (serve_eq scope hlimit calls he).1
  raised calls _ he := (serve_eq scope hlimit calls he).2.2
  nesting calls _ he := (serve_eq scope hlimit calls he).2.1
  telling call e c := call.run_telling scope e c
  blames _ _ _ _ h := exists_blames_of_text h

/-- A variable that adds itself to itself, parentheses that hold themselves, a text and a number. -/
def circular : Scope where
  forest :=
    let nodes : List Node := [.variable (Name.ofText "V"), .binary .add ⟨0, 0⟩ ⟨0, 0⟩,
      .parens ⟨2, 0⟩, .text "T", .number 1.0]
    nodes.foldl (fun forest node => (forest.alloc node).2) .empty
  symbols := { Symbols.empty with
    vars := Table.empty.put ⟨Name.ofText "V", ⟨1, 0⟩, Position.unread⟩ rfl }
  pos := Position.unread

/-- Calls for the variable, for the text as a number, for the parentheses, for a handle that is
stale and for the number: two reach the limit, two fail, and the last has a value as if it were the
first. Where there is a console, the first call is warned about there. -/
theorem guarded_calls_of_circular :
    let calls : List Call :=
      [.value ⟨0, 0⟩, .number ⟨3, 0⟩, .value ⟨2, 0⟩, .value ⟨9, 0⟩, .value ⟨4, 0⟩]
    0 < 5 ∧ circular.Guards 5 ∧
      (serve circular calls (ofLimit 5)).1.map Except.isOk = [true, false, true, false, true] ∧
      warnings (serve circular calls (ofLimit 5)).2.raised = 2 ∧
      (((Call.value ⟨0, 0⟩).telling circular).run
        (.ofTold (Console.ofPolicy {}) (ofLimit 5))).2.console.ledger.warnings = 1 ∧
      5 < circular.depth ⟨0, 0⟩ ∧ ¬5 < circular.depth ⟨4, 0⟩ := by
  intro calls
  have hguards : circular.Guards 5 := guarded_calls circular (by decide)
  have hcall (call : Call) := hguards.call call (ofLimit 5) rfl
  refine ⟨by decide, hguards, by decide +kernel, by decide +kernel, ?_, ?_, ?_⟩
  · rw [hguards.telling]
    decide +kernel
  · exact ((hcall (.value ⟨0, 0⟩)).warned_iff (by decide +kernel)).1 (by decide +kernel)
  · have hflat : ¬circular.Exceeds 5 ⟨4, 0⟩ := by decide +kernel
    exact mt Scope.lt_depth_iff.1 hflat

end Beamline.Evaluation
