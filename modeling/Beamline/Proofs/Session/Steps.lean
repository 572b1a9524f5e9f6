import Beamline.Proofs.Clause
import Beamline.Proofs.Mirror
import Beamline.Proofs.Session.Basic

/-!
# Requests one by one

A run of statements is the statements applied one after the other, up to the first that ends in an
error. So a list of requests can be unrolled into one without runs, which comes to the same
session, and what is to be shown of every session needs to be shown of single statements only.

* `Session.run_cases`: a run comes to its end, or to the first statement that fails.
* `Session.after_unrolled`: the unrolled requests come to the same session.
-/

namespace Beamline

open Beamline.Expr (Formula)

/-! ## What requests hand over -/

/-- The formulas that a request hands over. -/
def Request.formulas : Request → List Formula
  | .apply statement => statement.clause.formulas
  | .run statements => statements.flatMap fun statement => statement.clause.formulas
  | .defineConstant _ formula _ | .defineVariable _ formula _ _ | .lower formula => [formula]
  | .defineElement _ _ items _ => items.flatMap Element.Item.formulas
  | _ => []

/-- The bodies of lines that a request hands over. -/
def Request.bodies : Request → List Line.Body
  | .apply statement => statement.clause.bodies
  | .run statements => statements.flatMap fun statement => statement.clause.bodies
  | .defineLine _ body _ | .layout body => [body]
  | _ => []

/-- The element that a request defines. -/
def Request.element? : Request → Option Name
  | .apply statement => statement.clause.element?
  | .defineElement raw _ _ _ => some (Name.ofText raw)
  | _ => none

namespace Request

/-- The statement that a request asks for. -/
def statement? : Request → Option Statement
  | .apply statement => some statement
  | .defineConstant raw formula pos => some ⟨.constant raw formula, pos⟩
  | .defineVariable raw formula binding pos => some ⟨.variable raw formula binding, pos⟩
  | .defineElement raw kind items pos => some ⟨.element raw kind items, pos⟩
  | .defineLine raw body pos => some ⟨.line raw body, pos⟩
  | _ => none

/-- The symbol that a request defines. -/
def symbol? (request : Request) : Option Symbol :=
  request.statement?.bind fun statement => statement.clause.symbol?

/-- Whether a request is passed over because a comment block is open. Definitions that are no
statements never are. -/
def isSkipped (commentary : Commentary) : Request → Bool
  | .apply statement => commentary.isActive && !statement.clause.isComment
  | _ => false

end Request

/-- The request is no run of statements. -/
def Request.IsSingle (request : Request) : Prop :=
  ∀ statements, request ≠ .run statements

theorem Request.isSingle_apply (statement : Statement) : (apply statement).IsSingle :=
  nofun

/-- A request for one statement is single. -/
theorem Request.isSingle_of_statement? {request : Request} {statement : Statement}
    (h : request.statement? = some statement) : request.IsSingle := by
  rintro statements rfl
  cases h

/-- A request is single, or it is a run of statements. -/
theorem Request.isSingle_or_run (request : Request) :
    request.IsSingle ∨ ∃ statements, request = .run statements := by
  cases request with
  | run statements => exact .inr ⟨statements, rfl⟩
  | _ => exact .inl nofun

namespace Session

variable {s : Session} {statement : Statement} {statements : List Statement}

theorem after_append (s : Session) (requests more : List Request) :
    s.after (requests ++ more) = (s.after requests).after more :=
  List.foldl_append

/-! ## Runs -/

theorem step_run_of_error {e : FatalError}
    (h : (s.step (.apply statement)).1.error? = some e) :
    s.step (.run (statement :: statements)) = s.step (.apply statement) := by
  change (s.perform (Interpreter.apply statement) .done).1.error? = _ at h
  change s.perform (Interpreter.apply statement >>= fun _ => Interpreter.run statements) .done =
    s.perform (Interpreter.apply statement) .done
  rw [run_perform] at h
  rw [run_perform, run_perform]
  rcases hrun : (Interpreter.apply statement).run s.interpreter with ⟨x | x, it⟩
  · rw [run_bind_of_error hrun]
  · rw [hrun] at h
    cases h

theorem step_run_of_ok (h : (s.step (.apply statement)).1.error? = none) :
    s.step (.run (statement :: statements)) =
      (s.step (.apply statement)).2.step (.run statements) := by
  change (s.perform (Interpreter.apply statement) .done).1.error? = _ at h
  change s.perform (Interpreter.apply statement >>= fun _ => Interpreter.run statements) .done =
    (s.perform (Interpreter.apply statement) .done).2.perform (Interpreter.run statements) .done
  rw [run_perform] at h
  rw [run_perform, run_perform, run_perform]
  rcases hrun : (Interpreter.apply statement).run s.interpreter with ⟨x | x, it⟩
  · rw [hrun] at h
    cases h
  · rw [run_bind_of_ok hrun]

/-- A run by its first statement. -/
theorem step_run_cons (s : Session) (statement : Statement) (statements : List Statement) :
    s.step (.run (statement :: statements)) =
      match (s.step (.apply statement)).1.error? with
      | some _ => s.step (.apply statement)
      | none => (s.step (.apply statement)).2.step (.run statements) := by
  cases herror : (s.step (.apply statement)).1.error? with
  | some e => exact step_run_of_error herror
  | none => exact step_run_of_ok herror

/-- A run comes to its end, or it ends with the first statement that fails, as if the statements
before had been applied and then this one. -/
theorem run_cases (s : Session) (statements : List Statement) :
    s.step (.run statements) = (.done (.ok ()), s.after (statements.map .apply)) ∨
      ∃ applied statement rest e, statements = applied ++ statement :: rest ∧
        (∀ entry ∈ s.trace (applied.map .apply), entry.1.error? = none) ∧
        ((s.after (applied.map .apply)).step (.apply statement)).1.error? = some e ∧
        s.step (.run statements) = (s.after (applied.map .apply)).step (.apply statement) := by
  induction statements generalizing s with
  | nil => exact .inl rfl
  | cons statement statements ih =>
    cases herror : (s.step (.apply statement)).1.error? with
    | some e =>
      refine .inr ⟨[], statement, statements, e, rfl, List.forall_mem_nil _, herror, ?_⟩
      exact step_run_of_error herror
    | none =>
      rw [step_run_of_ok herror]
      rcases ih (s.step (.apply statement)).2 with
        hrun | ⟨applied, failing, rest, e, rfl, hnone, hfails, hrun⟩
      · exact .inl hrun
      · refine .inr ⟨statement :: applied, failing, rest, e, rfl, ?_, hfails, hrun⟩
        rw [List.map_cons, trace_cons]
        exact List.forall_mem_cons.2 ⟨herror, hnone⟩

/-- The statements that a run comes to: up to the first that fails, which is one of them. -/
def applied (s : Session) : List Statement → List Statement
  | [] => []
  | statement :: statements =>
    statement ::
      match (s.step (.apply statement)).1.error? with
      | none => (s.step (.apply statement)).2.applied statements
      | some _ => []

theorem applied_sublist (s : Session) (statements : List Statement) :
    (s.applied statements).Sublist statements := by
  induction statements generalizing s with
  | nil => exact .slnil
  | cons statement statements ih =>
    rw [applied]
    refine List.Sublist.cons_cons _ ?_
    cases (s.step (.apply statement)).1.error? with
    | none => exact ih _
    | some e => exact List.nil_sublist _

/-- A run leaves the session that its statements leave. -/
theorem after_applied (s : Session) (statements : List Statement) :
    s.after ((s.applied statements).map .apply) = (s.step (.run statements)).2 := by
  induction statements generalizing s with
  | nil => rfl
  | cons statement statements ih =>
    rw [applied, List.map_cons]
    cases herror : (s.step (.apply statement)).1.error? with
    | none =>
      rw [step_run_of_ok herror]
      exact ih _
    | some e =>
      rw [step_run_of_error herror]
      rfl

/-! ## Unrolling -/

/-- What is asked for in single requests: a run by the statements that it comes to. -/
def unroll (s : Session) : Request → List Request
  | .run statements => (s.applied statements).map .apply
  | request => [request]

theorem after_unroll (s : Session) (request : Request) :
    s.after (s.unroll request) = (s.step request).2 := by
  unfold unroll
  split
  · exact after_applied s _
  · rfl

theorem isSingle_of_mem_unroll {request other : Request} (h : other ∈ s.unroll request) :
    other.IsSingle ∧ other.formulas ⊆ request.formulas := by
  unfold unroll at h
  split at h
  · rename_i statements
    obtain ⟨statement, hmem, rfl⟩ := List.mem_map.1 h
    refine ⟨Request.isSingle_apply statement, fun formula hformula => ?_⟩
    exact List.mem_flatMap.2 ⟨statement, (applied_sublist s statements).subset hmem, hformula⟩
  · rename_i hsingle
    obtain rfl := List.mem_singleton.1 h
    exact ⟨hsingle, List.Subset.refl _⟩

/-- The requests with each run replaced by the statements that it comes to. -/
def unrolled (s : Session) : List Request → List Request
  | [] => []
  | request :: requests => s.unroll request ++ (s.step request).2.unrolled requests

/-- The unrolled requests come to the same session. -/
theorem after_unrolled (s : Session) (requests : List Request) :
    s.after (s.unrolled requests) = s.after requests := by
  induction requests generalizing s with
  | nil => rfl
  | cons request requests ih =>
    rw [unrolled, after_append, after_unroll]
    exact ih _

/-- No run is left among the unrolled requests, and they hand over no further formulas. -/
theorem isSingle_of_mem_unrolled {requests : List Request} {request : Request}
    (h : request ∈ s.unrolled requests) :
    request.IsSingle ∧ ∃ origin ∈ requests, request.formulas ⊆ origin.formulas := by
  induction requests generalizing s with
  | nil => cases h
  | cons head requests ih =>
    rcases List.mem_append.1 h with h | h
    · obtain ⟨hsingle, hsub⟩ := isSingle_of_mem_unroll h
      exact ⟨hsingle, head, List.mem_cons_self, hsub⟩
    · obtain ⟨hsingle, origin, hmem, hsub⟩ := ih h
      exact ⟨hsingle, origin, List.mem_cons_of_mem _ hmem, hsub⟩

end Session

end Beamline
