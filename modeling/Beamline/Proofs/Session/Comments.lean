import Beamline.Proofs.Deck.Failure
import Beamline.Proofs.Session.Reports

/-!
# Commented-out statements

While a comment block is open, only statements about comments count. A statement that is passed
over leaves nothing behind but its position, and the next one to be applied moves on from there. So
a list of statements can be freed from what is commented out before it is run. How many blocks are
open is known from the list alone, as no definition opens or closes one, be it that it fails.

* `Deck.ensures_depth_apply`: how many blocks a statement leaves open.
* `Session.run_uncommented`: a run comes to the same without what is commented out.
-/

namespace Beamline

open Source (Position)
open Diagnostic (Condition)
open Beamline.Expr (Forest Formula)

/-! ## Open blocks -/

/-- How many comment blocks are open after a clause. An end without a begin leaves none open. -/
def Clause.depthAfter (depth : Nat) : Clause → Nat
  | .beginComment => depth + 1
  | .endComment => depth - 1
  | _ => depth

theorem Clause.depthAfter_of_isComment_eq_false {clause : Clause} (h : clause.isComment = false)
    (depth : Nat) : clause.depthAfter depth = depth := by
  cases clause with
  | beginComment | endComment | comment => cases h
  | _ => rfl

namespace Statement

/-- How many comment blocks are open after statements. -/
def depthAfter (depth : Nat) (statements : List Statement) : Nat :=
  statements.foldl (fun depth statement => statement.clause.depthAfter depth) depth

theorem depthAfter_cons (depth : Nat) (statement : Statement) (statements : List Statement) :
    depthAfter depth (statement :: statements) =
      depthAfter (statement.clause.depthAfter depth) statements :=
  rfl

/-- The most comment blocks that are open at once while statements are read. -/
def deepest (depth : Nat) : List Statement → Nat
  | [] => depth
  | statement :: statements =>
    max depth (deepest (statement.clause.depthAfter depth) statements)

theorem le_deepest (depth : Nat) (statements : List Statement) :
    depth ≤ deepest depth statements := by
  cases statements with
  | nil => exact Nat.le_refl depth
  | cons => exact Nat.le_max_left ..

theorem deepest_append_le (depth : Nat) (statements more : List Statement) :
    deepest depth statements ≤ deepest depth (statements ++ more) := by
  induction statements generalizing depth with
  | nil => exact le_deepest depth more
  | cons statement statements ih =>
    rw [List.cons_append, deepest, deepest]
    have := ih (statement.clause.depthAfter depth)
    omega

/-- Whether a statement is commented out where so many blocks are open: it is not about comments,
and there is an open block. -/
def isCommentedOut (depth : Nat) (statement : Statement) : Bool :=
  0 < depth && !statement.clause.isComment

theorem isComment_of_isCommentedOut {statement : Statement} {depth : Nat}
    (h : statement.isCommentedOut depth = true) : statement.clause.isComment = false := by
  simpa using (Bool.and_eq_true_iff.1 h).2

theorem isCommentedOut_of_isComment {statement : Statement} (h : statement.clause.isComment = true)
    (depth : Nat) : statement.isCommentedOut depth = false := by
  simp [isCommentedOut, h]

/-- The statements without those that are commented out. -/
def uncommented (depth : Nat) : List Statement → List Statement
  | [] => []
  | statement :: statements =>
    let rest := uncommented (statement.clause.depthAfter depth) statements
    if statement.isCommentedOut depth then rest else statement :: rest

end Statement

/-! ## What clauses do to the commentary -/

namespace Deck

variable {commentary : Commentary} {α β : Type} {depth : Nat}

/-- The action keeps the commentary, be it that it comes to a result or to an error. -/
abbrev KeepsCommentary (commentary : Commentary) (a : Action α) : Prop :=
  Preserves (fun w : Work => w.deck.commentary = commentary) a

/-- The commentary is kept with the records. -/
theorem KeepsCommentary.of_keepsRecords {a : Action α} (h : ∀ deck, KeepsRecords deck none a) :
    KeepsCommentary commentary a := by
  rintro w rfl
  have hleft := (h w.deck).run (KeepsBut.refl w.deck)
  rcases hrun : a.run w with ⟨e | x, w'⟩ <;> rw [hrun] at hleft
  · exact .inr ⟨e, w', rfl, hleft.commentary⟩
  · exact .inl ⟨x, w', rfl, hleft.commentary⟩

theorem keepsCommentary_onTable [Record α] {get : Symbols → Table α}
    {set : Table α → Symbols → Symbols}
    {step : Table α → Forest → Except Expr.Fault β × Table α × Forest} :
    KeepsCommentary commentary (onTable get set step) :=
  ensures_onTable (fun _ _ _ _ hw _ => hw) fun _ _ _ _ hw _ => hw

theorem keepsCommentary_raise (condition : Condition) :
    KeepsCommentary commentary (raise condition) :=
  .of_keepsRecords fun _ => keepsRecords_raise condition

theorem keepsCommentary_evaluate (id : Expr.NodeId) : KeepsCommentary commentary (evaluate id) :=
  .of_keepsRecords fun _ => keepsRecords_evaluate id

theorem keepsCommentary_lowerWith (constantsOnly : Bool) (formula : Formula) :
    KeepsCommentary commentary (lowerWith constantsOnly formula) :=
  .of_keepsRecords fun _ => keepsRecords_lowerWith constantsOnly formula

theorem keepsCommentary_defineConstant (raw : String) (formula : Formula) :
    KeepsCommentary commentary (defineConstant raw formula) := by
  refine ensures_current fun deck => Ensures.ite (fun _ => keepsCommentary_raise _) fun _ => ?_
  refine (keepsCommentary_lowerWith true formula).bind fun id => ?_
  refine (keepsCommentary_evaluate id).bind fun value => ensures_current fun deck => ?_
  refine Ensures.ite (fun _ => ?_) fun _ => keepsCommentary_onTable.discarded
  exact (keepsCommentary_raise _).bind fun _ => keepsCommentary_onTable.discarded

theorem keepsCommentary_defineVariable (raw : String) (formula : Formula) (binding : Binding) :
    KeepsCommentary commentary (defineVariable raw formula binding) := by
  have hinsert (expr : Expr.NodeId) : KeepsCommentary commentary (do
      discard <| insertVariable { name := Name.ofText raw, expr, pos := (← current).pos }) :=
    ensures_current fun deck => keepsCommentary_onTable.discarded
  refine ensures_current fun deck => Ensures.ite (fun _ => keepsCommentary_raise _) fun _ => ?_
  refine (keepsCommentary_lowerWith false formula).bind fun id => ?_
  cases binding with
  | deferred => exact hinsert id
  | immediate =>
    refine (keepsCommentary_evaluate id).bind fun value => ?_
    refine (KeepsCommentary.of_keepsRecords fun _ => keepsRecords_release id).bind fun _ => ?_
    exact (KeepsCommentary.of_keepsRecords fun _ => keepsRecords_onForest _).bind hinsert

theorem keepsCommentary_defineElement (raw : String) (kind : Element.Kind)
    (items : List Element.Item) : KeepsCommentary commentary (defineElement raw kind items) := by
  -- what follows the removal, be there an element of the name or not
  have hrest : KeepsCommentary commentary (do
      let element ← items.foldlM enterItem (Element.blank (Name.ofText raw) kind (← current).pos)
      discard <| insertElement element) := by
    refine ensures_current fun deck =>
      Ensures.bind ?_ fun element => keepsCommentary_onTable.discarded
    exact Ensures.foldlM (fun item _ element =>
      KeepsCommentary.of_keepsRecords fun _ => keepsRecords_enterItem element item) _
  refine keepsCommentary_onTable.bind fun isDefined => Ensures.ite (fun _ => ?_) fun _ => hrest
  exact (keepsCommentary_raise _).bind fun _ => hrest

theorem keepsCommentary_defineLine (raw : String) (body : Line.Body) :
    KeepsCommentary commentary (defineLine raw body) := by
  have hinsert (entries : List Line.Entry) : KeepsCommentary commentary (do
      discard <| insertLine { name := Name.ofText raw, entries, pos := (← current).pos }) :=
    ensures_current fun deck => keepsCommentary_onTable.discarded
  refine (KeepsCommentary.of_keepsRecords fun _ => keepsRecords_layout body).bind fun entries => ?_
  refine keepsCommentary_onTable.bind fun isDefined =>
    Ensures.ite (fun _ => ?_) fun _ => hinsert entries
  exact (keepsCommentary_raise _).bind fun _ => hinsert entries

/-- Clauses that are not about comments keep the commentary. -/
theorem keepsCommentary_perform {clause : Clause} (h : clause.isComment = false) :
    KeepsCommentary commentary (perform clause) := by
  cases clause with
  | constant raw formula => exact keepsCommentary_defineConstant raw formula
  | «variable» raw formula binding => exact keepsCommentary_defineVariable raw formula binding
  | element raw kind items => exact keepsCommentary_defineElement raw kind items
  | line raw body => exact keepsCommentary_defineLine raw body
  | pragma keyword text => exact Ensures.of_pure fun _ => id
  | beginComment | endComment | comment => cases h

/-- So many comment blocks are open. -/
def HasDepth (depth : Nat) (w : Work) : Prop :=
  w.deck.commentary.depth = depth

/-- The end of a block that was not begun is warned about, and nothing else happens. -/
theorem run_endComment_of_unmatched {w : Work} (h : w.deck.commentary.depth = 0) :
    endComment.run w =
      (.ok (), { w with
        raised := w.raised.push (Condition.unmatchedEnd.diagnostic w.deck.pos) }) := by
  have hcurrent : current.run w = (.ok w.deck, w) := rfl
  rw [endComment, run_bind_of_ok hcurrent, Commentary.finish, if_pos h]
  rfl

theorem run_endComment_of_open {w : Work} (h : w.deck.commentary.depth ≠ 0) :
    endComment.run w =
      (.ok (), { w with deck := { w.deck with
        commentary := { w.deck.commentary with depth := w.deck.commentary.depth - 1 } } }) := by
  have hcurrent : current.run w = (.ok w.deck, w) := rfl
  rw [endComment, run_bind_of_ok hcurrent, Commentary.finish, if_neg h]
  rfl

/-- A clause leaves as many blocks open as the list of statements tells, be it that it fails. -/
theorem ensures_depth_perform {clause : Clause}
    (h : clause.depthAfter depth ≤ Commentary.maxDepth) :
    Ensures (HasDepth depth) (perform clause) (fun _ => HasDepth (clause.depthAfter depth))
      fun _ => HasDepth (clause.depthAfter depth) := by
  rintro w rfl
  cases hcomment : clause.isComment with
  | false =>
    rw [Clause.depthAfter_of_isComment_eq_false hcomment]
    have hkeeps := (keepsCommentary_perform hcomment).run (rfl : w.deck.commentary = _)
    rcases hrun : (perform clause).run w with ⟨e | x, w'⟩ <;> rw [hrun] at hkeeps
    · exact .inr ⟨e, w', rfl, congrArg Commentary.depth hkeeps⟩
    · exact .inl ⟨x, w', rfl, congrArg Commentary.depth hkeeps⟩
  | true =>
    cases clause with
    | beginComment => exact .inl ⟨(), _, rfl, Nat.min_eq_left h⟩
    | endComment =>
      by_cases hdepth : w.deck.commentary.depth = 0
      · refine .inl ⟨(), _, run_endComment_of_unmatched hdepth, ?_⟩
        exact hdepth.trans (congrArg (· - 1) hdepth).symm
      · exact .inl ⟨(), _, run_endComment_of_open hdepth, rfl⟩
    | comment text atEnd => exact .inl ⟨(), _, rfl, rfl⟩
    | _ => cases hcomment

/-! ## Statements -/

/-- A statement that is commented out changes nothing but the position. -/
theorem run_apply_of_isCommentedOut {statement : Statement} {w : Work}
    (h : statement.isCommentedOut w.deck.commentary.depth = true) :
    (apply statement).run w = (.ok (), { w with deck := w.deck.movedTo statement.pos }) := by
  change (if statement.isCommentedOut w.deck.commentary.depth = true then pure ()
    else perform statement.clause : Action Unit).run _ = _
  rw [if_pos h]
  rfl

theorem run_apply_of_isCommentedOut_eq_false {statement : Statement} {w : Work}
    (h : statement.isCommentedOut w.deck.commentary.depth = false) :
    (apply statement).run w =
      (perform statement.clause).run { w with deck := w.deck.movedTo statement.pos } := by
  change (if statement.isCommentedOut w.deck.commentary.depth = true then pure ()
    else perform statement.clause : Action Unit).run _ = _
  rw [if_neg (Bool.eq_false_iff.1 h)]
  rfl

/-- So does a statement, be it that it is commented out. -/
theorem ensures_depth_apply {statement : Statement}
    (h : statement.clause.depthAfter depth ≤ Commentary.maxDepth) :
    Ensures (HasDepth depth) (apply statement)
      (fun _ => HasDepth (statement.clause.depthAfter depth))
      fun _ => HasDepth (statement.clause.depthAfter depth) := by
  rintro w rfl
  cases hout : statement.isCommentedOut w.deck.commentary.depth with
  | true =>
    refine .inl ⟨(), _, run_apply_of_isCommentedOut hout, ?_⟩
    have hcomment := Statement.isComment_of_isCommentedOut hout
    exact (Clause.depthAfter_of_isComment_eq_false hcomment _).symm
  | false =>
    rw [run_apply_of_isCommentedOut_eq_false hout]
    exact ensures_depth_perform h _ rfl

end Deck

/-! ## Sessions -/

namespace Session

variable {s : Session} {statement : Statement} {statements : List Statement}

/-- How many comment blocks are open. -/
def depth (s : Session) : Nat :=
  s.interpreter.deck.commentary.depth

/-- The session at another position. -/
def movedTo (pos : Position) (s : Session) : Session :=
  { s with interpreter := { s.interpreter with deck := s.interpreter.deck.movedTo pos } }

/-- A statement moves on to its own position first, so that where the one before was read does not
matter. -/
theorem step_apply_movedTo (s : Session) (pos : Position) (statement : Statement) :
    (s.movedTo pos).step (.apply statement) = s.step (.apply statement) :=
  rfl

/-- A statement that is commented out leaves nothing behind but its position. -/
theorem step_apply_of_isCommentedOut (h : statement.isCommentedOut s.depth = true) :
    s.step (.apply statement) = (.done (.ok ()), s.movedTo statement.pos) := by
  have hrun := Deck.run_apply_of_isCommentedOut (w := ⟨s.interpreter.deck, #[]⟩) h
  rw [step_apply, run_perform, Interpreter.run_perform, hrun]
  rfl

/-- How many blocks are open after a statement is known without applying it. -/
theorem depth_step_apply (h : statement.clause.depthAfter s.depth ≤ Commentary.maxDepth) :
    (s.step (.apply statement)).2.depth = statement.clause.depthAfter s.depth := by
  have hdepth := Deck.ensures_depth_apply h ⟨s.interpreter.deck, #[]⟩ rfl
  rw [step_apply, run_perform, Interpreter.run_perform]
  rcases hdepth with ⟨x, w, hrun, hw⟩ | ⟨e, w, hrun, hw⟩ <;> rw [hrun] <;> exact hw

/-! ## Runs -/

/-- A run in two parts, if the first comes to its end. -/
theorem step_run_append (h : (s.step (.run statements)).1.error? = none) (more : List Statement) :
    s.step (.run (statements ++ more)) = (s.step (.run statements)).2.step (.run more) ∧
      s.reportsOf (.run (statements ++ more)) =
        s.reportsOf (.run statements) ++ (s.step (.run statements)).2.reportsOf (.run more) := by
  induction statements generalizing s with
  | nil => exact ⟨rfl, rfl⟩
  | cons statement statements ih =>
    cases herror : (s.step (.apply statement)).1.error? with
    | some e =>
      rw [step_run_of_error herror, herror] at h
      cases h
    | none =>
      rw [step_run_of_ok herror] at h ⊢
      obtain ⟨hstep, hreports⟩ := ih h
      refine ⟨(step_run_of_ok herror).trans hstep, ?_⟩
      change s.reportsOfRun (statement :: (statements ++ more)) =
        s.reportsOfRun (statement :: statements) ++ _
      rw [reportsOfRun, reportsOfRun, herror, List.append_assoc]
      exact congrArg _ hreports

/-- How many blocks a run leaves open is known without it. -/
theorem depth_step_run (hdepth : Statement.deepest s.depth statements ≤ Commentary.maxDepth)
    (h : (s.step (.run statements)).1.error? = none) :
    (s.step (.run statements)).2.depth = Statement.depthAfter s.depth statements := by
  induction statements generalizing s with
  | nil => rfl
  | cons statement statements ih =>
    have hrest := Nat.le_trans (Nat.le_max_right ..) hdepth
    cases herror : (s.step (.apply statement)).1.error? with
    | some e =>
      rw [step_run_of_error herror, herror] at h
      cases h
    | none =>
      rw [step_run_of_ok herror] at h ⊢
      have hfirst := depth_step_apply (s := s) (Nat.le_trans (Statement.le_deepest ..) hrest)
      rw [Statement.depthAfter_cons, ← hfirst]
      rw [← hfirst] at hrest
      exact ih hrest h

/-- The end of a block that was not begun raises one warning and leaves no block open. -/
theorem step_run_unmatchedEnd (pos : Position) (h : s.depth = 0) :
    let x := s.step (.run [⟨.endComment, pos⟩])
    x.1 = .done (.ok ()) ∧
      s.reportsOf (.run [⟨.endComment, pos⟩]) = [Condition.unmatchedEnd.diagnostic pos] ∧
      x.2.depth = 0 := by
  intro x
  have hrun : (Deck.apply ⟨.endComment, pos⟩).run ⟨s.interpreter.deck, #[]⟩ =
      (.ok (), ⟨s.interpreter.deck.movedTo pos, #[Condition.unmatchedEnd.diagnostic pos]⟩) :=
    (Deck.run_apply_of_isCommentedOut_eq_false (Statement.isCommentedOut_of_isComment rfl _)).trans
      (Deck.run_endComment_of_unmatched h)
  have hserve : s.runAction (.apply ⟨.endComment, pos⟩) =
      (.ok Request.done,
        ⟨s.interpreter.deck.movedTo pos, #[Condition.unmatchedEnd.diagnostic pos]⟩) := by
    refine (run_map _ _ _).trans ?_
    rw [hrun]
    rfl
  have hreports : s.reportsOfSingle (.apply ⟨.endComment, pos⟩) =
      [Condition.unmatchedEnd.diagnostic pos] := by
    rw [reportsOfSingle, hserve]
    rfl
  have hstep := step_eq (s := s) (Request.isSingle_apply ⟨.endComment, pos⟩)
  have herror : (s.step (.apply ⟨.endComment, pos⟩)).1.error? = none := by
    rw [hstep, serve, hserve]
    rfl
  have hx : x = (.done (.ok ()), (s.step (.apply ⟨.endComment, pos⟩)).2) := step_run_of_ok herror
  rw [hx, reportsOf, reportsOfRun, hreports, herror, hstep, serve, hserve]
  exact ⟨rfl, rfl, h⟩

/-- A run comes to the same without what is commented out, wherever the statement before was
read. -/
theorem run_uncommented_from (pos : Position)
    (hdepth : Statement.deepest s.depth statements ≤ Commentary.maxDepth) :
    let x := s.step (.run statements)
    let y := (s.movedTo pos).step (.run (Statement.uncommented s.depth statements))
    y.1 = x.1 ∧ x.2 = y.2.movedTo x.2.interpreter.deck.pos := by
  induction statements generalizing s pos with
  | nil => exact ⟨rfl, rfl⟩
  | cons statement statements ih =>
    have hrest := Nat.le_trans (Nat.le_max_right ..) hdepth
    have hfirst := depth_step_apply (s := s) (Nat.le_trans (Statement.le_deepest ..) hrest)
    rw [Statement.uncommented, ← hfirst]
    rw [← hfirst] at hrest
    cases hout : statement.isCommentedOut s.depth with
    | true =>
      -- only the position has changed, which the statements left do not look at
      have hskip := step_apply_of_isCommentedOut hout
      have herror : (s.step (.apply statement)).1.error? = none := congrArg (·.1.error?) hskip
      rw [if_pos rfl, step_run_of_ok herror]
      rw [hskip] at hrest ⊢
      exact ih pos hrest
    | false =>
      rw [if_neg Bool.false_ne_true, step_run_cons, step_run_cons, step_apply_movedTo]
      cases (s.step (.apply statement)).1.error? with
      | some e => exact ⟨rfl, rfl⟩
      | none => exact ih (s.step (.apply statement)).2.interpreter.deck.pos hrest

/-- Statements that are commented out are as if they were deleted. The run without them comes to the
same answer and to the same session but for the position of the statement read last: the records,
the stored expressions, what the console has kept and printed, the files being read and the
comments are the same. Blocks may nest, may be left open, and may be closed without having been
opened: an end without a begin raises one warning and leaves no block open. How many blocks a run
leaves open can be told from the statements. -/
theorem run_uncommented (s : Session) (statements : List Statement)
    (hdepth : Statement.deepest s.depth statements < UInt32.size) :
    let x := s.step (.run statements)
    let y := s.step (.run (Statement.uncommented s.depth statements))
    y.1 = x.1 ∧ x.2 = y.2.movedTo x.2.interpreter.deck.pos ∧
      (x.1.error? = none → x.2.depth = Statement.depthAfter s.depth statements) ∧
      ∀ before pos more, statements = before ++ ⟨.endComment, pos⟩ :: more →
        (s.step (.run before)).1.error? = none → Statement.depthAfter s.depth before = 0 →
          let z := s.step (.run (before ++ [⟨.endComment, pos⟩]))
          z.1 = .done (.ok ()) ∧ z.2.depth = 0 ∧
            s.reportsOf (.run (before ++ [⟨.endComment, pos⟩])) =
              s.reportsOf (.run before) ++ [Condition.unmatchedEnd.diagnostic pos] := by
  have hmax : Statement.deepest s.depth statements ≤ Commentary.maxDepth :=
    Nat.le_sub_one_of_lt hdepth
  intro x y
  obtain ⟨hanswer, hsession⟩ := run_uncommented_from s.interpreter.deck.pos hmax
  refine ⟨hanswer, hsession, depth_step_run hmax, ?_⟩
  rintro before pos more rfl hok hclosed
  have hbefore := Nat.le_trans (Statement.deepest_append_le ..) hmax
  rw [← depth_step_run hbefore hok] at hclosed
  obtain ⟨hstep, hreports⟩ := step_run_append hok [⟨.endComment, pos⟩]
  obtain ⟨hdone, hraised, hleft⟩ := step_run_unmatchedEnd pos hclosed
  rw [hstep, hreports, hraised]
  exact ⟨hdone, hleft, rfl⟩

/-- One block is left open from before, and another is opened. The constant in the inner block would
end the run, and the variable in the outer one would be stored; both are passed over, as is the line
after the last begin, which is never closed. The second end on end closes a block that was not
begun, and is warned about. -/
theorem run_uncommented_of_nested :
    let begun : Statement := ⟨.beginComment, Position.inBuffer 1⟩
    let failing : Statement :=
      ⟨.constant "C" (.binary .add (.number 1.0) (.text "x")), Position.inBuffer 2⟩
    let ended (line : Nat) : Statement := ⟨.endComment, Position.inBuffer line⟩
    let note : Statement := ⟨.comment "note" false, Position.inBuffer 4⟩
    let assigned (name : String) (line : Nat) : Statement :=
      ⟨.variable name (.number 1.0) .immediate, Position.inBuffer line⟩
    let reopened : Statement := ⟨.beginComment, Position.inBuffer 9⟩
    let line : Statement := ⟨.line "L" (.members ["A"]), Position.inBuffer 10⟩
    let s := (ofConfig {}).after [.beginComment]
    let before := [begun, failing, ended 3, note, assigned "A" 5, ended 6]
    let statements := before ++ [ended 7, assigned "B" 8, reopened, line]
    let kept := [begun, ended 3, note, ended 6, ended 7, assigned "B" 8, reopened]
    Statement.deepest s.depth statements < UInt32.size ∧
      s.step (.apply failing) = (.done (.ok ()), s.movedTo (Position.inBuffer 2)) ∧
      ((ofConfig {}).step (.apply failing)).1.error?.isSome = true ∧
      (s.step (.run statements)).1.error? = none ∧
      (s.step (.run kept)).1 = (s.step (.run statements)).1 ∧
      (s.step (.run statements)).2 =
        (s.step (.run kept)).2.movedTo (s.step (.run statements)).2.interpreter.deck.pos ∧
      (s.step (.run statements)).2.depth = 1 ∧
      s.reportsOf (.run (before ++ [ended 7])) =
        s.reportsOf (.run before) ++ [Condition.unmatchedEnd.diagnostic (Position.inBuffer 7)] := by
  intro begun failing ended note assigned reopened line s before statements kept
  have hdepth : s.depth = 1 := by decide +kernel
  have hdeepest : Statement.deepest s.depth statements < UInt32.size := by
    rw [hdepth]
    decide +kernel
  have hkept : Statement.uncommented s.depth statements = kept := by
    rw [hdepth]
    rfl
  have hbefore : Statement.depthAfter s.depth before = 0 := by
    rw [hdepth]
    rfl
  have hopen : Statement.depthAfter s.depth statements = 1 := by
    rw [hdepth]
    rfl
  have hok : (s.step (.run statements)).1.error? = none := by decide +kernel
  have hok' : (s.step (.run before)).1.error? = none := by decide +kernel
  have hout : failing.isCommentedOut s.depth = true := by
    rw [hdepth]
    rfl
  have hskipped := step_apply_of_isCommentedOut hout
  have hfails : ((ofConfig {}).step (.apply failing)).1.error?.isSome = true := by decide +kernel
  obtain ⟨hanswer, hsession, hleft, hended⟩ := run_uncommented s statements hdeepest
  rw [hkept] at hanswer hsession
  have hreports := (hended before _ _ rfl hok' hbefore).2.2
  exact ⟨hdeepest, hskipped, hfails, hok, hanswer, hsession, (hleft hok).trans hopen, hreports⟩

end Session

end Beamline
