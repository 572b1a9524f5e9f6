import Beamline.Proofs.Session.Errors
import Beamline.Proofs.Session.Snapshot

/-!
# Names of constants and variables

No name is that of a constant and of a variable. The definition that comes second is refused: it is
done, raises one warning that tells the name and nothing about the formula, and leaves everything as
it was but for the position and the console. Nothing else tells that warning.

* `Plain.Session.namesApart_after`: no name is shared after any number of requests.
* `Session.step_of_refuses`: what a refused definition does.
* `Session.exists_isRefusal_iff`: what is reported as refused is refused.
* `Session.namesApart_and_refused`: all of it, for every session.
-/

namespace Beamline

open Source (Position)
open Diagnostic (Condition Console)
open Beamline.Expr (Formula Term)

/-! ## No name is shared -/

namespace Plain

namespace Table

variable {ρ : Type} [Named ρ]

/-- With a record its name is in the table, and no other name is new. -/
theorem contains_insert_iff (record : ρ) (t : Table ρ) (name : Name) :
    (t.insert record).contains name = true ↔
      name = Named.name record ∨ t.contains name = true := by
  unfold contains
  rw [get?_insert]
  by_cases h : name = Named.name record <;> simp [h]

end Table

/-- No name is that of a constant and of a variable. -/
def Symbols.NamesApart {ε : Type} (symbols : Symbols ε) : Prop :=
  ∀ name, ¬(symbols.consts.contains name = true ∧ symbols.vars.contains name = true)

/-- A clause keeps the names apart, as it is refused where it would not. -/
theorem Deck.Effect.namesApart {d : Deck Term} {clause : Clause} {outcome : Except Error Unit}
    {after : Symbols Term} (h : d.Effect clause outcome after) (hd : d.symbols.NamesApart) :
    after.NamesApart := by
  cases h with
  | kept => exact hd
  | lost => exact hd
  | @stored _ record hfree hdefines =>
    -- the new name is not one of the other table, or the clause would have been refused
    intro name ⟨hconst, hvar⟩
    cases record with
    | constant record =>
      obtain ⟨raw, formula, rfl, -⟩ := hdefines.exists_constant
      have hraw : Name.ofText raw = record.name := by
        simpa [Clause.symbol?, AnyRecord.symbol] using hdefines.symbol_eq
      rw [Deck.refuses, hraw] at hfree
      rcases (Table.contains_insert_iff record d.symbols.consts name).1 hconst with rfl | hconst
      · exact absurd hvar (Bool.eq_false_iff.1 hfree)
      · exact hd name ⟨hconst, hvar⟩
    | «variable» record =>
      obtain ⟨raw, formula, binding, rfl, -⟩ := hdefines.exists_variable
      have hraw : Name.ofText raw = record.name := by
        simpa [Clause.symbol?, AnyRecord.symbol] using hdefines.symbol_eq
      rw [Deck.refuses, hraw] at hfree
      rcases (Table.contains_insert_iff record d.symbols.vars name).1 hvar with rfl | hvar
      · exact absurd hconst (Bool.eq_false_iff.1 hfree)
      · exact hd name ⟨hconst, hvar⟩
    | element record => exact hd name ⟨hconst, hvar⟩
    | line record => exact hd name ⟨hconst, hvar⟩

namespace Session

theorem namesApart_step {p : Plain.Session} {request : Request} (hsingle : request.IsSingle)
    (h : p.interpreter.deck.symbols.NamesApart) :
    (p.step request).2.interpreter.deck.symbols.NamesApart := by
  rcases p.step_cases hsingle with ⟨statement, outcome, -, -, -, heffect⟩ | ⟨-, hsame⟩
  · exact heffect.namesApart h
  · rwa [hsame]

theorem namesApart_after {p : Plain.Session} {requests : List Request}
    (hsingle : ∀ request ∈ requests, request.IsSingle)
    (h : p.interpreter.deck.symbols.NamesApart) :
    (p.after requests).interpreter.deck.symbols.NamesApart := by
  induction requests generalizing p with
  | nil => exact h
  | cons request requests ih =>
    obtain ⟨hfirst, hrest⟩ := List.forall_mem_cons.1 hsingle
    exact ih hrest (namesApart_step hfirst h)

end Session

end Plain

/-! ## Refused definitions -/

/-- A refused clause raises its warning and does nothing else. -/
theorem Deck.run_perform_of_refuses {deck : Deck} {clause : Clause}
    (h : deck.refuses clause = true) (raised : Array Diagnostic) :
    ∃ condition, clause.refusal? = some condition ∧
      (perform clause).run ⟨deck, raised⟩ =
        (.ok (), ⟨deck, raised.push (condition.diagnostic deck.pos)⟩) := by
  cases clause with
  | constant raw formula =>
    refine ⟨.constantIsVariable (Name.ofText raw), rfl, ?_⟩
    have hrun : (perform (.constant raw formula)).run ⟨deck, raised⟩ =
        (if deck.symbols.vars.contains (Name.ofText raw) = true then
            raise (.constantIsVariable (Name.ofText raw))
          else _ : Action Unit).run ⟨deck, raised⟩ := rfl
    have hvar : deck.symbols.vars.contains (Name.ofText raw) = true := h
    rw [hrun, if_pos hvar]
    rfl
  | «variable» raw formula binding =>
    refine ⟨.variableIsConstant (Name.ofText raw), rfl, ?_⟩
    have hrun : (perform (.variable raw formula binding)).run ⟨deck, raised⟩ =
        (if deck.symbols.consts.contains (Name.ofText raw) = true then
            raise (.variableIsConstant (Name.ofText raw))
          else _ : Action Unit).run ⟨deck, raised⟩ := rfl
    have hconst : deck.symbols.consts.contains (Name.ofText raw) = true := h
    rw [hrun, if_pos hconst]
    rfl
  | _ => cases h

namespace Session

variable {s : Session} {request : Request} {statement : Statement}

/-- The request asks for a definition, which is not skipped and which the deck refuses. -/
structure Refuses (s : Session) (request : Request) (statement : Statement) : Prop where
  /-- The definition. -/
  statement?_eq : request.statement? = some statement
  /-- No open comment block keeps it from being looked at. -/
  isSkipped_eq : request.isSkipped s.interpreter.deck.commentary = false
  /-- The name is taken. -/
  refuses_eq : s.interpreter.deck.refuses statement.clause = true

/-- A request for a statement that is not skipped performs its clause where the statement was
read. -/
theorem runAction_of_statement (hstatement : request.statement? = some statement)
    (hskip : request.isSkipped s.interpreter.deck.commentary = false) :
    s.runAction request =
      (((Deck.perform statement.clause).run
          ⟨s.interpreter.deck.movedTo statement.pos, #[]⟩).1.map fun _ => Request.done,
        ((Deck.perform statement.clause).run
          ⟨s.interpreter.deck.movedTo statement.pos, #[]⟩).2) := by
  cases request with
  | apply other =>
    cases hstatement
    have hrun : (Deck.apply statement).run ⟨s.interpreter.deck, #[]⟩ =
        (if (s.interpreter.deck.commentary.isActive && !statement.clause.isComment) = true then
            pure ()
          else Deck.perform statement.clause : Deck.Action Unit).run
            ⟨s.interpreter.deck.movedTo statement.pos, #[]⟩ := rfl
    have hperformed :
        (s.interpreter.deck.commentary.isActive && !statement.clause.isComment) = false := hskip
    rw [hperformed, if_neg nofun] at hrun
    rw [runAction, Request.action, run_map, hrun]
  | defineConstant | defineVariable | defineElement | defineLine =>
    cases hstatement
    exact run_map _ _ _
  | _ => cases hstatement

/-- A request for a statement asks nothing else of the console. -/
theorem onConsole_of_statement? (h : request.statement? = some statement) (c : Console) :
    request.onConsole c = c := by
  cases request with
  | apply | defineConstant | defineVariable | defineElement | defineLine => rfl
  | _ => cases h

/-- A refused definition is done. It reports the one warning that the name is taken, and changes
nothing but the position and the console. -/
theorem step_of_refuses (h : s.Refuses request statement) :
    ∃ condition, statement.clause.refusal? = some condition ∧
      s.reportsOf request = [condition.diagnostic statement.pos] ∧
      s.step request = (.done (.ok ()),
        { s with interpreter :=
          { deck := s.interpreter.deck.movedTo statement.pos
            console :=
              s.interpreter.console.reportAll [condition.diagnostic statement.pos] } }) := by
  have hrefuses : (s.interpreter.deck.movedTo statement.pos).refuses statement.clause = true :=
    (Deck.refuses_movedTo ..).trans h.refuses_eq
  obtain ⟨condition, hcondition, hrun⟩ := Deck.run_perform_of_refuses hrefuses #[]
  have haction := runAction_of_statement h.statement?_eq h.isSkipped_eq
  rw [hrun] at haction
  have hreports : s.reportsOfSingle request = [condition.diagnostic statement.pos] := by
    rw [reportsOfSingle, haction]
    rfl
  have hsingle := Request.isSingle_of_statement? h.statement?_eq
  refine ⟨condition, hcondition, (reportsOf_of_isSingle s hsingle).trans hreports, ?_⟩
  rw [step_eq hsingle, serve, haction, hreports, onConsole_of_statement? h.statement?_eq]
  refine congrArg (Prod.mk _) (congrArg (Session.mk _) ?_)
  exact List.append_nil s.issued

/-- A single request that is refused no definition reports none as refused. -/
theorem isRefusal_eq_false_of_mem_reportsOfSingle (hnot : ∀ statement, ¬s.Refuses request statement)
    {d : Diagnostic} (hd : d ∈ s.reportsOfSingle request) : d.code.isRefusal = false := by
  -- the mild warnings tell of no refusal, and no other is raised where nothing is refused
  let pos := request.posFrom s.interpreter.deck.pos
  let I (raised : Array Diagnostic) : Prop := ∀ d ∈ raised, d.code.isRefusal = false
  have hI : LastingAt pos I := by
    intro raised condition hcondition h d hd
    rcases Array.mem_push.1 hd with hd | rfl
    · exact h d hd
    · exact hcondition.2
  have hrefusal (statement : Statement) (hstatement : request.statement? = some statement)
      (hskip : request.isSkipped s.interpreter.deck.commentary = false) :
      Deck.OutlastsRefusal I statement.pos s.interpreter.deck statement.clause :=
    fun hrefuses => absurd ⟨hstatement, hskip, hrefuses⟩ (hnot statement)
  have hstart : I #[] := fun d hd => absurd hd (Array.not_mem_empty d)
  have haction := Deck.warns_action s.issued hI hrefusal ⟨s.interpreter.deck, #[]⟩ ⟨rfl, hstart⟩
  unfold reportsOfSingle runAction at hd
  rcases haction with ⟨x, w, hrun, -, hraised⟩ | ⟨e, w, hrun, ⟨-, hraised⟩, -⟩
  · rw [hrun] at hd
    exact hraised d (by simpa using hd)
  · rw [hrun] at hd
    rcases List.mem_append.1 hd with hd | hd
    · exact hraised d (by simpa using hd)
    · -- the error itself tells of no refusal
      rw [List.mem_singleton.1 hd]
      cases e <;> rfl

/-- A single request reports a definition as refused exactly if it asks for one that is. -/
theorem exists_isRefusal_iff (hsingle : request.IsSingle) :
    (∃ d ∈ s.reportsOf request, d.code.isRefusal = true) ↔
      ∃ statement, s.Refuses request statement := by
  constructor
  · rintro ⟨d, hd, hrefusal⟩
    by_contra hnot
    rw [reportsOf_of_isSingle s hsingle] at hd
    have hfalse := isRefusal_eq_false_of_mem_reportsOfSingle (not_exists.1 hnot) hd
    rw [hrefusal] at hfalse
    cases hfalse
  · rintro ⟨statement, h⟩
    obtain ⟨condition, hcondition, hreports, -⟩ := step_of_refuses h
    refine ⟨condition.diagnostic statement.pos, ?_, Clause.isRefusal_code_of_refusal? hcondition⟩
    rw [hreports]
    exact List.mem_singleton_self _

/-- In every session, no name is that of a constant and of a variable. -/
theorem not_contains_both (config : Config) (requests : List Request) (name : Name) :
    let symbols := ((ofConfig config).after requests).interpreter.deck.symbols
    ¬(symbols.consts.contains name = true ∧ symbols.vars.contains name = true) := by
  -- on the plain deck the effects of clauses are known; runs are read as their statements
  have hsingles : ∀ request ∈ (ofConfig config).unrolled requests, request.IsSingle :=
    fun request hrequest => (isSingle_of_mem_unrolled hrequest).1
  have hstart : (Plain.Session.ofConfig config).interpreter.deck.symbols.NamesApart :=
    fun name hname => nomatch hname.2
  have hplain := Plain.Session.namesApart_after hsingles hstart
  obtain ⟨_, _, hs⟩ := alike_unrolled config requests
  intro symbols hname
  rw [hs.contains_consts, hs.contains_vars] at hname
  exact hplain name hname

/-- In every session, no name is that of a constant and of a variable. A single request reports a
definition as refused exactly if it asks for one whose name is taken. It is then done, whatever its
formula is: it reports the one warning that tells the name, and leaves everything as it was, all
records, expressions, handles and comments, but for the position and what the console has been
told. A run goes on with the statements that follow. -/
theorem namesApart_and_refused (config : Config) (requests : List Request) :
    let s := (ofConfig config).after requests
    let deck := s.interpreter.deck
    (∀ name, ¬(deck.symbols.consts.contains name = true ∧
        deck.symbols.vars.contains name = true)) ∧
      ∀ request : Request, request.IsSingle →
        ((∃ d ∈ s.reportsOf request, d.code.isRefusal = true) ↔
            ∃ statement, s.Refuses request statement) ∧
          ∀ statement, s.Refuses request statement →
            ∃ condition, statement.clause.refusal? = some condition ∧
              (condition.diagnostic statement.pos).isWarning = true ∧
              s.reportsOf request = [condition.diagnostic statement.pos] ∧
              s.step request = (.done (.ok ()),
                { s with interpreter :=
                  { deck := deck.movedTo statement.pos
                    console := s.interpreter.console.reportAll
                      [condition.diagnostic statement.pos] } }) ∧
              ∀ statements, request = .apply statement →
                s.step (.run (statement :: statements)) =
                  (s.step request).2.step (.run statements) := by
  intro s deck
  refine ⟨not_contains_both config requests, fun request hsingle =>
    ⟨exists_isRefusal_iff hsingle, fun statement h => ?_⟩⟩
  obtain ⟨condition, hcondition, hreports, hstep⟩ := step_of_refuses h
  refine ⟨condition, hcondition, ?_, hreports, hstep, ?_⟩
  · rw [Diagnostic.isWarning_eq_true_iff, Condition.isFatal_diagnostic]
    exact Clause.isFatal_code_of_refusal? hcondition
  · rintro statements rfl
    exact step_run_of_ok (congrArg (fun x => x.1.error?) hstep)

/-- A variable takes the name of a constant, which is then refused in another spelling, although its
formula would be fatal under a free name. -/
theorem namesApart_and_refused_of_variable :
    let pos := Position.inBuffer 3
    let formula : Formula := .signed .minus (.text "x")
    let start := ofConfig {}
    let s := start.after [.defineVariable "A" (.number 1.0) .deferred pos]
    let request : Request := .apply ⟨.constant " a " formula, pos⟩
    let condition : Condition := .constantIsVariable (Name.ofText "A")
    (start.step request).1.error?.isSome = true ∧
      s.interpreter.deck.symbols.consts.contains (Name.ofText "A") = false ∧
      s.reportsOf request = [condition.diagnostic pos] ∧
      s.step request = (.done (.ok ()), { s with interpreter :=
        { deck := s.interpreter.deck.movedTo pos
          console := s.interpreter.console.reportAll [condition.diagnostic pos] } }) := by
  intro pos formula start s request condition
  have hfatal : (start.step request).1.error?.isSome = true := by decide +kernel
  have hvar : s.interpreter.deck.symbols.vars.contains (Name.ofText "A") = true := by decide +kernel
  have hname : Name.ofText " a " = Name.ofText "A" := by decide +kernel
  have hrefuses : s.Refuses request ⟨.constant " a " formula, pos⟩ :=
    ⟨rfl, rfl, (congrArg s.interpreter.deck.symbols.vars.contains hname).trans hvar⟩
  obtain ⟨hapart, hsingle⟩ :=
    namesApart_and_refused {} [.defineVariable "A" (.number 1.0) .deferred pos]
  obtain ⟨told, htold, -, hreports, hstep, -⟩ := (hsingle request nofun).2 _ hrefuses
  have htold : told = condition := by
    rw [Clause.refusal?, hname] at htold
    exact (Option.some.inj htold).symm
  rw [htold] at hreports hstep
  refine ⟨hfatal, Bool.eq_false_iff.2 fun hconst => hapart _ ⟨hconst, hvar⟩, hreports, hstep⟩

end Session

end Beamline
