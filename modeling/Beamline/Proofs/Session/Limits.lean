import Beamline.Proofs.Deck.Limits
import Beamline.Proofs.Session.Reports

/-!
# Sessions under limits that leave more room

Two sessions that differ in their limits only, where the second leave as much room as the first or
more, serve the same requests. As long as no evaluation of the first comes to the limit on the depth
and no repetition to that on the length, both answer the same, report the same and are in the same
state but for the limits.

* `Session.step_relimit`: what one request preserves.
* `Session.trace_relimit`: what a whole run preserves, and the requests after it.
-/

namespace Beamline

open Source (Position)
open Beamline.Expr (NodeId)

/-- The request asks for a value. -/
def Request.AsksValue : Request → Prop
  | .evaluate _ | .constantValue _ | .variableValue _ | .attributeValue .. | .entryValue ..
  | .elementLength _ => True
  | _ => False

/-! ## Actions -/

namespace Deck

variable {more : Limits} {P : Work → Prop} {issued : List NodeId}

/-- What is answered from the deck as it is, if the answer does not depend on the limits. -/
theorem indifferent_read {α : Type} (f : Deck → α) (hf : ∀ deck, f (deck.relimit more) = f deck) :
    Indifferent more P
      (do
        let deck ← current
        return f deck) :=
  .of_current (fun deck => .of_pure (f deck)) fun deck => by rw [hf]

theorem mem_roots_of_element {deck : Deck} {name : Name} {element : Element}
    (h : deck.symbols.elements.get? name = some element) {id : NodeId}
    (hid : id ∈ element.view.exprs) : id ∈ deck.roots := by
  refine List.mem_append_right _ (List.mem_flatMap.2 ⟨element, Table.mem_toList_of_get? h, ?_⟩)
  rw [← element.owned_eq_exprs_view] at hid
  exact hid

theorem mem_roots_of_variable {deck : Deck} {name : Name} {record : Variable}
    (h : deck.symbols.vars.get? name = some record) : record.expr ∈ deck.roots := by
  have hmem : record ∈ deck.symbols.vars.toList := Table.mem_toList_of_get? h
  refine List.mem_append_left _ (List.mem_append_right _ (List.mem_flatMap.2 ⟨record, hmem, ?_⟩))
  exact List.mem_cons_self

theorem indifferent_variableValue (raw : String) :
    Indifferent more (fun w => w.deck.Sound issued) (variableValue raw) := by
  refine indifferent_query (fun deck _ h => ?_) fun _ => rfl
  obtain ⟨record, hrecord, hid⟩ := Option.map_eq_some_iff.1 h
  cases hid
  exact mem_roots_of_variable hrecord

/-- What is asked of an element refers to an expression of the element. -/
theorem indifferent_elementQuery (raw : String) {read : Element → Option (Option NodeId)}
    (hread : ∀ element id, read element = some (some id) → id ∈ element.view.exprs) :
    Indifferent more (fun w => w.deck.Sound issued)
      (do slotValue (((← current).symbols.elements.lookup? raw).bind read)) := by
  refine indifferent_query (fun deck id h => ?_) fun _ => rfl
  obtain ⟨element, helement, hid⟩ := Option.bind_eq_some_iff.1 h
  exact mem_roots_of_element helement (hread element id hid)

theorem indifferent_attributeValue (raw key : String) :
    Indifferent more (fun w => w.deck.Sound issued) (attributeValue raw key) :=
  indifferent_elementQuery raw fun element _ h =>
    Plain.Element.mem_exprs_of_slot? ((element.slot?_view key).trans h)

theorem indifferent_entryValue (raw : String) (index : Element.MapIndex) :
    Indifferent more (fun w => w.deck.Sound issued) (entryValue raw index) := by
  unfold entryValue
  simp only [Option.map_bind]
  exact indifferent_elementQuery raw fun element id h =>
    Plain.Element.mem_exprs_of_cell? ((element.cell?_view index).trans h)

theorem indifferent_elementLength (raw : String) :
    Indifferent more (fun w => w.deck.Sound issued) (elementLength raw) := by
  unfold elementLength
  simp only [Option.map_eq_bind]
  exact indifferent_elementQuery raw fun element id h =>
    Plain.Element.mem_exprs_of_length? (element.length?_view.trans (Option.some.inj h))

/-- The action that a request asks for does the same with limits that leave more room. -/
theorem indifferent_action (request : Request) :
    Indifferent more (fun w => w.deck.Sound issued) (request.action issued) := by
  cases request with
  | apply statement => exact (indifferent_apply statement).map
  | defineConstant raw formula pos =>
    exact (indifferent_at (indifferent_defineConstant _ _) pos).map
  | defineVariable raw formula binding pos =>
    exact (indifferent_at (indifferent_defineVariable _ _ _) pos).map
  | defineElement raw kind items pos =>
    exact (indifferent_at (indifferent_defineElement _ _ _) pos).map
  | defineLine raw body pos => exact (indifferent_at (indifferent_defineLine _ _) pos).map
  | beginComment => exact indifferent_beginComment.map
  | endComment => exact indifferent_endComment.map
  | captureComment text atEnd => exact (indifferent_captureComment text atEnd).map
  | layout body => exact (indifferent_layout body).map
  | lower formula => exact (Indifferent.of_lowerWith false formula).map
  | evaluate number =>
    rw [Request.action]
    cases hid : issued[number]? with
    | none => exact .of_pure _
    | some id =>
      refine ((indifferent_evaluate id).imp fun w hw => ?_).map
      exact hw.keeps (List.mem_append_right _ (List.mem_of_getElem? hid))
  | render number =>
    rw [Request.action]
    cases issued[number]? with
    | none => exact .of_pure _
    | some id => exact indifferent_read _ fun _ => rfl
  | variableValue raw => exact (indifferent_variableValue raw).map
  | attributeValue raw key => exact (indifferent_attributeValue raw key).map
  | entryValue raw index => exact (indifferent_entryValue raw index).map
  | elementLength raw => exact (indifferent_elementLength raw).map
  | constantValue | resolve | elementsOf | commentAt => exact indifferent_read _ fun _ => rfl
  | _ => exact .of_pure _

/-- A value is asked for without a repetition. -/
theorem ensures_action_of_asksValue {request : Request} (h : request.AsksValue) :
    Ensures (fun _ => True) (request.action issued) (fun x _ => x.1.error? = none)
      fun e _ => ¬e.IsOverflow := by
  have hvalue {f : Deck → Option (Option NodeId)} : Ensures (fun _ => True)
      (Request.valued <$> do slotValue (f (← current))) (fun x _ => x.1.error? = none)
      fun e _ => ¬e.IsOverflow := by
    refine Ensures.map (ensures_current fun deck => ?_)
    exact (not_isOverflow_of_slotValue (f deck)).imp (fun _ => id) (fun _ _ _ => rfl) fun _ _ => id
  cases request with
  | evaluate number =>
    rw [Request.action]
    cases issued[number]? with
    | none => exact Ensures.of_pure fun _ _ => rfl
    | some handle =>
      have hevaluate := not_isOverflow_of_evaluate handle
      exact (hevaluate.imp (fun _ => id) (fun _ _ _ => rfl) fun _ _ => id).map
  | constantValue raw => exact ensures_current fun deck => Ensures.of_pure fun _ _ => rfl
  | variableValue | attributeValue | entryValue | elementLength => exact hvalue
  | _ => exact h.elim

end Deck

/-! ## Requests -/

/-- The session with other limits. -/
def Session.relimit (more : Limits) (s : Session) : Session :=
  { s with interpreter := { s.interpreter with deck := s.interpreter.deck.relimit more } }

namespace Session

variable {limits more : Limits} {stray : Nat} {same : Prop} {s : Session} {p : Plain.Session}
  {request : Request}

/-- No evaluation of the requests comes to the limit on the depth, and no repetition to that on the
length. -/
structure Unhindered (s : Session) (requests : List Request) : Prop where
  /-- No warning about the depth is reported. -/
  depth : ∀ d ∈ s.reports requests, d.code ≠ .nestingTooDeep
  /-- No request fails for a repetition. -/
  length : ∀ entry ∈ s.trace requests, ∀ e, entry.1.error? = some e → ¬e.IsOverflow

theorem Alike.sound (hs : Alike limits stray same s p) :
    s.interpreter.deck.Sound s.issued := by
  obtain ⟨trees, ⟨⟨g, hd, -⟩, -⟩, hissued, -⟩ := hs
  exact ⟨limits, g, trees, stray, hd, hissued⟩

theorem Alike.deck_limits_eq (hs : Alike limits stray same s p) :
    s.interpreter.deck.limits = limits := by
  obtain ⟨trees, ⟨⟨g, hd, -⟩, -⟩, -⟩ := hs
  exact hd.limits_eq

/-- A single request does the same with limits that leave more room. -/
theorem step_relimit_single (hs : Alike limits stray same s p) (hwithin : limits.Within more)
    (hsingle : request.IsSingle)
    (hdepth : ∀ d ∈ s.reportsOfSingle request, d.code ≠ .nestingTooDeep)
    (hlength : ∀ e, (s.step request).1.error? = some e → ¬e.IsOverflow) :
    (s.relimit more).step request = ((s.step request).1, (s.step request).2.relimit more) ∧
      (s.relimit more).reportsOfSingle request = s.reportsOfSingle request := by
  rw [step_eq hsingle] at hlength
  have hun : Deck.Unhindered (s.runAction request) := by
    refine ⟨fun d hd => hdepth d ?_, fun e he => hlength e ?_⟩
    · exact List.mem_append_left _ (Array.mem_toList_iff.2 hd)
    · unfold serve
      rw [he]
      exact Request.error?_refusal e request
  have hrun : (s.relimit more).runAction request =
      ((s.runAction request).1, (s.runAction request).2.relimit more) :=
    (Deck.indifferent_action request).run_relimit ⟨s.interpreter.deck, #[]⟩ hs.sound
      (hs.deck_limits_eq.symm ▸ hwithin) hun
  have hreports : (s.relimit more).reportsOfSingle request = s.reportsOfSingle request := by
    unfold reportsOfSingle
    rw [hrun]
    rfl
  refine ⟨?_, hreports⟩
  rw [step_eq hsingle, step_eq hsingle, serve, serve, hrun, hreports]
  -- the outcome decides about the answer and the handles, on both sides alike
  cases (s.runAction request).1 with
  | ok x => rfl
  | error e => rfl

/-- A run of statements does the same with limits that leave more room. -/
theorem step_relimit_run (statements : List Statement) (hs : Alike limits stray same s p)
    (hwithin : limits.Within more)
    (hdepth : ∀ d ∈ s.reportsOfRun statements, d.code ≠ .nestingTooDeep)
    (hlength : ∀ e, (s.step (.run statements)).1.error? = some e → ¬e.IsOverflow) :
    (s.relimit more).step (.run statements) =
        ((s.step (.run statements)).1, (s.step (.run statements)).2.relimit more) ∧
      (s.relimit more).reportsOfRun statements = s.reportsOfRun statements := by
  -- by induction on the statements; the first that fails ends both runs
  induction statements generalizing s p stray same with
  | nil => exact ⟨rfl, rfl⟩
  | cons statement statements ih =>
    rw [reportsOfRun] at hdepth
    have hfirst (hlength : ∀ e, (s.step (.apply statement)).1.error? = some e → ¬e.IsOverflow) :=
      step_relimit_single hs hwithin (Request.isSingle_apply statement)
        (fun d hd => hdepth d (List.mem_append_left _ hd)) hlength
    cases herror : (s.step (.apply statement)).1.error? with
    | some e =>
      rw [step_run_of_error herror] at hlength ⊢
      obtain ⟨hstep, hreports⟩ := hfirst hlength
      have herror' : ((s.relimit more).step (.apply statement)).1.error? = some e := by
        rw [hstep]
        exact herror
      rw [step_run_of_error herror', reportsOfRun, reportsOfRun, herror, herror', hreports]
      exact ⟨hstep, rfl⟩
    | none =>
      obtain ⟨hstep, hreports⟩ := hfirst fun e he =>
        absurd (he.symm.trans herror) (Option.some_ne_none e)
      have herror' : ((s.relimit more).step (.apply statement)).1.error? = none := by
        rw [hstep]
        exact herror
      rw [herror] at hdepth
      rw [step_run_of_ok herror] at hlength ⊢
      obtain ⟨stray', same', hs', -⟩ := alike_after [.apply statement] hs
      obtain ⟨hrest, hreports'⟩ := ih hs'
        (fun d hd => hdepth d (List.mem_append_right _ hd)) hlength
      rw [step_run_of_ok herror', hstep, reportsOfRun, reportsOfRun, herror, herror', hreports,
        hstep]
      exact ⟨hrest, congrArg _ hreports'⟩

/-- A request does the same with limits that leave more room. -/
theorem step_relimit (hs : Alike limits stray same s p) (hwithin : limits.Within more)
    (hdepth : ∀ d ∈ s.reportsOf request, d.code ≠ .nestingTooDeep)
    (hlength : ∀ e, (s.step request).1.error? = some e → ¬e.IsOverflow) :
    (s.relimit more).step request = ((s.step request).1, (s.step request).2.relimit more) ∧
      (s.relimit more).reportsOf request = s.reportsOf request := by
  cases request with
  | run statements => exact step_relimit_run statements hs hwithin hdepth hlength
  | _ => exact step_relimit_single hs hwithin nofun hdepth hlength

/-- A value is asked for without a repetition. -/
theorem not_isOverflow_of_asksValue (hvalue : request.AsksValue) {e : FatalError}
    (he : (s.step request).1.error? = some e) : ¬e.IsOverflow := by
  have hsingle : request.IsSingle := by
    rintro statements rfl
    exact hvalue
  rw [step_eq hsingle, serve] at he
  rcases Deck.ensures_action_of_asksValue hvalue ⟨s.interpreter.deck, #[]⟩ trivial with
    ⟨x, w, hrun, hok⟩ | ⟨d, w, hrun, hd⟩
  · rw [runAction, hrun] at he
    cases hok.symm.trans he
  · rw [runAction, hrun] at he
    obtain rfl : d = e := Option.some.inj ((Request.error?_refusal d request).symm.trans he)
    exact hd

/-! ## Runs -/

theorem trace_relimit_of_alike (requests : List Request) (hs : Alike limits stray same s p)
    (hwithin : limits.Within more) (h : s.Unhindered requests) :
    (s.relimit more).trace requests = s.trace requests ∧
      (s.relimit more).reports requests = s.reports requests ∧
      (s.relimit more).after requests = (s.after requests).relimit more := by
  induction requests generalizing s p stray same with
  | nil => exact ⟨rfl, rfl, rfl⟩
  | cons request requests ih =>
    obtain ⟨hdepth, hlength⟩ := h
    rw [reports] at hdepth
    rw [trace_cons] at hlength
    obtain ⟨hstep, hreports⟩ := step_relimit hs hwithin
      (fun d hd => hdepth d (List.mem_append_left _ hd)) (hlength _ List.mem_cons_self)
    obtain ⟨stray', same', hs', -⟩ := alike_after [request] hs
    obtain ⟨htrace, hreports', hafter⟩ := ih hs'
      ⟨fun d hd => hdepth d (List.mem_append_right _ hd),
        fun entry hentry => hlength entry (List.mem_cons_of_mem _ hentry)⟩
    refine ⟨?_, ?_, ?_⟩
    · rw [trace_cons, trace_cons, hstep]
      exact congrArg _ htrace
    · rw [reports, reports, hreports, hstep]
      exact congrArg _ hreports'
    · change ((s.relimit more).step request).2.after requests = _
      rw [hstep]
      exact hafter

/-- The requests of a session that come to no limit come to the same with limits that leave more
room: to the same answers, the same reports and the same session but for the limits. So does every
request for a value after them that does not come to the limit on the depth, and every other request
that comes to no limit. -/
theorem trace_relimit (config : Config) (more : Limits) (hwithin : config.limits.Within more)
    (requests : List Request) (h : (ofConfig config).Unhindered requests) :
    let start := ofConfig config
    let other := ofConfig { config with limits := more }
    other.trace requests = start.trace requests ∧
      other.reports requests = start.reports requests ∧
      other.after requests = (start.after requests).relimit more ∧
      ∀ later, (∀ d ∈ (start.after requests).reportsOf later, d.code ≠ .nestingTooDeep) →
        (later.AsksValue ∨
          ∀ e, ((start.after requests).step later).1.error? = some e → ¬e.IsOverflow) →
        (other.after requests).step later =
            (((start.after requests).step later).1,
              ((start.after requests).step later).2.relimit more) ∧
          (other.after requests).reportsOf later = (start.after requests).reportsOf later := by
  intro start other
  obtain ⟨htrace, hreports, hafter⟩ :=
    trace_relimit_of_alike requests (alike_ofConfig config) hwithin h
  obtain ⟨stray, same, hs, -⟩ := alike_after requests (alike_ofConfig config)
  refine ⟨htrace, hreports, hafter, fun later hdepth hlater => ?_⟩
  rw [show other.after requests = (start.after requests).relimit more from hafter]
  refine step_relimit hs hwithin hdepth fun e he => ?_
  rcases hlater with hvalue | hlength
  · exact not_isOverflow_of_asksValue hvalue he
  · exact hlength e he

/-- A line has as many entries as the first limits allow and the last query goes as deep as they
allow; the second limits leave more room for the one and set none to the other. -/
theorem trace_relimit_of_full :
    let pos := Position.unread
    let config : Config := { limits := { evalDepth := 4, lineEntries := 6 } }
    let more : Limits := { evalDepth := 0, lineEntries := 7 }
    let requests : List Request :=
      [.defineVariable "A" (.binary .add (.name "B") (.number 1.0)) .deferred pos,
        .run [⟨.variable "B" (.number 2.0) .immediate, pos⟩,
          ⟨.element "Q" .drift [.assign "L" (.name "A")], pos⟩],
        .defineLine "S" (.repetition "3" (.sequence [.member "Q", .reflection (.member "P")])) pos,
        .lower (.name "A"), .evaluate 0]
    let start := ofConfig config
    let other := ofConfig { config with limits := more }
    other.trace requests = start.trace requests ∧
      other.reports requests = start.reports requests ∧
      other.after requests = (start.after requests).relimit more ∧
      ((other.after requests).step (.elementLength "Q")).1 =
        ((start.after requests).step (.elementLength "Q")).1 := by
  intro pos config more requests start other
  have hwithin : config.limits.Within more := ⟨.inl rfl, .inr ⟨by decide, by decide⟩⟩
  have hdepth : ∀ d ∈ start.reports requests, d.code ≠ .nestingTooDeep := by decide +kernel
  have hlength : ∀ entry ∈ start.trace requests, entry.1.error?.isNone = true := by
    decide +kernel
  have hlater : ∀ d ∈ (start.after requests).reportsOf (.elementLength "Q"),
      d.code ≠ .nestingTooDeep := by decide +kernel
  have hun : start.Unhindered requests :=
    ⟨hdepth, fun entry hentry e he => by
      have hnone := hlength entry hentry
      rw [he] at hnone
      cases hnone⟩
  obtain ⟨htrace, hreports, hafter, hlater'⟩ := trace_relimit config more hwithin requests hun
  have hquery := (hlater' (.elementLength "Q") hlater (.inl trivial)).1
  refine ⟨htrace, hreports, hafter, ?_⟩
  rw [show (other.after requests).step (.elementLength "Q") = _ from hquery]

end Session

end Beamline
