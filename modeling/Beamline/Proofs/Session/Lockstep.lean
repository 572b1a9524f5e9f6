import Beamline.Proofs.Portrait.Definition
import Beamline.Proofs.Session.Plain

/-!
# Sessions in lockstep with plain sessions

A session stands for a plain session if its deck stands for the plain deck, with the trees of the
issued handles held by the caller. A request keeps this, whatever it asks for: the session and the
plain session give the same answer, and the console shows the same. The one exception is an
evaluation without end, which is met only where the depth has no limit; both sides give up on it,
but blame different handles.

The plain session holds every term in its record and never frees anything. A session with its forest
of shared, freed and reused slots cannot be told apart from it, also after requests that ended in
fatal errors.

* `Session.served`: what a request does.
* `Session.alike_after`: what requests one after the other do.
* `Session.trace_eq_plain`: the traces are equal, and no request ends in a fault.
-/

namespace Beamline

open Source (Position)
open Diagnostic (Console)
open Beamline.Expr (Formula Grove NodeId Term Tree)

/-! ## Interpreters -/

namespace Interpreter

/-- The interpreter stands for the plain interpreter. The consoles agree if `same` holds. -/
structure Alike (limits : Limits) (trees : List Tree) (stray : Nat) (same : Prop)
    (it : Interpreter) (p : Plain.Interpreter) : Prop where
  /-- The deck stands for the plain deck. -/
  deck : ∃ g : Plain.Deck Tree, it.deck.Depicts limits g trees stray ∧ g.map Tree.term = p.deck
  /-- The consoles agree. -/
  console : same → it.console = p.console

/-- Both sides came to the same result and are alike. -/
def Returned {α : Type} (limits : Limits) (trees : List Tree) (stray : Nat) (same : Prop) (x y : α)
    (it : Interpreter) (p : Plain.Interpreter) : Prop :=
  x = y ∧ Alike limits trees stray same it p

/-- Both sides ended in an error: in the same one, which is no fault, or in an evaluation without
end. -/
def Failed (limits : Limits) (trees : List Tree) (same : Prop) (e d : FatalError)
    (it : Interpreter) (p : Plain.Interpreter) : Prop :=
  ∃ stray, (e = d ∧ (∀ f, e ≠ .fault f) ∧ Alike limits trees stray same it p) ∨
    (limits.evalDepth = 0 ∧ (∃ h, e = .fault (.endless h)) ∧ d = Plain.Error.endless.fatal ∧
      Alike limits trees stray False it p)

variable {α β : Type} {limits : Limits} {trees : List Tree} {stray : Nat} {same : Prop}

/-- What is true of the actions on the decks is true of the operations. `C` says which trees are
held after an action that came to a result. -/
theorem mirrors_perform {a : Deck.Action α} {b : Plain.Deck.Action β}
    {P : Deck.Work → Plain.Deck.Work → Prop} {C : α → β → List Tree → Prop}
    (h : Mirrors P a b (fun x y w p => ∃ held, C x y held ∧ Deck.Alike limits held stray w p)
      (Deck.Failed limits trees))
    (it : Interpreter) (p : Plain.Interpreter) (hp : P ⟨it.deck, #[]⟩ ⟨p.deck, #[]⟩)
    (hconsole : same → it.console = p.console) :
    (∃ x y it' p', (perform a).run it = (.ok x, it') ∧
        (Plain.Interpreter.perform b).run p = (.ok y, p') ∧
        ∃ held, C x y held ∧ Alike limits held stray same it' p') ∨
      (∃ e d it' p', (perform a).run it = (.error e, it') ∧
        (Plain.Interpreter.perform b).run p = (.error d, p') ∧
        Failed limits trees same e d it' p') := by
  rw [run_perform, Plain.Interpreter.run_perform]
  rcases h _ _ hp with ⟨x, y, w, q, ha, hb, held, hC, hraised, hdeck⟩ |
    ⟨e, d, w, q, ha, hb, ⟨g, more, hd, hmap⟩, herror, hraised⟩
  · rw [ha, hb]
    refine .inl ⟨x, y, _, _, rfl, rfl, held, hC, hdeck, fun hsame => ?_⟩
    dsimp only
    rw [hconsole hsame, hraised]
  · rw [ha, hb]
    refine .inr ⟨e, d.fatal, _, _, rfl, rfl, more, ?_⟩
    -- the same error, reported alike, or an evaluation without end on both sides
    rcases herror with ⟨rfl, hd'⟩ | ⟨hzero, rfl, hfault⟩
    · refine .inl ⟨rfl, ?_, ⟨g, hd, hmap⟩, fun hsame => ?_⟩
      · intro f hf
        cases d <;> first | exact hd' rfl | cases hf
      · have hpos : w.deck.pos = q.deck.pos := by
          rw [← hmap, hd.pos]
          rfl
        dsimp only
        rw [hconsole hsame, hraised hd', hpos]
    · exact .inr ⟨hzero, hfault, rfl, ⟨g, hd, hmap⟩, nofun⟩

/-- An action that holds no further trees. -/
theorem mirrors_performReturned {a : Deck.Action α} {b : Plain.Deck.Action α}
    (h : Mirrors (Deck.Alike limits trees stray) a b (Deck.Returned limits trees stray)
      (Deck.Failed limits trees)) :
    Mirrors (Alike limits trees stray same) (perform a) (Plain.Interpreter.perform b)
      (Returned limits trees stray same) (Failed limits trees same) := by
  intro it p hs
  have hmirrors := mirrors_perform (C := fun x y held => x = y ∧ held = trees)
    (h.imp (fun _ _ => id) (fun x y w q hq => ⟨trees, ⟨hq.1, rfl⟩, hq.2⟩) fun _ _ _ _ => id)
    it p ⟨rfl, hs.deck⟩ hs.console
  rcases hmirrors with ⟨x, y, it', p', ha, hb, held, ⟨hxy, rfl⟩, hs'⟩ | herror
  · exact .inl ⟨x, y, it', p', ha, hb, hxy, hs'⟩
  · exact .inr herror

/-- An action without a result. -/
theorem mirrors_performUnit {a : Deck.Action Unit} {b : Plain.Deck.Action Unit}
    (h : Mirrors (Deck.Alike limits trees stray) a b (fun _ _ => Deck.Alike limits trees stray)
      (Deck.Failed limits trees)) :
    Mirrors (Alike limits trees stray same) (perform a) (Plain.Interpreter.perform b)
      (Returned limits trees stray same) (Failed limits trees same) :=
  mirrors_performReturned (h.imp (fun _ _ => id) (fun _ _ _ _ hq => ⟨rfl, hq⟩) fun _ _ _ _ => id)

/-- An action of a statement read at a position. -/
theorem mirrors_performAt (pos : Position) {a : Deck.Action Unit} {b : Plain.Deck.Action Unit}
    (h : Mirrors (Deck.Alike limits trees stray) a b (fun _ _ => Deck.Alike limits trees stray)
      (Deck.Failed limits trees)) :
    Mirrors (Alike limits trees stray same) (performAt pos a) (Plain.Interpreter.performAt pos b)
      (Returned limits trees stray same) (Failed limits trees same) :=
  mirrors_performUnit ((Deck.mirrors_moveTo pos).bind fun _ _ => h)

/-- A formula that is stored is held after all other trees. -/
theorem mirrors_lower (formula : Formula) :
    Mirrors (Alike limits trees stray same) (perform (Deck.lower formula))
      (Plain.Interpreter.perform (Plain.Deck.lower formula))
      (fun id term it p => ∃ t : Tree, t.root = id ∧ t.term = term ∧
        Alike limits (trees ++ [t]) stray same it p)
      (Failed limits trees same) := by
  have hlower : Mirrors (Deck.Alike limits trees stray) (Deck.lower formula)
      (Plain.Deck.lower formula)
      (fun id term w p => ∃ held, (∃ t : Tree, t.root = id ∧ t.term = term ∧ held = trees ++ [t]) ∧
        Deck.Alike limits held stray w p) (Deck.Failed limits trees) := by
    refine (Deck.mirrors_lowerWith false formula).imp (fun _ _ => id) (fun id term w p h => ?_)
      fun _ _ _ _ => id
    -- the action holds the tree first, the caller keeps it last
    obtain ⟨t, hid, hterm, hs⟩ := h
    have hperm : ([t] ++ trees).Perm (trees ++ [t]) := List.perm_append_comm
    exact ⟨_, ⟨t, hid, hterm, rfl⟩, hs.perm hperm⟩
  intro it p hs
  rcases mirrors_perform hlower it p ⟨rfl, hs.deck⟩ hs.console with
    ⟨id, term, it', p', ha, hb, held, ⟨t, hid, hterm, rfl⟩, hs'⟩ | herror
  · exact .inl ⟨id, term, it', p', ha, hb, t, hid, hterm, hs'⟩
  · exact .inr herror

/-- Statements in order, up to the first fatal error. -/
theorem mirrors_run (statements : List Statement) :
    Mirrors (Alike limits trees stray same) (run statements) (Plain.Interpreter.run statements)
      (Returned limits trees stray same) (Failed limits trees same) := by
  induction statements with
  | nil => exact Mirrors.of_pure fun _ _ hs => ⟨rfl, hs⟩
  | cons statement statements ih =>
    rw [run, apply_eq_perform]
    refine (mirrors_performUnit (Deck.mirrors_apply statement)).bind fun _ _ => ?_
    exact Mirrors.of_and fun _ => ih

end Interpreter

/-! ## Sessions -/

namespace Session

/-- The session stands for the plain session: the caller holds the trees of the issued handles. -/
def Alike (limits : Limits) (stray : Nat) (same : Prop) (s : Session) (p : Plain.Session) : Prop :=
  ∃ trees : List Tree, Interpreter.Alike limits trees stray same s.interpreter p.interpreter ∧
    s.issued = trees.map Tree.root ∧ p.issued = trees.map Tree.term

/-- How both sides have served a request. -/
inductive Served (limits : Limits) (stray : Nat) (same : Prop) (x : Answer × Session)
    (y : Answer × Plain.Session) : Prop where
  /-- The request was done. -/
  | done (answer : x.1 = y.1) (error : x.1.error? = none)
      (alike : Alike limits stray same x.2 y.2)
  /-- The request ended in the same error, which is no fault. -/
  | failed (answer : x.1 = y.1) (e : FatalError) (error : x.1.error? = some e)
      (no_fault : ∀ f, e ≠ .fault f) (more : Nat) (alike : Alike limits more same x.2 y.2)
  /-- Both sides gave up on an evaluation without end. -/
  | endless (limit : limits.evalDepth = 0) (answer : y.1.error? = some Plain.Error.endless.fatal)
      (h : Handle) (error : x.1.error? = some (.fault (.endless h))) (more : Nat)
      (alike : Alike limits more False x.2 y.2)

variable {α : Type} {limits : Limits} {stray : Nat} {same : Prop} {s : Session}
  {p : Plain.Session}

/-- A request for an operation. -/
theorem served_perform {operation : Interpreter.Action α}
    {plainOperation : Plain.Interpreter.Action α} {answer : Except FatalError α → Answer}
    (hok : ∀ x, (answer (.ok x)).error? = none)
    (herror : ∀ e, (answer (.error e)).error? = some e) {trees : List Tree}
    (hissued : s.issued = trees.map Tree.root) (hplain : p.issued = trees.map Tree.term)
    (h : Mirrors (Interpreter.Alike limits trees stray same) operation plainOperation
      (Interpreter.Returned limits trees stray same) (Interpreter.Failed limits trees same))
    (hs : Interpreter.Alike limits trees stray same s.interpreter p.interpreter) :
    Served limits stray same (s.perform operation answer) (p.perform plainOperation answer) := by
  rw [run_perform, Plain.Session.run_perform]
  rcases h _ _ hs with ⟨x, y, it, q, ha, hb, rfl, hs'⟩ |
    ⟨e, d, it, q, ha, hb, more, ⟨rfl, hfault, hs'⟩ | ⟨hzero, ⟨k, rfl⟩, rfl, hs'⟩⟩
  · rw [ha, hb]
    exact .done rfl (hok x) ⟨trees, hs', hissued, hplain⟩
  · rw [ha, hb]
    exact .failed rfl e (herror e) hfault more ⟨trees, hs', hissued, hplain⟩
  · rw [ha, hb]
    exact .endless hzero (herror _) k (herror _) more ⟨trees, hs', hissued, hplain⟩

/-- A request that changes nothing. -/
theorem served_unchanged {a b : Answer} (hab : a = b) (hok : a.error? = none)
    (hs : Alike limits stray same s p) : Served limits stray same (a, s) (b, p) :=
  .done hab hok hs

/-- A request that concerns the console alone. -/
theorem served_console (f : Console → Console) (hs : Alike limits stray same s p) :
    Served limits stray same
      (.done (.ok ()), { s with interpreter := { s.interpreter with
        console := f s.interpreter.console } })
      (.done (.ok ()), { p with interpreter := { p.interpreter with
        console := f p.interpreter.console } }) := by
  obtain ⟨trees, ⟨hdeck, hconsole⟩, hissued⟩ := hs
  exact .done rfl rfl
    ⟨trees, ⟨hdeck, fun hsame => congrArg f (hconsole hsame)⟩, hissued⟩

/-- A formula stored on request is held by the caller from then on. -/
theorem served_lower (formula : Formula) (hs : Alike limits stray same s p) :
    Served limits stray same (s.step (.lower formula)) (p.step (.lower formula)) := by
  obtain ⟨trees, hit, hissued, hplain⟩ := hs
  rw [step_lower, Plain.Session.step_lower]
  rcases Interpreter.mirrors_lower formula _ _ hit with
    ⟨id, term, it, q, ha, hb, t, rfl, rfl, hs'⟩ |
    ⟨e, d, it, q, ha, hb, more, ⟨rfl, hfault, hs'⟩ | ⟨hzero, ⟨k, rfl⟩, rfl, hs'⟩⟩
  · rw [ha, hb]
    refine .done rfl rfl ⟨trees ++ [t], hs', ?_, ?_⟩
    · rw [List.map_append, hissued, List.map_singleton]
    · rw [List.map_append, hplain, List.map_singleton]
  · rw [ha, hb]
    exact .failed rfl e rfl hfault more ⟨trees, hs', hissued, hplain⟩
  · rw [ha, hb]
    exact .endless hzero rfl k rfl more ⟨trees, hs', hissued, hplain⟩

/-- A formula stored on request is evaluated. -/
theorem served_evaluate (number : Nat) (hs : Alike limits stray same s p) :
    Served limits stray same (s.step (.evaluate number)) (p.step (.evaluate number)) := by
  obtain ⟨trees, hit, hissued, hplain⟩ := hs
  unfold step Plain.Session.step
  dsimp only
  -- the number stands for the same tree on both sides, or for none
  rw [hissued, hplain, List.getElem?_map, List.getElem?_map]
  cases ht : trees[number]? with
  | none => exact served_unchanged rfl rfl ⟨trees, hit, hissued, hplain⟩
  | some t =>
    have hmem : t ∈ trees := List.mem_of_getElem? ht
    have heval : Mirrors (Deck.Alike limits trees stray) (Deck.evaluate t.root)
        (Plain.Deck.evaluate t.term) (Deck.Returned limits trees stray)
        (Deck.Failed limits trees) :=
      (Deck.mirrors_evaluate t).imp (fun _ _ h => h.holding hmem) (fun _ _ _ _ => id)
        fun _ _ _ _ => id
    have hvalue : Mirrors (Interpreter.Alike limits trees stray same)
        (Interpreter.evaluate t.root) (Plain.Interpreter.perform (Plain.Deck.evaluate t.term))
        (Interpreter.Returned limits trees stray same)
        (Interpreter.Failed limits trees same) := by
      rw [Interpreter.evaluate_eq_perform]
      exact Interpreter.mirrors_performReturned heval
    have hop := hvalue.imp (fun _ _ => id)
      (fun x y it q h => (⟨congrArg some h.1, h.2⟩ :
        Interpreter.Returned limits trees stray same (some x) (some y) it q)) fun _ _ _ _ => id
    exact served_perform (fun _ => rfl) (fun _ => rfl) hissued hplain hop.map hit

/-- A formula stored on request is written. -/
theorem served_render (number : Nat) (hs : Alike limits stray same s p) :
    Served limits stray same (s.step (.render number)) (p.step (.render number)) := by
  obtain ⟨trees, hit, hissued, hplain⟩ := hs
  have hs : Alike limits stray same s p := ⟨trees, hit, hissued, hplain⟩
  unfold step Plain.Session.step
  dsimp only
  rw [hissued, hplain, List.getElem?_map, List.getElem?_map]
  cases ht : trees[number]? with
  | none => exact served_unchanged rfl rfl hs
  | some t =>
    -- the tree is held, so that it is read back as its term
    obtain ⟨g, hd, -⟩ := hit.deck
    have hread := hd.grove.read (List.mem_append_right _ (List.mem_of_getElem? ht))
    have hrender : s.interpreter.deck.render t.root = .ok t.term.render := by
      rw [Deck.render, Expr.Forest.render, hread]
      rfl
    rw [Option.map_some, Option.map_some]
    dsimp only
    rw [hrender]
    exact served_unchanged rfl rfl hs

/-- An entry refers to an element, a line or nothing. -/
theorem served_resolve (entry : Line.Entry) (hs : Alike limits stray same s p) :
    Served limits stray same (s.step (.resolve entry)) (p.step (.resolve entry)) := by
  obtain ⟨trees, hit, hissued, hplain⟩ := hs
  obtain ⟨g, hd, hmap⟩ := hit.deck
  refine served_unchanged ?_ rfl ⟨trees, hit, hissued, hplain⟩
  rw [← hmap]
  refine congrArg Answer.member ?_
  unfold Deck.resolve Symbols.resolve
  -- elements are looked up first, on both sides
  rcases hd.element_cases entry.name with
    ⟨hrecord, hterm⟩ | ⟨record, e, hrecord, hterm, hview, -⟩
  · rw [hrecord, hterm, hd.line?]
    cases (g.map Tree.term).symbols.lines.get? entry.name with
    | some line => rfl
    | none => rfl
  · rw [hrecord, hterm]
    exact congrArg (fun e => some (Sum.inl (Plain.Element.kind e))) hview

/-- The elements of given kinds are listed by name. -/
theorem names_elementsOf {deck : Deck} {g : Plain.Deck Tree} {trees : List Tree}
    (hd : deck.Depicts limits g trees stray) (kinds : Element.Kinds) :
    (deck.elementsOf kinds).map Element.name =
      ((Plain.Table.ordered (g.map Tree.term).symbols.elements).filter fun e =>
        kinds.contains e.kind).map Plain.Element.name := by
  have hordered : Plain.Table.ordered (g.map Tree.term).symbols.elements =
      (Plain.Table.ordered g.symbols.elements).map (Plain.Element.map Tree.term) :=
    Plain.Table.ordered_map (f := Plain.Element.map Tree.term) (fun _ => rfl) g.symbols.elements
  -- the kind and the name of an element are those of its plain form
  have hleft : (deck.elementsOf kinds).map Element.name =
      ((deck.symbols.elements.ordered.map Element.view).filter fun e =>
        kinds.contains e.kind).map Plain.Element.name := by
    rw [List.filter_map, List.map_map]
    rfl
  rw [hleft, show Element.view = Portrayal.elements.view from rfl, hd.symbols.elements.ordered,
    hordered, List.filter_map, List.filter_map, List.map_map, List.map_map]
  rfl

/-- Whatever is asked for, both sides give the same answer and stay alike. -/
theorem served (request : Request) (hs : Alike limits stray same s p) :
    Served limits stray same (s.step request) (p.step request) := by
  obtain ⟨trees, hit, hissued, hplain⟩ := hs
  have hs : Alike limits stray same s p := ⟨trees, hit, hissued, hplain⟩
  obtain ⟨g, hd, hmap⟩ := hit.deck
  have hdone {a : Interpreter.Action Unit} {b : Plain.Interpreter.Action Unit}
      (h : Mirrors (Interpreter.Alike limits trees stray same) a b
        (Interpreter.Returned limits trees stray same) (Interpreter.Failed limits trees same)) :
      Served limits stray same (s.perform a .done) (p.perform b .done) :=
    served_perform (fun _ => rfl) (fun _ => rfl) hissued hplain h hit
  have hvalue {a : Interpreter.Action (Option Value)} {b : Plain.Interpreter.Action (Option Value)}
      (h : Mirrors (Interpreter.Alike limits trees stray same) a b
        (Interpreter.Returned limits trees stray same) (Interpreter.Failed limits trees same)) :
      Served limits stray same (s.perform a .value) (p.perform b .value) :=
    served_perform (fun _ => rfl) (fun _ => rfl) hissued hplain h hit
  -- requests for operations first, then those that read the deck, then those for the console
  cases request with
  | apply statement =>
    rw [step_apply]
    exact hdone (Interpreter.mirrors_performUnit (Deck.mirrors_apply statement))
  | run statements => exact hdone (Interpreter.mirrors_run statements)
  | defineConstant raw formula pos =>
    rw [step_defineConstant]
    exact hdone (Interpreter.mirrors_performAt pos (Deck.mirrors_defineConstant raw formula))
  | defineVariable raw formula binding pos =>
    rw [step_defineVariable]
    exact hdone
      (Interpreter.mirrors_performAt pos (Deck.mirrors_defineVariable raw formula binding))
  | defineElement raw kind items pos =>
    rw [step_defineElement]
    exact hdone (Interpreter.mirrors_performAt pos (Deck.mirrors_defineElement raw kind items))
  | defineLine raw body pos =>
    rw [step_defineLine]
    exact hdone (Interpreter.mirrors_performAt pos (Deck.mirrors_defineLine raw body))
  | beginComment =>
    rw [step_beginComment]
    exact hdone (Interpreter.mirrors_performUnit Deck.mirrors_beginComment)
  | endComment =>
    rw [step_endComment]
    exact hdone (Interpreter.mirrors_performUnit Deck.mirrors_endComment)
  | captureComment text atEnd =>
    rw [step_captureComment]
    exact hdone (Interpreter.mirrors_performUnit (Deck.mirrors_captureComment text atEnd))
  | layout body =>
    rw [step_layout]
    exact served_perform (fun _ => rfl) (fun _ => rfl) hissued hplain
      (Interpreter.mirrors_performReturned (Deck.mirrors_layout body)) hit
  | lower formula => exact served_lower formula hs
  | evaluate number => exact served_evaluate number hs
  | render number => exact served_render number hs
  | constantValue raw =>
    refine served_unchanged ?_ rfl hs
    rw [← hmap]
    exact congrArg (fun v => Answer.value (.ok v)) (hd.constant? (Name.ofText raw))
  | variableValue raw =>
    rw [step_variableValue]
    exact hvalue (Interpreter.mirrors_performReturned (Deck.mirrors_variableValue raw))
  | attributeValue raw key =>
    rw [step_attributeValue]
    exact hvalue (Interpreter.mirrors_performReturned (Deck.mirrors_attributeValue raw key))
  | entryValue raw index =>
    rw [step_entryValue]
    exact hvalue (Interpreter.mirrors_performReturned (Deck.mirrors_entryValue raw index))
  | elementLength raw =>
    rw [step_elementLength]
    exact hvalue (Interpreter.mirrors_performReturned (Deck.mirrors_elementLength raw))
  | resolve entry => exact served_resolve entry hs
  | elementsOf kinds =>
    refine served_unchanged ?_ rfl hs
    rw [← hmap]
    exact congrArg Answer.names (names_elementsOf hd kinds)
  | commentAt line =>
    refine served_unchanged ?_ rfl hs
    rw [← hmap, hd.commentary]
    rfl
  | finish => exact served_console (fun c => Request.onConsole c .finish) hs
  | attach terminal => exact served_console (fun c => Request.onConsole c (.attach terminal)) hs
  | enterFile path => exact served_console (fun c => Request.onConsole c (.enterFile path)) hs
  | leaveFile => exact served_console (fun c => Request.onConsole c .leaveFile) hs
  | nextLine => exact served_console (fun c => Request.onConsole c .nextLine) hs

/-! ## Runs -/

/-- Before the first request the session stands for the plain session. -/
theorem alike_ofConfig (config : Config) :
    Alike config.limits 0 True (ofConfig config) (Plain.Session.ofConfig config) := by
  refine ⟨[], ⟨?_, fun _ => rfl⟩, rfl, rfl⟩
  let blank : Deck := Deck.blank config.limits
  let plain : Plain.Deck Tree :=
    ⟨config.limits, Plain.Symbols.empty, Commentary.empty, Position.unread⟩
  have hblank : blank.Depicts config.limits plain [] 0 :=
    ⟨rfl, rfl, ⟨rfl, rfl, rfl, rfl⟩, rfl, rfl, Grove.empty⟩
  -- the one constant is stored like any other
  let source : Tree := .number (blank.forest.alloc (.number Angle.halfTurn)).1 Angle.halfTurn
  let record : Constant :=
    ⟨Name.ofText "PI", .number Angle.halfTurn, source.root, Position.unread⟩
  let c : Plain.Constant Tree :=
    ⟨Name.ofText "PI", .number Angle.halfTurn, source, Position.unread⟩
  have hrecord : Portrayal.consts.view record = Portrayal.consts.sketch c := rfl
  obtain ⟨replaced, consts, left, hrun, hd⟩ :=
    Namespace.consts.insert hrecord (hblank.alloc source rfl rfl)
  have hinitial : (ofConfig config).interpreter.deck =
      let outcome := blank.symbols.consts.insert record (blank.forest.alloc source.node).2
      { blank with
        forest := outcome.2.2
        symbols := { blank.symbols with consts := outcome.2.1 } } :=
    rfl
  rw [show blank.symbols.consts.insert record (blank.forest.alloc source.node).2 =
    (.ok replaced, consts, left) from hrun] at hinitial
  rw [hinitial]
  exact ⟨_, hd, rfl⟩

/-- Requests one after the other keep the session and the plain session alike. Nothing becomes
stray unless a request ends in an error. -/
theorem alike_after (requests : List Request) (hs : Alike limits stray same s p) :
    ∃ more same', Alike limits more same' (s.after requests) (p.after requests) ∧
      ((∀ entry ∈ s.trace requests, entry.1.error? = none) → more = stray) := by
  -- by induction on the requests; an error may add strays, and one endless evaluation is enough
  -- for the consoles to differ from then on
  induction requests generalizing s p stray same with
  | nil => exact ⟨stray, same, hs, fun _ => rfl⟩
  | cons request requests ih =>
    have hstep : ∃ more same', Alike limits more same' (s.step request).2 (p.step request).2 ∧
        ((s.step request).1.error? = none → more = stray) := by
      cases served request hs with
      | done _ _ halike => exact ⟨stray, same, halike, fun _ => rfl⟩
      | failed _ e herror _ more halike =>
        exact ⟨more, same, halike, fun hnone => by rw [herror] at hnone; cases hnone⟩
      | endless _ _ h herror more halike =>
        exact ⟨more, False, halike, fun hnone => by rw [herror] at hnone; cases hnone⟩
    obtain ⟨more, same', halike, hstray⟩ := hstep
    obtain ⟨more', same'', halike', hstray'⟩ := ih halike
    refine ⟨more', same'', halike', fun hnone => ?_⟩
    rw [hstray' fun entry hentry => hnone entry (List.mem_cons_of_mem _ hentry),
      hstray (hnone _ List.mem_cons_self)]

/-- Where the depth has a limit, the traces are the same, and no request ends in a fault. -/
theorem trace_of_alike (hdepth : limits.evalDepth ≠ 0) (requests : List Request)
    (hs : Alike limits stray True s p) :
    s.trace requests = p.trace requests ∧
      ∀ entry ∈ s.trace requests, ∀ f, entry.1.error? ≠ some (.fault f) := by
  -- with a limit the consoles never come to differ
  induction requests generalizing s p stray with
  | nil => exact ⟨rfl, List.forall_mem_nil _⟩
  | cons request requests ih =>
    obtain ⟨more, halike, hanswer, hfault⟩ : ∃ more,
        Alike limits more True (s.step request).2 (p.step request).2 ∧
          (s.step request).1 = (p.step request).1 ∧
            ∀ f, (s.step request).1.error? ≠ some (.fault f) := by
      cases served request hs with
      | done hanswer hnone halike =>
        exact ⟨stray, halike, hanswer, fun f hf => by rw [hnone] at hf; cases hf⟩
      | failed hanswer e herror hfault more halike =>
        refine ⟨more, halike, hanswer, fun f hf => ?_⟩
        rw [herror] at hf
        exact hfault f (Option.some.inj hf)
      | endless hzero => exact absurd hzero hdepth
    obtain ⟨htrace, hfaults⟩ := ih halike
    have hconsole : (s.step request).2.interpreter.console =
        (p.step request).2.interpreter.console := by
      obtain ⟨trees, hit, -⟩ := halike
      exact hit.console trivial
    refine ⟨?_, ?_⟩
    · rw [trace_cons, Plain.Session.trace_cons, hanswer, hconsole, htrace]
    · intro entry hentry f
      rcases List.mem_cons.1 hentry with rfl | hentry
      · exact hfault f
      · exact hfaults entry hentry f

/-- Where the depth has a limit, a session answers every request as the plain session does, and
the console shows the same after each. No stored expression is ever found missing. -/
theorem trace_eq_plain (config : Config) (hdepth : 0 < config.limits.evalDepth)
    (requests : List Request) :
    (ofConfig config).trace requests = (Plain.Session.ofConfig config).trace requests ∧
      ∀ entry ∈ (ofConfig config).trace requests, ∀ f, entry.1.error? ≠ some (.fault f) :=
  trace_of_alike (Nat.ne_of_gt hdepth) requests (alike_ofConfig config)

/-- A run that redefines a variable while a formula that names it is held, defines an element over
another one and fails on a text in arithmetic. -/
theorem trace_eq_plain_of_redefinitions :
    let requests : List Request :=
      [.defineVariable "A" (.number 1.0) .deferred Position.unread,
        .lower (.binary .add (.name "A") (.lengthOf "M")),
        .defineVariable "A" (.parens (.number 2.0)) .immediate Position.unread,
        .defineElement "M" .matrix [.assign "L" (.name "A")] Position.unread,
        .defineElement "M" .drift [.assign "L" (.signed .minus (.text "x"))] Position.unread,
        .evaluate 0, .render 0]
    0 < ({} : Config).limits.evalDepth ∧
      (ofConfig {}).trace requests = (Plain.Session.ofConfig {}).trace requests :=
  ⟨by decide, (trace_eq_plain {} (by decide) _).1⟩

end Session

end Beamline
