import Mathlib.Data.List.Induction
import Beamline.Proofs.Plain.Effect
import Beamline.Proofs.Session.Reading
import Beamline.Proofs.Session.Steps

/-!
# Snapshots

A request changes at most the record of the symbol that it defines. Hence a constant, an immediate
variable and a line stay what their last definition made of them, computed on the deck as it was at
that moment, whatever is defined, redefined or refused afterwards.

* `Plain.Session.step_cases`: a request has the effect of a clause, or changes no record.
* `Session.lastDefinition?`: the definition of a symbol that was accepted last.
* `Session.apart_step_and_shows`: what a request changes, and what is read after requests.
-/

namespace Beamline

open Source (Position)
open Beamline.Expr (Formula Term)

namespace Plain

/-- The plain deck at the position of a statement. -/
def Deck.movedTo (pos : Position) (d : Deck Term) : Deck Term :=
  { d with pos }

/-- Reading a slot leaves the deck as it is. -/
theorem Deck.deck_of_run_slotValue (slot : Option (Option Term)) (w : Deck.Work) :
    ((Deck.slotValue slot).run w).2.deck = w.deck := by
  match slot with
  | none => rfl
  | some none => rfl
  | some (some t) =>
    rw [slotValue, run_map]
    rfl

namespace Session

variable {p : Plain.Session} {request : Request}

/-- A single request has the effect of the clause that it asks for, or it changes no record. -/
theorem step_cases (p : Plain.Session) (hsingle : request.IsSingle) :
    (∃ statement outcome, request.statement? = some statement ∧
        request.isSkipped p.interpreter.deck.commentary = false ∧
        (p.step request).1 = .done (outcome.mapError Error.fatal) ∧
        (p.interpreter.deck.movedTo statement.pos).Effect statement.clause outcome
          (p.step request).2.interpreter.deck.symbols) ∨
      (request.statement? = none ∨ request.isSkipped p.interpreter.deck.commentary = true) ∧
        (p.step request).2.interpreter.deck.symbols = p.interpreter.deck.symbols := by
  let deck := p.interpreter.deck
  have hdefinition (statement : Statement) :=
    Deck.affects_perform (deck.movedTo statement.pos) statement.clause
  have hquery (slot : Option (Option Term)) :
      ((Deck.slotValue slot).run ⟨deck, #[]⟩).2.deck.symbols = deck.symbols :=
    congrArg Deck.symbols (Deck.deck_of_run_slotValue slot ⟨deck, #[]⟩)
  -- definitions first; what is asked of the deck or of the console changes no record
  cases request with
  | apply statement =>
    have hrun : (Deck.apply statement).run ⟨deck, #[]⟩ =
        (if (deck.commentary.isActive && !statement.clause.isComment) = true then pure ()
          else Deck.perform statement.clause : Deck.Action Unit).run
            ⟨{ deck with pos := statement.pos }, #[]⟩ := rfl
    have hstep : p.step (.apply statement) =
        p.perform (Interpreter.perform (Deck.apply statement)) .done := rfl
    rw [hstep, run_perform, Interpreter.run_perform, hrun]
    cases hskip : deck.commentary.isActive && !statement.clause.isComment with
    | true => exact .inr ⟨.inr hskip, rfl⟩
    | false => exact .inl ⟨statement, _, rfl, hskip, rfl, hdefinition statement⟩
  | run statements => exact absurd rfl (hsingle statements)
  | defineConstant raw formula pos =>
    exact .inl ⟨_, _, rfl, rfl, rfl, hdefinition ⟨.constant raw formula, pos⟩⟩
  | defineVariable raw formula binding pos =>
    exact .inl ⟨_, _, rfl, rfl, rfl, hdefinition ⟨.variable raw formula binding, pos⟩⟩
  | defineElement raw kind items pos =>
    exact .inl ⟨_, _, rfl, rfl, rfl, hdefinition ⟨.element raw kind items, pos⟩⟩
  | defineLine raw body pos =>
    exact .inl ⟨_, _, rfl, rfl, rfl, hdefinition ⟨.line raw body, pos⟩⟩
  | endComment => exact .inr ⟨.inl rfl, Deck.symbols_of_run_endComment ⟨deck, #[]⟩⟩
  | lower formula =>
    refine .inr ⟨.inl rfl, ?_⟩
    have hdeck : ((Interpreter.perform (Deck.lower formula)).run p.interpreter).2.deck = deck := rfl
    unfold step
    dsimp only
    rcases hrun : (Interpreter.perform (Deck.lower formula)).run p.interpreter with ⟨e | t, it⟩ <;>
      rw [hrun] at hdeck <;> exact congrArg Deck.symbols hdeck
  | evaluate number =>
    refine .inr ⟨.inl rfl, ?_⟩
    unfold step
    dsimp only
    cases p.issued[number]? with
    | none => rfl
    | some t =>
      dsimp only
      rw [run_perform, run_map]
      rfl
  | render number =>
    refine .inr ⟨.inl rfl, ?_⟩
    unfold step
    dsimp only
    cases p.issued[number]? with
    | none => rfl
    | some t => rfl
  | variableValue raw => exact .inr ⟨.inl rfl, hquery _⟩
  | attributeValue raw key => exact .inr ⟨.inl rfl, hquery _⟩
  | entryValue raw index => exact .inr ⟨.inl rfl, hquery _⟩
  | elementLength raw => exact .inr ⟨.inl rfl, hquery _⟩
  | _ => exact .inr ⟨.inl rfl, rfl⟩

/-- A single request changes at most the record of the symbol that it defines. -/
theorem apart_step (p : Plain.Session) (hsingle : request.IsSingle) :
    (p.step request).2.interpreter.deck.symbols.apart request.symbol? =
      p.interpreter.deck.symbols.apart request.symbol? := by
  rcases step_cases p hsingle with ⟨statement, outcome, hstatement, -, -, heffect⟩ | ⟨-, hsame⟩
  · rw [Request.symbol?, hstatement]
    exact heffect.apart_eq
  · rw [hsame]

end Session

end Plain

/-! ## Definitions and the decks that they were applied to -/

namespace Deck

/-- What a formula comes to on the deck. With `constantsOnly`, identifiers other than constants
count for nothing. -/
def valueOf (deck : Deck) (constantsOnly : Bool) (formula : Formula) : Except FatalError Value :=
  ((lowerWith constantsOnly formula >>= evaluate).run ⟨deck, #[]⟩).1

/-- What the body of a line comes to on the deck. -/
def entriesOf (deck : Deck) (body : Line.Body) : Except FatalError (List Line.Entry) :=
  ((layout body).run ⟨deck, #[]⟩).1

/-- What formulas and bodies of lines come to on the plain deck they come to on the deck. -/
structure Yields (deck : Deck) (d : Plain.Deck Term) : Prop where
  /-- Formulas come to the same values. -/
  valueOf : ∀ constantsOnly formula v, d.valueOf constantsOnly formula = .ok v →
    deck.valueOf constantsOnly formula = .ok v
  /-- Bodies of lines come to the same entries. -/
  entriesOf : ∀ body entries, d.entriesOf body = .ok entries → deck.entriesOf body = .ok entries

variable {limits : Limits} {held : List Expr.Tree} {stray : Nat} {deck : Deck} {d : Plain.Deck Term}

theorem yields_of_alike (hs : Alike limits held stray ⟨deck, #[]⟩ ⟨d, #[]⟩) : deck.Yields d where
  valueOf constantsOnly formula v hv := by
    have hmirrors : Mirrors (Alike limits held stray) (lowerWith constantsOnly formula >>= evaluate)
        (Plain.Deck.lowerWith constantsOnly formula >>= Plain.Deck.evaluate)
        (fun x y _ _ => x = y) (Failed limits held) := by
      refine (mirrors_lowerWith constantsOnly formula).bind_view fun t => ?_
      exact (mirrors_evaluateStored t).imp (fun _ _ => id) (fun _ _ _ _ h => h.1) fun _ _ _ _ => id
    unfold Plain.Deck.valueOf at hv
    unfold Deck.valueOf
    rcases hmirrors _ _ hs with ⟨x, y, w, q, ha, hb, rfl⟩ | ⟨e, e', w, q, ha, hb, -⟩
    · rw [ha]
      rw [hb] at hv
      exact congrArg Except.ok (Except.ok.inj hv)
    · rw [hb] at hv
      cases hv
  entriesOf body entries h := by
    unfold Plain.Deck.entriesOf at h
    unfold Deck.entriesOf
    rcases mirrors_layout body _ _ hs with ⟨x, y, w, q, ha, hb, rfl, -⟩ | ⟨e, e', w, q, ha, hb, -⟩
    · rw [ha]
      rw [hb] at h
      exact congrArg Except.ok (Except.ok.inj h)
    · rw [hb] at h
      cases h

end Deck

/-- A definition, and the deck that it was applied to. -/
structure Definition where
  /-- The deck just before the definition. -/
  origin : Deck
  /-- The clause. -/
  clause : Clause

namespace Session

/-- The definition that a request comes to: that of the statement, unless it is skipped, refused or
ends in an error. -/
def accepted? (s : Session) (request : Request) : Option Definition :=
  request.statement?.bind fun statement =>
    let origin := s.interpreter.deck.movedTo statement.pos
    if request.isSkipped s.interpreter.deck.commentary || origin.refuses statement.clause ||
        (s.step request).1.error?.isSome then
      none
    else
      some { origin, clause := statement.clause }

/-- The definitions that requests come to, in order. -/
def definitions (s : Session) : List Request → List Definition
  | [] => []
  | request :: requests => (s.accepted? request).toList ++ (s.step request).2.definitions requests

/-- The definition of a symbol that requests come to last. -/
def lastDefinition? (s : Session) (requests : List Request) (symbol : Symbol) : Option Definition :=
  ((s.definitions requests).filter fun d => d.clause.symbol? = some symbol).getLast?

theorem definitions_append (s : Session) (requests more : List Request) :
    s.definitions (requests ++ more) =
      s.definitions requests ++ (s.after requests).definitions more := by
  induction requests generalizing s with
  | nil => rfl
  | cons request requests ih =>
    rw [List.cons_append, definitions, definitions, ih, List.append_assoc]
    rfl

/-- After one more request the last definition is the new one, if it is of the symbol. -/
theorem lastDefinition?_concat (s : Session) (requests : List Request) (request : Request)
    (symbol : Symbol) :
    s.lastDefinition? (requests ++ [request]) symbol =
      (((s.after requests).accepted? request).filter fun d => d.clause.symbol? = some symbol).or
        (s.lastDefinition? requests symbol) := by
  unfold lastDefinition?
  rw [definitions_append, List.filter_append, List.getLast?_append]
  congr 1
  change (List.filter _ (((s.after requests).accepted? request).toList ++ [])).getLast? = _
  rw [List.append_nil]
  cases (s.after requests).accepted? request with
  | none => rfl
  | some d =>
    by_cases hd : d.clause.symbol? = some symbol
    · simp [Option.filter, hd]
    · simp [Option.filter, hd]

/-! ## The records of symbols -/

variable {limits : Limits} {stray : Nat} {same : Prop} {s : Session} {p : Plain.Session}
  {request : Request} {symbol : Symbol}

/-- Every session is like the plain session that its requests lead to one by one. -/
theorem alike_unrolled (config : Config) (requests : List Request) :
    ∃ stray same, Alike config.limits stray same ((ofConfig config).after requests)
      ((Plain.Session.ofConfig config).after ((ofConfig config).unrolled requests)) := by
  obtain ⟨stray, same, hs, -⟩ :=
    alike_after ((ofConfig config).unrolled requests) (alike_ofConfig config)
  rw [after_unrolled] at hs
  exact ⟨stray, same, hs⟩

theorem Alike.yields (hs : Alike limits stray same s p) (pos : Position) :
    (s.interpreter.deck.movedTo pos).Yields (p.interpreter.deck.movedTo pos) := by
  obtain ⟨trees, ⟨⟨g, hd, hmap⟩, -⟩, -⟩ := hs
  have hmoved : Deck.Alike limits trees stray ⟨s.interpreter.deck.movedTo pos, #[]⟩
      ⟨p.interpreter.deck.movedTo pos, #[]⟩ :=
    ⟨rfl, { g with pos }, { hd with pos := rfl }, by rw [← hmap]; rfl⟩
  exact Deck.yields_of_alike hmoved

theorem Alike.commentary_eq (hs : Alike limits stray same s p) :
    s.interpreter.deck.commentary = p.interpreter.deck.commentary := by
  obtain ⟨trees, ⟨⟨g, hd, hmap⟩, -⟩, -⟩ := hs
  rw [← hmap]
  exact hd.commentary

theorem Alike.refuses_eq (hs : Alike limits stray same s p) (pos : Position) (clause : Clause) :
    (s.interpreter.deck.movedTo pos).refuses clause =
      (p.interpreter.deck.movedTo pos).refuses clause := by
  obtain ⟨trees, ⟨⟨g, hd, hmap⟩, -⟩, -⟩ := hs
  cases clause with
  | constant raw formula =>
    have hcontains := hd.contains_vars (Name.ofText raw)
    rwa [hmap] at hcontains
  | «variable» raw formula binding =>
    have hcontains := hd.contains_consts (Name.ofText raw)
    rwa [hmap] at hcontains
  | _ => rfl

/-- A request ends in an error on both sides or on neither. -/
theorem Alike.error?_eq_none_iff (hs : Alike limits stray same s p) (request : Request) :
    (s.step request).1.error? = none ↔ (p.step request).1.error? = none := by
  cases served request hs with
  | done hanswer => rw [hanswer]
  | failed hanswer => rw [hanswer]
  | endless _ hplain _ herror =>
    rw [hplain, herror]
    exact iff_of_false nofun nofun

/-- What the symbols hold under a symbol: what its last definition has made of it on a plain deck
that yields what the deck yields to which the definition was applied, or what was there first. -/
def Holds (first : Plain.Symbols Term) (last : Option Definition) (symbol : Symbol)
    (symbols : Plain.Symbols Term) : Prop :=
  match last with
  | some d => ∃ origin record, d.origin.Yields origin ∧ origin.Defines d.clause record ∧
      symbols.find? symbol = some record
  | none => symbols.find? symbol = first.find? symbol

theorem Holds.congr {first symbols symbols' : Plain.Symbols Term} {last : Option Definition}
    (h : Holds first last symbol symbols) (heq : symbols'.find? symbol = symbols.find? symbol) :
    Holds first last symbol symbols' := by
  unfold Holds at h ⊢
  rwa [heq]

/-- A definition is accepted if it is not refused and does not fail. -/
theorem Alike.accepted?_eq (hs : Alike limits stray same s p) {statement : Statement}
    {outcome : Except Plain.Error Unit} (hstatement : request.statement? = some statement)
    (hskip : request.isSkipped p.interpreter.deck.commentary = false)
    (hanswer : (p.step request).1 = .done (outcome.mapError Plain.Error.fatal)) :
    s.accepted? request =
      if outcome = .ok () ∧
          (p.interpreter.deck.movedTo statement.pos).refuses statement.clause = false then
        some ⟨s.interpreter.deck.movedTo statement.pos, statement.clause⟩
      else none := by
  have herror := hs.error?_eq_none_iff request
  rw [hanswer] at herror
  unfold accepted?
  rw [hstatement, Option.bind_some]
  dsimp only
  rw [hs.commentary_eq, hskip, hs.refuses_eq, Bool.false_or]
  cases outcome with
  | error e =>
    have hsome : (s.step request).1.error?.isSome = true :=
      Option.isSome_iff_ne_none.2 fun hnone => nomatch herror.1 hnone
    rw [hsome, Bool.or_true, if_pos rfl, if_neg fun h => nomatch h.1]
  | ok _ =>
    rw [herror.2 rfl, Option.isSome_none, Bool.or_false]
    cases Plain.Deck.refuses _ statement.clause with
    | true => rw [if_pos rfl, if_neg fun h => nomatch h.2]
    | false => rw [if_neg nofun, if_pos ⟨rfl, rfl⟩]

/-- A constant, a variable or a line is what the last definition has made of it, also after one more
request. -/
theorem Alike.holds_step (hs : Alike limits stray same s p) (hsingle : request.IsSingle)
    (hsymbol : ∀ name, symbol ≠ .element name) {first : Plain.Symbols Term}
    {last : Option Definition} (h : Holds first last symbol p.interpreter.deck.symbols) :
    Holds first
      (((s.accepted? request).filter fun d => d.clause.symbol? = some symbol).or last) symbol
      (p.step request).2.interpreter.deck.symbols := by
  -- the definition counts if it is accepted and of the symbol; otherwise the record is untouched
  rcases p.step_cases hsingle with
    ⟨statement, outcome, hstatement, hskip, hanswer, heffect⟩ | ⟨hno, hsame⟩
  · rw [hs.accepted?_eq hstatement hskip hanswer]
    by_cases hnew : outcome = .ok () ∧
        (p.interpreter.deck.movedTo statement.pos).refuses statement.clause = false
    · rw [if_pos hnew]
      by_cases hdefines : statement.clause.symbol? = some symbol
      · obtain ⟨rfl, hfree⟩ := hnew
        obtain ⟨record, hrecord, hfind⟩ := heffect.exists_find? hfree hdefines
        rw [Option.filter_some, if_pos (decide_eq_true hdefines)]
        exact ⟨_, record, hs.yields statement.pos, hrecord, hfind⟩
      · rw [Option.filter_some, if_neg fun hd => hdefines (of_decide_eq_true hd)]
        exact h.congr (heffect.find?_eq hsymbol fun hall => hdefines hall.2.2)
    · rw [if_neg hnew]
      exact h.congr (heffect.find?_eq hsymbol fun hall => hnew ⟨hall.1, hall.2.1⟩)
  · have hnone : s.accepted? request = none := by
      unfold accepted?
      rcases hno with hno | hskip
      · rw [hno]
        rfl
      · rw [hs.commentary_eq, hskip]
        cases request.statement? with
        | none => rfl
        | some statement => rfl
    rw [hnone]
    exact h.congr (congrArg (·.find? symbol) hsame)

/-- Constants, variables and lines are what their last definitions have made of them, also after any
number of requests. -/
theorem Alike.holds_after (hs : Alike limits stray same s p)
    (hsymbol : ∀ name, symbol ≠ .element name) (requests : List Request)
    (hsingle : ∀ request ∈ requests, request.IsSingle) :
    ∃ more same', Alike limits more same' (s.after requests) (p.after requests) ∧
      Holds p.interpreter.deck.symbols (s.lastDefinition? requests symbol) symbol
        (p.after requests).interpreter.deck.symbols := by
  -- by induction from the end, as the definition that counts is the last one
  induction requests using List.reverseRecOn with
  | nil => exact ⟨stray, same, hs, rfl⟩
  | append_singleton requests request ih =>
    obtain ⟨more, same', hs', h⟩ :=
      ih fun request hrequest => hsingle request (List.mem_append_left _ hrequest)
    obtain ⟨more', same'', hs'', -⟩ := alike_after [request] hs'
    have hstep := hs'.holds_step (hsingle request (List.mem_append_right _ List.mem_cons_self))
      hsymbol h
    have hafter : p.after (requests ++ [request]) = ((p.after requests).step request).2 :=
      List.foldl_append
    rw [after_append, lastDefinition?_concat, hafter]
    exact ⟨more', same'', hs'', hstep⟩

/-! ## What is read -/

/-- What is read of the symbols of a name in the session is what their last definitions came to on
the decks that they were applied to. Symbols without a definition are as in the session at the
start. -/
structure Shows (s start : Session) (last? : Symbol → Option Definition) (raw : String) : Prop where
  /-- A constant has the value that its formula had. -/
  constant_of_some : ∀ d, last? (Symbol.constant (Name.ofText raw)) = some d →
    ∃ written formula v, d.clause = .constant written formula ∧
      d.origin.valueOf true formula = .ok v ∧ s.interpreter.deck.constantValue? raw = some v
  /-- Without a definition a constant is as at the start. -/
  constant_of_none : last? (Symbol.constant (Name.ofText raw)) = none →
    s.interpreter.deck.constantValue? raw = start.interpreter.deck.constantValue? raw
  /-- An immediate variable is read as the value that its formula had. -/
  variable_of_some : ∀ d, last? (Symbol.variable (Name.ofText raw)) = some d →
    ∃ written formula binding, d.clause = .variable written formula binding ∧
      (binding = .immediate → ∃ v, d.origin.valueOf false formula = .ok v ∧
        (s.step (.variableValue raw)).1 = .value (.ok (some v)))
  /-- Without a definition there is no variable. -/
  variable_of_none : last? (Symbol.variable (Name.ofText raw)) = none →
    (s.step (.variableValue raw)).1 = .value (.ok none)
  /-- A line has the entries that its body had. -/
  line_of_some : ∀ d, last? (Symbol.line (Name.ofText raw)) = some d →
    ∃ written body entries, d.clause = .line written body ∧
      d.origin.entriesOf body = .ok entries ∧
      (s.interpreter.deck.symbols.lines.lookup? raw).map Line.entries = some entries
  /-- Without a definition there is no line. -/
  line_of_none : last? (Symbol.line (Name.ofText raw)) = none →
    s.interpreter.deck.symbols.lines.lookup? raw = none

theorem Alike.line?_eq (hs : Alike limits stray same s p) (raw : String) :
    s.interpreter.deck.symbols.lines.lookup? raw =
      p.interpreter.deck.symbols.lines.get? (Name.ofText raw) := by
  obtain ⟨trees, ⟨⟨g, hd, hmap⟩, -⟩, -⟩ := hs
  rw [← hmap]
  exact hd.line? (Name.ofText raw)

/-- What a variable of the plain deck is read as. -/
theorem Alike.variableValue_of_run (hs : Alike limits stray same s p) {raw : String}
    {o : Option Value}
    (h : ((Plain.Deck.variableValue raw).run ⟨p.interpreter.deck, #[]⟩).1 = .ok o) :
    (s.step (.variableValue raw)).1 = .value (.ok o) := by
  refine hs.answer_of_value ?_
  have hstep : (p.step (.variableValue raw)).1 = .value
      (((Plain.Deck.variableValue raw).run ⟨p.interpreter.deck, #[]⟩).1.mapError
        Plain.Error.fatal) := rfl
  rw [hstep, h]
  rfl

section

variable {first : Plain.Symbols Term} {d : Definition} {raw : String}

theorem Alike.constant_of_holds (hs : Alike limits stray same s p)
    (h : Holds first (some d) (.constant (Name.ofText raw)) p.interpreter.deck.symbols) :
    ∃ written formula v, d.clause = .constant written formula ∧
      d.origin.valueOf true formula = .ok v ∧ s.interpreter.deck.constantValue? raw = some v := by
  obtain ⟨plain, record, hyields, hdefines, hfind⟩ := h
  obtain ⟨c, hc, rfl⟩ := Option.map_eq_some_iff.1 hfind
  obtain ⟨written, formula, hclause, hvalue⟩ := hdefines.exists_constant
  refine ⟨written, formula, c.value, hclause, hyields.valueOf _ _ _ hvalue, ?_⟩
  rw [hs.constantValue?_eq]
  exact congrArg (Option.map Plain.Constant.value) hc

theorem Alike.variable_of_holds (hs : Alike limits stray same s p)
    (h : Holds first (some d) (.variable (Name.ofText raw)) p.interpreter.deck.symbols) :
    ∃ written formula binding, d.clause = .variable written formula binding ∧
      (binding = .immediate → ∃ v, d.origin.valueOf false formula = .ok v ∧
        (s.step (.variableValue raw)).1 = .value (.ok (some v))) := by
  obtain ⟨plain, record, hyields, hdefines, hfind⟩ := h
  obtain ⟨c, hc, rfl⟩ := Option.map_eq_some_iff.1 hfind
  obtain ⟨written, formula, binding, hclause, himmediate⟩ := hdefines.exists_variable
  refine ⟨written, formula, binding, hclause, fun hbinding => ?_⟩
  obtain ⟨v, hvalue, hexpr⟩ := himmediate hbinding
  refine ⟨v, hyields.valueOf _ _ _ hvalue, hs.variableValue_of_run ?_⟩
  -- what is read is the term of the value, whatever has become of the formula
  rw [Plain.Deck.run_variableValue, hc, Option.map_some, hexpr, Plain.Deck.slotValue, run_map,
    Plain.Deck.run_evaluate_ofValue]
  rfl

theorem Alike.line_of_holds (hs : Alike limits stray same s p)
    (h : Holds first (some d) (.line (Name.ofText raw)) p.interpreter.deck.symbols) :
    ∃ written body entries, d.clause = .line written body ∧
      d.origin.entriesOf body = .ok entries ∧
      (s.interpreter.deck.symbols.lines.lookup? raw).map Line.entries = some entries := by
  obtain ⟨plain, record, hyields, hdefines, hfind⟩ := h
  obtain ⟨c, hc, rfl⟩ := Option.map_eq_some_iff.1 hfind
  obtain ⟨written, body, hclause, hentries⟩ := hdefines.exists_line
  refine ⟨written, body, c.entries, hclause, hyields.entriesOf _ _ hentries, ?_⟩
  rw [hs.line?_eq]
  exact congrArg (Option.map Line.entries) hc

end

/-- After single requests the last definitions are read. -/
theorem Alike.shows_after {start : Session} (hstart : Alike limits stray same start p)
    (hvars : p.interpreter.deck.symbols.vars = []) (hlines : p.interpreter.deck.symbols.lines = [])
    (requests : List Request) (hsingle : ∀ request ∈ requests, request.IsSingle) (raw : String) :
    (start.after requests).Shows start (start.lastDefinition? requests) raw := by
  have hconstant : ∀ name, Symbol.constant (Name.ofText raw) ≠ .element name := by simp
  have hvariable : ∀ name, Symbol.variable (Name.ofText raw) ≠ .element name := by simp
  have hline : ∀ name, Symbol.line (Name.ofText raw) ≠ .element name := by simp
  obtain ⟨_, _, hs, hconstant⟩ := hstart.holds_after hconstant requests hsingle
  obtain ⟨_, _, -, hvariable⟩ := hstart.holds_after hvariable requests hsingle
  obtain ⟨_, _, -, hline⟩ := hstart.holds_after hline requests hsingle
  constructor
  case constant_of_some =>
    intro d hd
    rw [hd] at hconstant
    exact hs.constant_of_holds hconstant
  case constant_of_none =>
    intro hnone
    rw [hnone] at hconstant
    have hget := Option.map_injective (fun _ _ => Plain.AnyRecord.constant.inj) hconstant
    refine (hs.constantValue?_eq raw).trans (.trans ?_ (hstart.constantValue?_eq raw).symm)
    exact congrArg (Option.map Plain.Constant.value) hget
  case variable_of_some =>
    intro d hd
    rw [hd] at hvariable
    exact hs.variable_of_holds hvariable
  case variable_of_none =>
    intro hnone
    rw [hnone] at hvariable
    have hget : p.interpreter.deck.symbols.find? (.variable (Name.ofText raw)) = none := by
      rw [Plain.Symbols.find?, hvars]
      rfl
    have hget := Option.map_eq_none_iff.1 (hvariable.trans hget)
    refine hs.variableValue_of_run ?_
    rw [Plain.Deck.run_variableValue, hget]
    rfl
  case line_of_some =>
    intro d hd
    rw [hd] at hline
    exact hs.line_of_holds hline
  case line_of_none =>
    intro hnone
    rw [hnone] at hline
    have hget : p.interpreter.deck.symbols.find? (.line (Name.ofText raw)) = none := by
      rw [Plain.Symbols.find?, hlines]
      rfl
    exact (hs.line?_eq raw).trans (Option.map_eq_none_iff.1 (hline.trans hget))

/-- In every session, a single request changes at most the record of the symbol that it defines, and
all other records keep their fields and the terms of their expressions. So constants, immediate
variables and lines are read as what their last definitions came to on the decks that these were
applied to, whatever has been defined since. -/
theorem apart_step_and_shows (config : Config) (requests : List Request) :
    let start := ofConfig config
    let s := start.after requests
    (∀ request : Request, request.IsSingle → ∃ before after : Plain.Symbols Term,
        s.interpreter.deck.reading = before.map .ok ∧
          (s.step request).2.interpreter.deck.reading = after.map .ok ∧
          after.apart request.symbol? = before.apart request.symbol?) ∧
      ∀ raw, s.Shows start (start.lastDefinition? (start.unrolled requests)) raw := by
  intro start s
  refine ⟨fun request hsingle => ?_, fun raw => ?_⟩
  · obtain ⟨_, _, hs, -⟩ := alike_after requests (alike_ofConfig config)
    obtain ⟨_, _, hs', -⟩ := alike_after [request] hs
    exact ⟨_, _, hs.reading_eq, hs'.reading_eq, Plain.Session.apart_step _ hsingle⟩
  · -- a run is read as the statements that it has come to
    have hshows := (alike_ofConfig config).shows_after rfl rfl (start.unrolled requests)
      (fun request hrequest => (isSingle_of_mem_unrolled hrequest).1) raw
    rwa [after_unrolled] at hshows

/-- A constant, an immediate variable and a line, and then new definitions of what they were built
from: of a constant, of an element and of a line. -/
theorem apart_step_and_shows_of_redefinitions :
    let pos := Position.unread
    let requests : List Request :=
      [.defineConstant "A" (.number 1.0) pos, .defineConstant "C" (.name "A") pos,
        .defineElement "Q" .drift [.assign "L" (.name "C")] pos,
        .defineVariable "X" (.binary .add (.name "A") (.lengthOf "Q")) .immediate pos,
        .defineLine "P" (.member "Q") pos,
        .run [⟨.line "S" (.repetition "2" (.member "P")), pos⟩, ⟨.constant "A" (.number 2.0), pos⟩,
          ⟨.element "Q" .drift [], pos⟩, ⟨.line "P" (.reflection (.member "R")), pos⟩]]
    let request : Request := .defineElement "Q" .drift [.assign "L" (.name "X")] pos
    let start := ofConfig {}
    let s := start.after requests
    let last? := start.lastDefinition? (start.unrolled requests)
    (∃ before after : Plain.Symbols Term, s.interpreter.deck.reading = before.map .ok ∧
        (s.step request).2.interpreter.deck.reading = after.map .ok ∧
        after.apart request.symbol? = before.apart request.symbol?) ∧
      (∃ d formula v, last? (.constant (Name.ofText "C")) = some d ∧
        d.origin.valueOf true formula = .ok v ∧ s.interpreter.deck.constantValue? "C" = some v) ∧
      (∃ d formula v, last? (.variable (Name.ofText "X")) = some d ∧
        d.origin.valueOf false formula = .ok v ∧
        (s.step (.variableValue "X")).1 = .value (.ok (some v))) ∧
      ∃ d body entries, last? (.line (Name.ofText "S")) = some d ∧
        d.origin.entriesOf body = .ok entries ∧
        (s.interpreter.deck.symbols.lines.lookup? "S").map Line.entries = some entries := by
  intro pos requests request
  let last? := (ofConfig {}).lastDefinition? ((ofConfig {}).unrolled requests)
  let isImmediate (d : Definition) : Bool :=
    match d.clause with
    | .variable _ _ .immediate => true
    | _ => false
  have hconstant : (last? (.constant (Name.ofText "C"))).isSome = true := by decide +kernel
  have hvariable : ((last? (.variable (Name.ofText "X"))).filter isImmediate).isSome = true := by
    decide +kernel
  have hline : (last? (.line (Name.ofText "S"))).isSome = true := by decide +kernel
  obtain ⟨hframe, hshows⟩ := apart_step_and_shows {} requests
  refine ⟨hframe request nofun, ?_, ?_, ?_⟩
  · obtain ⟨d, hd⟩ := Option.isSome_iff_exists.1 hconstant
    obtain ⟨_, formula, v, -, hvalue⟩ := (hshows "C").constant_of_some d hd
    exact ⟨d, formula, v, hd, hvalue⟩
  · obtain ⟨d, hfilter⟩ := Option.isSome_iff_exists.1 hvariable
    obtain ⟨hd, himmediate⟩ := Option.filter_eq_some_iff.1 hfilter
    obtain ⟨_, formula, binding, hclause, hvalue⟩ := (hshows "X").variable_of_some d hd
    unfold isImmediate at himmediate
    rw [hclause] at himmediate
    cases binding with
    | deferred => cases himmediate
    | immediate =>
      obtain ⟨v, hvalue, hread⟩ := hvalue rfl
      exact ⟨d, formula, v, hd, hvalue, hread⟩
  · obtain ⟨d, hd⟩ := Option.isSome_iff_exists.1 hline
    obtain ⟨_, body, entries, -, hentries⟩ := (hshows "S").line_of_some d hd
    exact ⟨d, body, entries, hd, hentries⟩

end Session

end Beamline
