import Beamline.Proofs.Plain.Blame
import Beamline.Proofs.Plain.Deferral
import Beamline.Proofs.Session.Discipline
import Beamline.Proofs.Session.Reading

/-!
# What is to blame for a text in a session

What is stored in a session has been lowered in some earlier session, and may be evaluated in any
later one. If the evaluation fails for a text, what is blamed is a name: that of a constant which is
a text by now and was a number when the expression that refers to it was stored, or that of a
variable or an element whose value or length is a text now. A text in quotes is never blamed.

* `Session.exists_blamed_of_evaluate`: what is to blame when an evaluation fails.
-/

namespace Beamline

open Source (Position)
open Beamline.Expr (Formula NodeId Term Tree)

/-! ## Where terms come from -/

namespace Plain

/-- The formula is lowered to the term on the deck, at some position and with or without
variables. -/
def Deck.Lowers (d : Deck Term) (formula : Formula) (t : Term) : Prop :=
  ∃ pos constantsOnly, ((do
    moveTo pos
    lowerWith constantsOnly formula : Action Term).run ⟨d, #[]⟩).1 = .ok t

/-- The outcome of lowering depends on the constants and on the position. -/
theorem Deck.lowers_of_run {d d' : Deck Term} (hconsts : d'.symbols.consts = d.symbols.consts)
    {constantsOnly : Bool} {formula : Formula} {t : Term} {raised : Array Diagnostic}
    (h : ((lowerWith constantsOnly formula).run ⟨d', raised⟩).1 = .ok t) :
    d.Lowers formula t := by
  refine ⟨d'.pos, constantsOnly, ?_⟩
  have hsame : (d.symbols.loweringScope d'.pos constantsOnly).SameConstants
      (d'.symbols.loweringScope d'.pos constantsOnly) := by
    refine ⟨?_, rfl, rfl⟩
    change (fun name => (d.symbols.consts.get? name).map Constant.value) =
      fun name => (d'.symbols.consts.get? name).map Constant.value
    rw [hconsts]
  rw [← h]
  exact hsame.sameOutcome_lower formula false #[] raised

/-- What is lowered on a deck is apt, and all constants that it takes for numbers are numbers. -/
theorem Deck.Lowers.apt {d : Deck Term} {formula : Formula} {t : Term} (h : d.Lowers formula t) :
    t.Apt false ∧ ∀ name, .numberConstant name ∈ t.subterms →
      ∃ x, d.scope.constant? name = some (.number x) := by
  obtain ⟨pos, constantsOnly, hrun⟩ := h
  let scope := d.symbols.loweringScope pos constantsOnly
  change ((scope.lower formula false).run #[]).1 = .ok t at hrun
  rcases hlower : (scope.lower formula false).run #[] with ⟨e | u, raised⟩
  · rw [hlower] at hrun
    cases hrun
  · rw [hlower] at hrun
    obtain rfl : u = t := Except.ok.inj hrun
    exact ((scope.admits_apt formula).ensures_lower false).of_run_ok trivial hlower

namespace Session

/-- The term is what a formula of the history was lowered to when it was handed over. -/
def Lowered (start : Session) (history : List Request) (t : Term) : Prop :=
  ∃ before request rest, history = before ++ request :: rest ∧
    ∃ formula ∈ request.formulas, (start.after before).interpreter.deck.Lowers formula t

theorem Lowered.append {start : Session} {history : List Request} {t : Term}
    (h : start.Lowered history t) (more : List Request) : start.Lowered (history ++ more) t := by
  obtain ⟨before, request, rest, rfl, hlowers⟩ := h
  exact ⟨before, request, rest ++ more, by rw [List.append_assoc]; rfl, hlowers⟩

/-- The discipline that all terms stand for values or have been lowered in the history. -/
def traced (start : Session) (history : List Request) : Discipline where
  term t := (∃ v, t = Term.ofValue v) ∨ start.Lowered history t
  value _ := True
  error _ _ := True

/-- What a further request hands over becomes part of the history. -/
theorem traced_governs (start : Session) (history : List Request) (request : Request) :
    (start.traced (history ++ [request])).Governs
      (start.after history).interpreter.deck.symbols.consts request.formulas request.bodies := by
  refine Discipline.governs_of_lower (fun _ => trivial) (fun _ _ => trivial)
    (fun v => .inl ⟨v, rfl⟩) ?_
  rintro _ hconsts formula hformula constantsOnly w rfl
  have hdeck : ((Deck.lowerWith constantsOnly formula).run w).2.deck = w.deck := rfl
  rcases hrun : (Deck.lowerWith constantsOnly formula).run w with ⟨e | t, w'⟩
  · rw [hrun] at hdeck
    exact .inr ⟨e, w', rfl, trivial, hdeck⟩
  · rw [hrun] at hdeck
    refine .inl ⟨t, w', rfl, .inr ⟨history, request, [], rfl, formula, hformula, ?_⟩, hdeck⟩
    exact Deck.lowers_of_run hconsts (congrArg Prod.fst hrun)

/-- In every session all terms stand for values or have been lowered in its history. -/
theorem obeys_traced (config : Config) (history : List Request)
    (hsingle : ∀ request ∈ history, request.IsSingle) :
    ((ofConfig config).after history).Obeys ((ofConfig config).traced history) := by
  -- by induction on the history from its end, as each request adds to what has been handed over
  induction history using List.reverseRecOn with
  | nil =>
    have hterm : ((ofConfig config).traced []).term (.number Angle.halfTurn) :=
      .inl ⟨.number Angle.halfTurn, rfl⟩
    exact ⟨Deck.obeys_initial config.limits trivial hterm, nofun⟩
  | append_singleton history request ih =>
    let p := (ofConfig config).after history
    have hp : p.Obeys ((ofConfig config).traced (history ++ [request])) := by
      refine (ih fun other hother => hsingle other (List.mem_append_left _ hother)).mono ?_
        fun _ => id
      exact fun t ht => ht.imp_right fun h => h.append [request]
    have hrequest : request.IsSingle :=
      hsingle request (List.mem_append_right _ List.mem_cons_self)
    have hstep := (complies_step hp hrequest (traced_governs _ history request)).obeys
    rwa [after, List.foldl_append]

theorem apt_of_traced {config : Config} {history : List Request} {t : Term}
    (h : ((ofConfig config).traced history).term t) : t.Apt false := by
  rcases h with ⟨v, rfl⟩ | ⟨_, _, _, _, formula, _, hlowers⟩
  · exact Term.apt_ofValue v
  · exact hlowers.apt.1

end Session

end Plain

/-! ## Sessions -/

/-- The formula is stored as the term on the deck, at some position and with or without
variables. -/
def Deck.Lowers (deck : Deck) (formula : Formula) (t : Term) : Prop :=
  ∃ pos constantsOnly root w, (do
    moveTo pos
    lowerWith constantsOnly formula : Action NodeId).run ⟨deck, #[]⟩ = (.ok root, w) ∧
      w.deck.forest.read root = .ok t

namespace Session

/-- The term has taken the constant for a number, and rightly: it is what a formula of the history
was stored as in a session in which the constant was a number. -/
def TookForNumber (start : Session) (history : List Request) (t : Term) (name : Name) : Prop :=
  .numberConstant name ∈ t.subterms ∧
    ∃ before request rest, history = before ++ request :: rest ∧
      (∃ formula ∈ request.formulas, (start.after before).interpreter.deck.Lowers formula t) ∧
      ∃ x, (start.after before).interpreter.deck.constantValue? name.text = some (.number x)

variable {limits : Limits} {stray : Nat} {same : Prop} {s : Session} {p : Plain.Session}

/-- What is lowered on the plain deck is stored on the deck. -/
theorem Alike.lowers (hs : Alike limits stray same s p) {formula : Formula} {t : Term}
    (h : p.interpreter.deck.Lowers formula t) : s.interpreter.deck.Lowers formula t := by
  obtain ⟨pos, constantsOnly, hrun⟩ := h
  obtain ⟨trees, ⟨⟨g, hd, hmap⟩, -⟩, -⟩ := hs
  have hlower : Mirrors (Deck.Alike limits trees stray) (Deck.lowerWith constantsOnly formula)
      (Plain.Deck.lowerWith constantsOnly formula) (Deck.Stored limits trees stray)
      (Deck.Failed limits trees) := Deck.mirrors_lowerWith constantsOnly formula
  have hmirrors := (Deck.mirrors_moveTo pos).bind fun _ _ => hlower
  rcases hmirrors ⟨s.interpreter.deck, #[]⟩ ⟨p.interpreter.deck, #[]⟩ ⟨rfl, g, hd, hmap⟩ with
    ⟨id, term, w, q, ha, hb, tree, rfl, rfl, -, g', hd', -⟩ | ⟨e, d, w, q, ha, hb, -⟩
  · rw [hb] at hrun
    obtain rfl := Except.ok.inj hrun
    exact ⟨pos, constantsOnly, tree.root, w, ha,
      hd'.grove.read (List.mem_append_right _ List.mem_cons_self)⟩
  · rw [hb] at hrun
    cases hrun

/-- A term of the history that refers to a number constant has rightly taken it for a number. -/
theorem tookForNumber_of_traced {config : Config} {history : List Request} {t : Term} {name : Name}
    (h : ((Plain.Session.ofConfig config).traced history).term t)
    (hname : .numberConstant name ∈ t.subterms) :
    (ofConfig config).TookForNumber history t name := by
  rcases h with ⟨v, rfl⟩ | ⟨before, request, rest, hsplit, formula, hformula, hlowers⟩
  · -- what stands for a value refers to nothing
    cases v <;> cases List.mem_singleton.1 hname
  · obtain ⟨_, _, hs, -⟩ := alike_after before (alike_ofConfig config)
    obtain ⟨x, hx⟩ := hlowers.apt.2 name hname
    refine ⟨hname, before, request, rest, hsplit, ⟨formula, hformula, hs.lowers hlowers⟩, x, ?_⟩
    rw [hs.constantValue?_eq, Name.ofText_text]
    exact hx

/-- What a name refers to is what the session answers when it is asked for the variable or for the
length of the element. -/
theorem Alike.answer_of_refers (hs : Alike limits stray same s p) {name : Name} {t u : Term}
    {v : Value} (h : p.interpreter.deck.scope.Refers name u)
    (hmeans : p.interpreter.deck.scope.Means u (some v))
    (hfinishes : p.interpreter.deck.scope.Finishes (p.interpreter.deck.levels t) u) :
    (s.step (.variableValue name.text)).1 = .value (.ok (some v)) ∨
      (s.step (.elementLength name.text)).1 = .value (.ok (some v)) := by
  have hanswer {o : Except Plain.Error (Option Value)} (ho : o = .ok (some v)) :
      Answer.value (o.mapError Plain.Error.fatal) = .value (.ok (some v)) := by
    rw [ho]
    rfl
  refine (Plain.Deck.run_query_of_refers h hmeans hfinishes #[]).imp ?_ ?_
  · exact fun hrun => hs.answer_of_value (hanswer hrun)
  · exact fun hrun => hs.answer_of_value (hanswer hrun)

/-- In every session the stored expressions are apt, so that none holds a text or the name of a text
constant where a number is needed. If the evaluation of one fails for a text, a name is blamed: that
of a constant that is a text now, though an expression to which the evaluation leads has rightly
taken it for a number when it was stored, or that of a variable whose value is a text, or that of an
element whose length is a text. -/
theorem exists_blamed_of_evaluate (config : Config) (requests : List Request) :
    let start := ofConfig config
    let s := start.after requests
    let deck := s.interpreter.deck
    ∃ symbols : Plain.Symbols Term, deck.reading = symbols.map Except.ok ∧
      let scope := symbols.evaluationScope deck.pos deck.limits.evalDepth
      ∀ id ∈ s.roots, ∃ t, deck.forest.read id = .ok t ∧ t.Apt false ∧
        ∀ symbol pos it,
          (Interpreter.evaluate id).run s.interpreter =
              (.error (.textInArithmetic symbol pos), it) →
            ∃ (name : Name) (content : String), symbol = name.text ∧
              ((deck.constantValue? symbol = some (.text content) ∧
                  ∃ other ∈ s.roots, ∃ u, deck.forest.read other = .ok u ∧
                    Relation.ReflTransGen scope.Leads t u ∧
                    start.TookForNumber (start.unrolled requests) u name) ∨
                (s.step (.variableValue symbol)).1 = .value (.ok (some (.text content))) ∨
                (s.step (.elementLength symbol)).1 = .value (.ok (some (.text content)))) := by
  intro start s deck
  let history := start.unrolled requests
  let p := (Plain.Session.ofConfig config).after history
  have hsession : start.after history = s := after_unrolled start requests
  obtain ⟨stray, same, hs, -⟩ := alike_after history (alike_ofConfig config)
  change Alike config.limits stray same (start.after history) p at hs
  rw [hsession] at hs
  have hp : p.Obeys ((Plain.Session.ofConfig config).traced history) :=
    Plain.Session.obeys_traced config history fun request h => (isSingle_of_mem_unrolled h).1
  refine ⟨p.interpreter.deck.symbols, hs.reading_eq, ?_⟩
  intro scope id hid
  have hscope : scope = p.interpreter.deck.scope := hs.scope_eq
  obtain ⟨t, ht, hread⟩ := hs.exists_read hid
  have hapt {u : Term} (hu : u ∈ p.interpreter.deck.symbols.exprs ++ p.issued) : u.Apt false :=
    Plain.Session.apt_of_traced (hp.term_of_mem hu)
  refine ⟨t, hread, hapt ht, fun symbol pos it hrun => ?_⟩
  -- the plain evaluation fails as well, and blames a name
  obtain ⟨t', -, hread', hplain⟩ := hs.exists_run_evaluate hid hrun
  obtain rfl : t' = t := Except.ok.inj (hread'.symm.trans hread)
  obtain ⟨name, rfl, hblamed⟩ := Plain.Deck.exists_blamed_of_run_evaluate
    (fun u hu => hapt (List.mem_append_left _ hu)) (hapt ht) hplain
  cases hblamed with
  | constant content htext hreached =>
    obtain ⟨root, hroot, hleads, hmem⟩ := Plain.Deck.exists_root_of_reached hreached
    have hroot : root ∈ p.interpreter.deck.symbols.exprs ++ p.issued := by
      rcases hroot with rfl | hroot
      · exact ht
      · exact List.mem_append_left _ hroot
    obtain ⟨other, hother, hread''⟩ := hs.exists_root hroot
    refine ⟨name, content, rfl, .inl ⟨?_, other, hother, root, hread'', hscope ▸ hleads, ?_⟩⟩
    · rw [hs.constantValue?_eq, Name.ofText_text]
      exact htext
    · exact tookForNumber_of_traced (hp.term_of_mem hroot) hmem
  | reference hrefers hmeans hfinishes =>
    exact ⟨name, _, rfl, .inr (hs.answer_of_refers hrefers hmeans hfinishes)⟩

/-- A constant is defined anew as a text after an attribute was set to it. -/
theorem exists_blamed_of_evaluate_of_redefinition :
    let pos := Position.unread
    let requests : List Request :=
      [.defineConstant "A" (.number 1.0) pos,
        .defineElement "Q" .quadrupole [.assign "K1" (.parens (.name "a"))] pos,
        .defineConstant "A" (.text "s") pos]
    let start := ofConfig {}
    let s := start.after requests
    let deck := s.interpreter.deck
    ∃ symbols : Plain.Symbols Term, deck.reading = symbols.map Except.ok ∧
      let scope := symbols.evaluationScope deck.pos deck.limits.evalDepth
      ∃ id ∈ s.roots, ∃ t it, deck.forest.read id = .ok t ∧
        (Interpreter.evaluate id).run s.interpreter = (.error (.textInArithmetic "A" pos), it) ∧
        ∃ (name : Name) (content : String), "A" = name.text ∧
          ((deck.constantValue? "A" = some (.text content) ∧
              ∃ other ∈ s.roots, ∃ u, deck.forest.read other = .ok u ∧
                Relation.ReflTransGen scope.Leads t u ∧
                start.TookForNumber (start.unrolled requests) u name) ∨
            (s.step (.variableValue "A")).1 = .value (.ok (some (.text content))) ∨
            (s.step (.elementLength "A")).1 = .value (.ok (some (.text content)))) := by
  intro pos requests
  obtain ⟨symbols, hreading, hroots⟩ := exists_blamed_of_evaluate {} requests
  -- the attribute is the third root
  let id : NodeId := ⟨3, 0⟩
  have hid : id ∈ ((ofConfig {}).after requests).roots := by decide +kernel
  let refused (outcome : Except FatalError Value) : Bool := match outcome with
    | .error e => e = .textInArithmetic "A" pos
    | .ok _ => false
  have hrefused : refused ((Interpreter.evaluate id).run
      ((ofConfig {}).after requests).interpreter).1 = true := by decide +kernel
  obtain ⟨t, hread, -, hblamed⟩ := hroots id hid
  rcases hrun : (Interpreter.evaluate id).run ((ofConfig {}).after requests).interpreter with
    ⟨e | v, it⟩
  · rw [hrun] at hrefused
    obtain rfl : e = .textInArithmetic "A" pos := of_decide_eq_true hrefused
    exact ⟨symbols, hreading, id, hid, t, it, hread, hrun, hblamed "A" pos it hrun⟩
  · rw [hrun] at hrefused
    cases hrefused

end Session

end Beamline
