import Beamline.Proofs.Clause
import Beamline.Proofs.Plain.Deferral
import Beamline.Proofs.Plain.Immediate

/-!
# What a clause does to a plain deck

A clause changes the record of the symbol that it defines and no other. A definition of a constant,
of an immediate variable or of a line stores what its formula or body comes to on the deck as it was
before; one that fails or is refused leaves all records as they are, save that an element of its
name is gone.

* `Deck.Effect`: all that a clause can do.
* `Deck.affects_perform`: nothing else is done.
* `Deck.Effect.apart_eq`, `Deck.Effect.find?_eq`: which records stay as they are.
-/

namespace Beamline.Plain

open Source (Position)
open Beamline.Expr (Formula Term)

variable {ε δ : Type}

/-! ## Records by their symbols -/

namespace Table

variable {ρ : Type} [Named ρ] {name : Name}

/-- The record that is stored is struck out with its name. -/
theorem without_insert (record : ρ) (t : Table ρ) :
    (t.insert record).without (Named.name record) = t.without (Named.name record) := by
  rw [insert, without, List.filter_cons_of_neg (by simp), ← without]
  exact without_without _ t

/-- Striking out a name leaves the records of others. -/
theorem get?_without_of_ne (t : Table ρ) {other : Name} (h : name ≠ other) :
    (t.without name).get? other = t.get? other := by
  rw [get?_without, if_neg h.symm]

theorem get?_insert_self (record : ρ) (t : Table ρ) :
    (t.insert record).get? (Named.name record) = some record := by
  rw [get?_insert, if_pos rfl]

end Table

/-- A record of any of the four namespaces. -/
inductive AnyRecord (ε : Type) where
  /-- A constant. -/
  | constant (record : Constant ε)
  /-- A variable. -/
  | variable (record : Variable ε)
  /-- An element. -/
  | element (record : Element ε)
  /-- A line. -/
  | line (record : Line)

/-- The symbol that the record belongs to. -/
def AnyRecord.symbol : AnyRecord ε → Symbol
  | .constant record => .constant record.name
  | .variable record => .variable record.name
  | .element record => .element record.name
  | .line record => .line record.name

namespace Symbols

variable {symbols after : Symbols ε} {symbol : Symbol} {other : Option Symbol}

/-- The record of a symbol. -/
def find? (symbols : Symbols ε) : Symbol → Option (AnyRecord ε)
  | .constant name => (symbols.consts.get? name).map .constant
  | .variable name => (symbols.vars.get? name).map .variable
  | .element name => (symbols.elements.get? name).map .element
  | .line name => (symbols.lines.get? name).map .line

/-- The symbols with a record in place of the one that belongs to the same symbol. -/
def insert (symbols : Symbols ε) : AnyRecord ε → Symbols ε
  | .constant record => { symbols with consts := symbols.consts.insert record }
  | .variable record => { symbols with vars := symbols.vars.insert record }
  | .element record => { symbols with elements := symbols.elements.insert record }
  | .line record => { symbols with lines := symbols.lines.insert record }

/-- The symbols without the record of one symbol, if one is given. -/
def apart (other : Option Symbol) (symbols : Symbols ε) : Symbols ε :=
  match other with
  | none => symbols
  | some (.constant name) => { symbols with consts := symbols.consts.without name }
  | some (.variable name) => { symbols with vars := symbols.vars.without name }
  | some (.element name) => { symbols with elements := symbols.elements.without name }
  | some (.line name) => { symbols with lines := symbols.lines.without name }

theorem apart_apart : (symbols.apart other).apart other = symbols.apart other := by
  unfold apart
  split <;> simp only [Table.without_without]

theorem apart_insert (record : AnyRecord ε) :
    (symbols.insert record).apart (some record.symbol) = symbols.apart (some record.symbol) := by
  cases record with
  | constant record =>
    exact congrArg (fun consts => { symbols with consts }) (Table.without_insert record _)
  | «variable» record =>
    exact congrArg (fun vars => { symbols with vars }) (Table.without_insert record _)
  | element record =>
    exact congrArg (fun elements => { symbols with elements }) (Table.without_insert record _)
  | line record =>
    exact congrArg (fun lines => { symbols with lines }) (Table.without_insert record _)

theorem find?_insert_self (record : AnyRecord ε) :
    (symbols.insert record).find? record.symbol = some record := by
  cases record with
  | constant record => exact congrArg (Option.map _) (Table.get?_insert_self record _)
  | «variable» record => exact congrArg (Option.map _) (Table.get?_insert_self record _)
  | element record => exact congrArg (Option.map _) (Table.get?_insert_self record _)
  | line record => exact congrArg (Option.map _) (Table.get?_insert_self record _)

/-- The record of another symbol is still there. -/
theorem find?_apart (h : other ≠ some symbol) :
    (symbols.apart other).find? symbol = symbols.find? symbol := by
  cases other with
  | none => rfl
  | some other =>
    -- a symbol of another namespace is in a table that stays as it is
    cases other <;> cases symbol <;> try rfl
    all_goals
      unfold apart find?
      dsimp only
      rw [Table.get?_without_of_ne _ fun heq => h (by rw [heq])]

/-- Symbols that are the same apart from one have the same record of every other. -/
theorem find?_eq_of_apart (h : other ≠ some symbol)
    (hapart : after.apart other = symbols.apart other) :
    after.find? symbol = symbols.find? symbol := by
  rw [← find?_apart h, hapart, find?_apart h]

end Symbols

namespace Deck

/-! ## Effects -/

/-- What a formula comes to on the deck. With `constantsOnly`, identifiers other than constants
count for nothing. -/
def valueOf (d : Deck Term) (constantsOnly : Bool) (formula : Formula) : Except Error Value :=
  ((lowerWith constantsOnly formula >>= evaluate).run ⟨d, #[]⟩).1

/-- What the body of a line comes to on the deck. -/
def entriesOf (d : Deck Term) (body : Line.Body) : Except Error (List Line.Entry) :=
  ((layout body).run ⟨d, #[]⟩).1

/-- A constant and a variable cannot share a name: the definition that comes second is refused. -/
def refuses (d : Deck Term) : Clause → Bool
  | .constant raw _ => d.symbols.vars.contains (Name.ofText raw)
  | .variable raw _ _ => d.symbols.consts.contains (Name.ofText raw)
  | _ => false

/-- On the deck the clause defines the record. -/
inductive Defines (d : Deck Term) : Clause → AnyRecord Term → Prop where
  /-- A constant has the value of its formula. -/
  | constant {raw : String} {formula : Formula} {v : Value} (source : Term)
      (h : d.valueOf true formula = .ok v) :
      Defines d (.constant raw formula) (.constant ⟨Name.ofText raw, v, source, d.pos⟩)
  /-- An immediate variable has the value of its formula. -/
  | immediate {raw : String} {formula : Formula} {v : Value}
      (h : d.valueOf false formula = .ok v) :
      Defines d (.variable raw formula .immediate) (.variable ⟨Name.ofText raw, .ofValue v, d.pos⟩)
  /-- A deferred variable has some term. -/
  | deferred {raw : String} {formula : Formula} (expr : Term) :
      Defines d (.variable raw formula .deferred) (.variable ⟨Name.ofText raw, expr, d.pos⟩)
  /-- An element has the name that the clause gives it. -/
  | element {raw : String} {kind : Element.Kind} {items : List Element.Item} {e : Element Term}
      (h : e.name = Name.ofText raw) : Defines d (.element raw kind items) (.element e)
  /-- A line has the entries of its body. -/
  | line {raw : String} {body : Line.Body} {entries : List Line.Entry}
      (h : d.entriesOf body = .ok entries) :
      Defines d (.line raw body) (.line ⟨Name.ofText raw, entries, d.pos⟩)

variable {d : Deck Term} {clause : Clause} {record : AnyRecord Term}

theorem Defines.symbol_eq (h : d.Defines clause record) : clause.symbol? = some record.symbol := by
  cases h with
  | element h => exact congrArg (fun name => some (Symbol.element name)) h.symm
  | _ => rfl

theorem Defines.exists_constant {c : Constant Term} (h : d.Defines clause (.constant c)) :
    ∃ raw formula, clause = .constant raw formula ∧ d.valueOf true formula = .ok c.value := by
  generalize heq : AnyRecord.constant c = record at h
  cases h with
  | constant source hvalue =>
    obtain rfl := AnyRecord.constant.inj heq
    exact ⟨_, _, rfl, hvalue⟩
  | _ => cases heq

theorem Defines.exists_variable {c : Variable Term} (h : d.Defines clause (.variable c)) :
    ∃ raw formula binding, clause = .variable raw formula binding ∧
      (binding = .immediate → ∃ v, d.valueOf false formula = .ok v ∧ c.expr = .ofValue v) := by
  generalize heq : AnyRecord.variable c = record at h
  cases h with
  | immediate hvalue =>
    obtain rfl := AnyRecord.variable.inj heq
    exact ⟨_, _, _, rfl, fun _ => ⟨_, hvalue, rfl⟩⟩
  | deferred expr => exact ⟨_, _, _, rfl, nofun⟩
  | _ => cases heq

theorem Defines.exists_line {c : Line} (h : d.Defines clause (.line c)) :
    ∃ raw body, clause = .line raw body ∧ d.entriesOf body = .ok c.entries := by
  generalize heq : AnyRecord.line c = record at h
  cases h with
  | line hentries =>
    obtain rfl := AnyRecord.line.inj heq
    exact ⟨_, _, rfl, hentries⟩
  | _ => cases heq

/-- What a clause can come to, and the symbols that it leaves. -/
inductive Effect (d : Deck Term) : Clause → Except Error Unit → Symbols Term → Prop where
  /-- All records stay as they are if the clause fails, is refused or defines no symbol. -/
  | kept {clause : Clause} {outcome : Except Error Unit}
      (h : outcome = .ok () → d.refuses clause = true ∨ clause.symbol? = none) :
      Effect d clause outcome d.symbols
  /-- A definition of an element that fails has removed the element of its name. -/
  | lost {raw : String} {kind : Element.Kind} {items : List Element.Item} (e : Error) :
      Effect d (.element raw kind items) (.error e)
        (d.symbols.apart (some (.element (Name.ofText raw))))
  /-- A definition that is accepted stores the record. -/
  | stored {clause : Clause} {record : AnyRecord Term} (hfree : d.refuses clause = false)
      (h : d.Defines clause record) : Effect d clause (.ok ()) (d.symbols.insert record)

variable {outcome : Except Error Unit} {after : Symbols Term} {symbol : Symbol}

/-- All records stay as they are but that of the symbol that the clause defines. -/
theorem Effect.apart_eq (h : d.Effect clause outcome after) :
    after.apart clause.symbol? = d.symbols.apart clause.symbol? := by
  cases h with
  | kept => rfl
  | lost => exact Symbols.apart_apart
  | stored _ h =>
    rw [h.symbol_eq]
    exact Symbols.apart_insert _

/-- A constant, a variable or a line stays as it is unless a definition of it is accepted. -/
theorem Effect.find?_eq (h : d.Effect clause outcome after)
    (hsymbol : ∀ name, symbol ≠ .element name)
    (hnot : ¬(outcome = .ok () ∧ d.refuses clause = false ∧ clause.symbol? = some symbol)) :
    after.find? symbol = d.symbols.find? symbol := by
  cases h with
  | kept => rfl
  -- what is lost is an element, and the symbol is none
  | lost => exact Symbols.find?_apart fun heq => hsymbol _ (Option.some.inj heq).symm
  | stored hfree h =>
    refine Symbols.find?_eq_of_apart (fun heq => hnot ⟨rfl, hfree, heq⟩) ?_
    rw [h.symbol_eq]
    exact Symbols.apart_insert _

/-- A definition that is accepted is found. -/
theorem Effect.exists_find? (h : d.Effect clause (.ok ()) after) (hfree : d.refuses clause = false)
    (hsymbol : clause.symbol? = some symbol) :
    ∃ record, d.Defines clause record ∧ after.find? symbol = some record := by
  cases h with
  | kept h =>
    -- the clause was neither refused nor without a symbol
    rcases h rfl with hrefuses | hnone
    · rw [hfree] at hrefuses
      cases hrefuses
    · rw [hsymbol] at hnone
      cases hnone
  | stored _ h =>
    obtain rfl : symbol = _ := Option.some.inj (hsymbol.symm.trans h.symbol_eq)
    exact ⟨_, h, Symbols.find?_insert_self _⟩

/-! ## Definitions -/

/-- What a clause does to the records of the deck. -/
def Affects (d : Deck Term) (clause : Clause) (a : Action Unit) : Prop :=
  d.Effect clause (a.run ⟨d, #[]⟩).1 (a.run ⟨d, #[]⟩).2.deck.symbols

/-- An action that fails, is refused or defines nothing, with the records as they were. -/
theorem affects_of_kept {a : Action Unit} {w : Work}
    (hrun : a.run ⟨d, #[]⟩ = (outcome, w)) (hsymbols : w.deck.symbols = d.symbols)
    (h : outcome = .ok () → d.refuses clause = true ∨ clause.symbol? = none) :
    d.Affects clause a := by
  unfold Affects
  rw [hrun]
  dsimp only
  rw [hsymbols]
  exact .kept h

/-- An action that stores the record that the clause defines. -/
theorem affects_of_stored {a : Action Unit} {w : Work}
    (hrun : a.run ⟨d, #[]⟩ = (.ok (), w)) (hsymbols : w.deck.symbols = d.symbols.insert record)
    (hfree : d.refuses clause = false) (h : d.Defines clause record) : d.Affects clause a := by
  unfold Affects
  rw [hrun]
  dsimp only
  rw [hsymbols]
  exact .stored hfree h

/-- A formula is lowered and evaluated before anything is stored: the action fails on the way, with
the deck as it was, or goes on with the value that the formula has on the deck. -/
theorem run_lower_evaluate (d : Deck Term) (constantsOnly : Bool) (formula : Formula)
    (next : Term → Value → Action Unit) :
    let a : Action Unit := do
      let t ← lowerWith constantsOnly formula
      let v ← evaluate t
      next t v
    (∃ e w, a.run ⟨d, #[]⟩ = (.error e, w) ∧ w.deck = d) ∨
      ∃ t v w, d.valueOf constantsOnly formula = .ok v ∧ w.deck = d ∧
        a.run ⟨d, #[]⟩ = (next t v).run w := by
  intro a
  rcases hlower : (lowerWith constantsOnly formula).run ⟨d, #[]⟩ with ⟨e | t, w⟩
  · exact .inl ⟨e, w, run_bind_of_error hlower _, congrArg (fun run => run.2.deck) hlower.symm⟩
  have hdeck : w.deck = d := congrArg (fun run => run.2.deck) hlower.symm
  have hrun : a.run ⟨d, #[]⟩ = (evaluate t >>= next t).run w := run_bind_of_ok hlower _
  have hvalue : d.valueOf constantsOnly formula = ((evaluate t).run w).1 := by
    rw [valueOf, run_bind_of_ok hlower]
  rcases heval : (evaluate t).run w with ⟨e | v, w'⟩
  · have hdeck' : w'.deck = w.deck := congrArg (fun run => run.2.deck) heval.symm
    exact .inl ⟨e, w', hrun.trans (run_bind_of_error heval _), hdeck'.trans hdeck⟩
  · have hdeck' : w'.deck = w.deck := congrArg (fun run => run.2.deck) heval.symm
    refine .inr ⟨t, v, w', ?_, hdeck'.trans hdeck, hrun.trans (run_bind_of_ok heval _)⟩
    rw [hvalue, heval]

theorem affects_defineConstant (d : Deck Term) (raw : String) (formula : Formula) :
    d.Affects (.constant raw formula) (defineConstant raw formula) := by
  let store (source : Term) (value : Value) : Action Unit := do
    let deck ← current
    if deck.symbols.consts.contains (Name.ofText raw) then
      raise (.constantRedefined (Name.ofText raw))
    insertConstant { name := Name.ofText raw, value, source, pos := deck.pos }
  have hrun : (defineConstant raw formula).run ⟨d, #[]⟩ =
      (if d.symbols.vars.contains (Name.ofText raw) = true then
          raise (.constantIsVariable (Name.ofText raw))
        else do
          let source ← lowerWith true formula
          let value ← evaluate source
          store source value : Action Unit).run ⟨d, #[]⟩ := rfl
  cases hvar : d.symbols.vars.contains (Name.ofText raw) with
  | true =>
    rw [hvar, if_pos rfl] at hrun
    exact affects_of_kept hrun rfl fun _ => .inl hvar
  | false =>
    rw [hvar, if_neg nofun] at hrun
    rcases run_lower_evaluate d true formula store with
      ⟨e, w, herror, rfl⟩ | ⟨t, v, w, hvalue, rfl, hstore⟩
    · exact affects_of_kept (hrun.trans herror) rfl nofun
    · rw [hstore] at hrun
      -- with a warning or without, the constant is stored
      let record : Constant Term := ⟨Name.ofText raw, v, t, w.deck.pos⟩
      have hstored : ∃ raised, (store t v).run w = (.ok (),
          ⟨{ w.deck with symbols := w.deck.symbols.insert (.constant record) }, raised⟩) := by
        have hif : (store t v).run w =
            (if w.deck.symbols.consts.contains (Name.ofText raw) = true then
                raise (.constantRedefined (Name.ofText raw)) >>= fun _ => insertConstant record
              else insertConstant record : Action Unit).run w := rfl
        rw [hif]
        split
        · exact ⟨_, rfl⟩
        · exact ⟨_, rfl⟩
      obtain ⟨raised, hstored⟩ := hstored
      exact affects_of_stored (hrun.trans hstored) rfl hvar (.constant t hvalue)

theorem affects_defineVariable (d : Deck Term) (raw : String) (formula : Formula)
    (binding : Binding) :
    d.Affects (.variable raw formula binding) (defineVariable raw formula binding) := by
  cases hconst : d.symbols.consts.contains (Name.ofText raw) with
  | true =>
    have hrun := run_defineVariable_ite raw formula binding ⟨d, #[]⟩
    rw [hconst, if_pos rfl] at hrun
    exact affects_of_kept hrun rfl fun _ => .inl hconst
  | false =>
    have hrun := @run_defineVariable_of_not_constant raw formula ⟨d, #[]⟩ hconst binding
    cases binding with
    | deferred =>
      rcases hlower : (lower formula).run ⟨d, #[]⟩ with ⟨e | t, w⟩
      · have hdeck : w.deck = d := deck_of_run_lower hlower
        exact affects_of_kept (run_defineVariable_of_lower_error hconst hlower _)
          (congrArg Deck.symbols hdeck) nofun
      · obtain rfl : w.deck = d := deck_of_run_lower hlower
        exact affects_of_stored (run_defineVariable_deferred hconst hlower) rfl hconst (.deferred t)
    | immediate =>
      -- the value is turned into its term only when the variable is stored
      simp only [bind_map_left] at hrun
      let store (_ : Term) (value : Value) : Action Unit := do
        insertVariable { name := Name.ofText raw, expr := .ofValue value, pos := (← current).pos }
      rcases run_lower_evaluate d false formula store with
        ⟨e, w, herror, rfl⟩ | ⟨t, v, w, hvalue, rfl, hstore⟩
      · exact affects_of_kept (hrun.trans herror) rfl nofun
      · exact affects_of_stored (hrun.trans hstore) rfl hconst (.immediate hvalue)

theorem affects_defineElement (d : Deck Term) (raw : String) (kind : Element.Kind)
    (items : List Element.Item) :
    d.Affects (.element raw kind items) (defineElement raw kind items) := by
  have hdetermined : Determined (fun name => (d.symbols.consts.get? name).map Constant.value) d.pos
      (items.foldlM enterItem (Element.blank (Name.ofText raw) kind d.pos))
      fun e => e.name = Name.ofText raw :=
    .of_enterItems (Element.blank (Name.ofText raw) kind d.pos) items
  obtain ⟨outcome, hname, hitems⟩ := hdetermined
  obtain ⟨raised, hrun⟩ := run_defineElement raw kind items ⟨d, #[]⟩
  obtain ⟨raised', hitems⟩ := hitems ⟨{ d with symbols := { d.symbols with
    elements := d.symbols.elements.without (Name.ofText raw) } }, raised⟩ ⟨fun _ => rfl, rfl⟩
  unfold Affects
  cases outcome with
  | error e =>
    rw [hrun, run_bind_of_error hitems]
    exact .lost e
  | ok element =>
    have hname : element.name = Name.ofText raw := hname element rfl
    -- the element of that name was removed before, so that there is none to replace
    have hinsert : (d.symbols.elements.without (Name.ofText raw)).insert element =
        d.symbols.elements.insert element := by
      rw [← hname]
      exact Table.insert_without element d.symbols.elements
    refine affects_of_stored (hrun.trans (run_bind_of_ok hitems _)) ?_ rfl (.element hname)
    exact congrArg (fun elements => { d.symbols with elements }) hinsert

theorem affects_defineLine (d : Deck Term) (raw : String) (body : Line.Body) :
    d.Affects (.line raw body) (defineLine raw body) := by
  rcases hlayout : (layout body).run ⟨d, #[]⟩ with ⟨e | entries, w⟩
  · have hdeck : w.deck = d := congrArg (fun run => run.2.deck) hlayout.symm
    exact affects_of_kept (run_bind_of_error hlayout _) (congrArg Deck.symbols hdeck) nofun
  obtain rfl : w.deck = d := congrArg (fun run => run.2.deck) hlayout.symm
  let record : Line := ⟨Name.ofText raw, entries, w.deck.pos⟩
  have hstored : ∃ raised, (defineLine raw body).run ⟨w.deck, #[]⟩ = (.ok (),
      ⟨{ w.deck with symbols := w.deck.symbols.insert (.line record) }, raised⟩) := by
    let rest : Action Unit := do
      insertLine { name := Name.ofText raw, entries, pos := (← current).pos }
    let removed : Work := ⟨{ w.deck with symbols := { w.deck.symbols with
      lines := w.deck.symbols.lines.without (Name.ofText raw) } }, w.raised⟩
    have hdefine : (defineLine raw body).run ⟨w.deck, #[]⟩ =
        (removeLine (Name.ofText raw) >>= fun isDefined =>
          if isDefined = true then raise (.lineRedefined (Name.ofText raw)) >>= fun _ => rest
          else rest : Action Unit).run w := run_bind_of_ok hlayout _
    have hremove : (removeLine (Name.ofText raw)).run w =
        (.ok (w.deck.symbols.lines.contains (Name.ofText raw)), removed) := rfl
    -- the line of that name was removed before, so that there is none to replace
    have hinsert := Table.insert_without record w.deck.symbols.lines
    rw [hdefine, run_bind_of_ok hremove]
    unfold Symbols.insert
    dsimp only
    rw [← hinsert]
    split
    · exact ⟨_, rfl⟩
    · exact ⟨_, rfl⟩
  obtain ⟨raised, hstored⟩ := hstored
  refine affects_of_stored hstored rfl rfl (.line ?_)
  exact congrArg Prod.fst hlayout

theorem symbols_of_run_endComment (w : Work) :
    (endComment.run w).2.deck.symbols = w.deck.symbols := by
  have hcurrent : (current : Action (Deck Term)).run w = (.ok w.deck, w) := rfl
  rw [endComment, run_bind_of_ok hcurrent]
  cases w.deck.commentary.finish with
  | ok commentary => rfl
  | error e => rfl

/-- Whatever a clause says, it affects at most the record of the symbol that it defines. -/
theorem affects_perform (d : Deck Term) (clause : Clause) : d.Affects clause (perform clause) := by
  cases clause with
  | constant raw formula => exact affects_defineConstant d raw formula
  | «variable» raw formula binding => exact affects_defineVariable d raw formula binding
  | element raw kind items => exact affects_defineElement d raw kind items
  | line raw body => exact affects_defineLine d raw body
  | beginComment => exact .kept fun _ => .inr rfl
  | endComment => exact affects_of_kept rfl (symbols_of_run_endComment _) fun _ => .inr rfl
  | comment text atEnd => exact .kept fun _ => .inr rfl
  | pragma keyword text => exact .kept fun _ => .inr rfl

end Deck

end Beamline.Plain
