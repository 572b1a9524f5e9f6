import Beamline.Proofs.Plain.Order

/-!
# Definitions that are not evaluated

The definition of an element, and that of a variable that is bound to its expression and not to a
value, only lower formulas. How a formula is lowered depends on the constants and on nothing else:
which variables and elements there are decides about warnings, but not about terms. So what such a
definition stores, and whether it fails, is settled by the constants, and definitions of different
names can be made in any order.

* `Deck.Determined`: actions that look at nothing but the constants.
* `Deferral.exists_makes`: what a definition stores depends on the constants.
* `Made.foldl_store_perm`: records of different names can be stored in any order.
-/

namespace Beamline

open Source (Position)
open Diagnostic (Condition)
open Beamline.Expr (Formula Term)

/-- A definition whose formulas are stored without being evaluated. -/
inductive Deferral where
  /-- A variable that is bound to its expression. -/
  | variable (raw : String) (formula : Formula) (pos : Position)
  /-- An element. -/
  | element (raw : String) (kind : Element.Kind) (items : List Element.Item) (pos : Position)

namespace Deferral

/-- The position of a definition. -/
def pos : Deferral → Position
  | .variable _ _ pos | .element _ _ _ pos => pos

/-- The statement that makes the definition. -/
def statement : Deferral → Statement
  | .variable raw formula pos => { clause := .variable raw formula .deferred, pos }
  | .element raw kind items pos => { clause := .element raw kind items, pos }

/-- What is defined: a variable on the left, an element on the right. -/
def key : Deferral → Name ⊕ Name
  | .variable raw _ _ => .inl (Name.ofText raw)
  | .element raw _ _ _ => .inr (Name.ofText raw)

end Deferral

namespace Plain

/-! ## Lowering looks at constants only -/

namespace LoweringScope

/-- Both scopes have the same constants, and the same position for errors. -/
structure SameConstants (scope other : LoweringScope) : Prop where
  /-- The constants are the same. -/
  constant? : scope.constant? = other.constant?
  /-- The positions are the same. -/
  pos : scope.pos = other.pos
  /-- Both scopes have variables or neither has. -/
  constantsOnly : scope.constantsOnly = other.constantsOnly

variable {scope other : LoweringScope} {α β : Type}

/-- Both steps come to the same result or the same error, whatever was raised before. -/
def SameOutcome (a b : Step α) : Prop :=
  ∀ raised raised', (a.run raised).1 = (b.run raised').1

theorem SameOutcome.bind {a b : Step α} {f g : α → Step β} (h : SameOutcome a b)
    (hf : ∀ x, SameOutcome (f x) (g x)) : SameOutcome (a >>= f) (b >>= g) := by
  intro raised raised'
  have hfirst := h raised raised'
  rcases ha : a.run raised with ⟨outcome, r⟩
  rcases hb : b.run raised' with ⟨outcome', r'⟩
  rw [ha, hb] at hfirst
  obtain rfl : outcome = outcome' := hfirst
  cases outcome with
  | error e => rw [run_bind_of_error ha, run_bind_of_error hb]
  | ok x =>
    rw [run_bind_of_ok ha, run_bind_of_ok hb]
    exact hf x r r'

theorem SameOutcome.of_pure (x : α) : SameOutcome (pure x) (pure x) :=
  fun _ _ => rfl

/-- Names that are unknown to one side only make no difference but for warnings. -/
theorem SameOutcome.of_unless_report (c d : Bool) (condition condition' : Condition)
    (pos pos' : Position) (x : α) :
    SameOutcome
      (do unless c do report condition pos
          return x)
      (do unless d do report condition' pos'
          return x) := by
  intro raised raised'
  cases c <;> cases d <;> rfl

/-- With the same constants a formula is lowered to the same term, or refused with the same
error. -/
theorem SameConstants.sameOutcome_lower (h : scope.SameConstants other) (formula : Formula)
    (operand : Bool) :
    SameOutcome (scope.lower formula operand) (other.lower formula operand) := by
  induction formula generalizing operand with
  | number x => exact .of_pure (Term.number x)
  | text content =>
    cases operand with
    | false => exact .of_pure (Term.text content)
    | true =>
      rw [lower, lower, h.pos]
      exact fun _ _ => rfl
  | name raw =>
    rw [lower, lower, classify, classify, h.constant?, h.pos, h.constantsOnly]
    cases other.constant? (Name.ofText raw) with
    | some value =>
      -- the constant decides, be it a number or a text
      dsimp only
      split
      · exact .of_pure _
      · split
        · exact fun _ _ => rfl
        · exact .of_pure _
    | none =>
      -- without a constant the name becomes a variable, known or not
      dsimp only
      split
      · exact fun _ _ => rfl
      · exact .of_unless_report _ _ _ _ _ _ _
  | lengthOf raw =>
    rw [lower, lower]
    exact .of_unless_report _ _ _ _ _ _ _
  | parens inner ih => exact (ih operand).bind fun t => .of_pure _
  | signed sign inner ih => exact (ih true).bind fun t => .of_pure _
  | binary op left right ihl ihr =>
    exact (ihl true).bind fun t => (ihr true).bind fun u => .of_pure _
  | call f argument ih => exact (ih true).bind fun t => .of_pure _

end LoweringScope

/-! ## Actions that look at constants only -/

namespace Deck

variable {α β : Type} {constant? : Name → Option Value} {pos : Position}

/-- The deck has the given constants and is at the given position. -/
structure Sees (constant? : Name → Option Value) (pos : Position) (deck : Deck Term) : Prop where
  /-- The constants are those given. -/
  constant_eq : ∀ name, (deck.symbols.consts.get? name).map Constant.value = constant? name
  /-- The position is the given one. -/
  pos_eq : deck.pos = pos

/-- On all decks with the given constants the action comes to the same outcome, and to what is
asked of its results, and it leaves the deck as it is. -/
def Determined (constant? : Name → Option Value) (pos : Position) (a : Action α) (Q : α → Prop) :
    Prop :=
  ∃ outcome : Except Error α, (∀ x, outcome = .ok x → Q x) ∧
    ∀ w : Work, w.deck.Sees constant? pos → ∃ raised, a.run w = (outcome, { w with raised })

namespace Determined

theorem of_pure {x : α} {Q : α → Prop} (hx : Q x) :
    Determined constant? pos (pure x : Action α) Q :=
  ⟨.ok x, fun _ hy => Except.ok.inj hy ▸ hx, fun w _ => ⟨w.raised, rfl⟩⟩

theorem of_raise (condition : Condition) :
    Determined constant? pos (Deck.raise condition) fun _ => True :=
  ⟨.ok (), fun _ _ => trivial, fun _ _ => ⟨_, rfl⟩⟩

theorem bind {a : Action α} {f : α → Action β} {R : α → Prop} {Q : β → Prop}
    (h : Determined constant? pos a R) (hf : ∀ x, R x → Determined constant? pos (f x) Q) :
    Determined constant? pos (a >>= f) Q := by
  obtain ⟨outcome, hresult, hrun⟩ := h
  cases outcome with
  | error e =>
    refine ⟨.error e, nofun, fun w hw => ?_⟩
    obtain ⟨raised, ha⟩ := hrun w hw
    exact ⟨raised, run_bind_of_error ha f⟩
  | ok x =>
    obtain ⟨outcome', hresult', hrun'⟩ := hf x (hresult x rfl)
    refine ⟨outcome', hresult', fun w hw => ?_⟩
    obtain ⟨raised, ha⟩ := hrun w hw
    obtain ⟨raised', hb⟩ := hrun' { w with raised } hw
    exact ⟨raised', (run_bind_of_ok ha f).trans hb⟩

/-- Lowering is settled by the constants. -/
theorem of_lower (formula : Formula) :
    Determined constant? pos (lower formula) fun _ => True := by
  -- any scope with the constants and the position does, also one without other symbols
  let scope : LoweringScope :=
    { constant?, isVariable := fun _ => false, isElement := fun _ => false, pos,
      constantsOnly := false }
  refine ⟨((scope.lower formula false).run #[]).1, fun _ _ => trivial, fun w hw => ?_⟩
  let seen := w.deck.symbols.loweringScope w.deck.pos false
  have hsame : seen.SameConstants scope := ⟨funext hw.constant_eq, hw.pos_eq, rfl⟩
  refine ⟨((seen.lower formula false).run w.raised).2, ?_⟩
  rw [lower, lowerWith, run_observe, hsame.sameOutcome_lower formula false w.raised #[]]

/-- A condition is raised, and the element stays as it is. -/
theorem of_refusal (condition : Condition) {element : Element Term} {name : Name}
    (hname : element.name = name) :
    Determined constant? pos (do raise condition; return element) fun e => e.name = name :=
  (of_raise condition).bind fun _ _ => of_pure hname

/-- A formula is lowered and entered into the element. -/
theorem of_entry (formula : Formula) {f : Term → Element Term} {name : Name}
    (hname : ∀ t, (f t).name = name) :
    Determined constant? pos (do return f (← lower formula)) fun e => e.name = name :=
  (of_lower formula).bind fun t _ => of_pure (hname t)

theorem of_entryItem (element : Element Term) (index : Option Beamline.Element.MapIndex)
    (written : String) (value : Formula) :
    Determined constant? pos (entryItem element index written value)
      fun e => e.name = element.name := by
  unfold entryItem
  split
  · exact of_refusal _ rfl
  · split
    · exact of_refusal _ rfl
    · exact of_entry value fun _ => rfl

/-- What an item makes of an element is settled by the constants, and the element keeps its
name. -/
theorem of_enterItem (element : Element Term) (item : Element.Item) :
    Determined constant? pos (enterItem element item) fun e => e.name = element.name := by
  cases item with
  | assign key value =>
    rw [enterItem, assignItem]
    split
    · exact of_pure rfl
    · split
      · exact of_entry value fun _ => rfl
      · exact of_refusal _ rfl
  | flag key =>
    rw [enterItem, flagItem]
    split
    · split
      · exact of_pure rfl
      · exact of_refusal _ rfl
    · exact of_refusal _ rfl
  | label text => exact of_pure rfl
  | rm i j value => exact of_entryItem element _ _ value
  | tm i j k value => exact of_entryItem element _ _ value

theorem of_enterItems (element : Element Term) (items : List Element.Item) :
    Determined constant? pos (items.foldlM enterItem element)
      fun e => e.name = element.name := by
  induction items generalizing element with
  | nil => exact of_pure rfl
  | cons item items ih =>
    rw [List.foldlM_cons]
    refine (of_enterItem element item).bind fun e he => ?_
    rw [← he]
    exact ih e

end Determined

end Deck

/-! ## What definitions store -/

/-- What a definition puts into the tables. -/
inductive Made where
  /-- Nothing: the name is taken. -/
  | nothing
  /-- A variable. -/
  | variable (record : Variable Term)
  /-- An element. -/
  | element (record : Element Term)

namespace Made

/-- The symbols with what was made. -/
def store (symbols : Symbols Term) : Made → Symbols Term
  | .nothing => symbols
  | .variable record => { symbols with vars := symbols.vars.insert record }
  | .element record => { symbols with elements := symbols.elements.insert record }

/-- What was made is a record of the given key, if it is one at all. -/
def Has (key : Name ⊕ Name) : Made → Prop
  | .nothing => True
  | .variable record => key = .inl record.name
  | .element record => key = .inr record.name

variable {m m' : Made} {s s' : Symbols Term}

@[simp]
theorem consts_store : (m.store s).consts = s.consts := by
  cases m <;> rfl

theorem store_congr (h : s.SameUpToOrder s') : (m.store s).SameUpToOrder (m.store s') := by
  cases m with
  | nothing => exact h
  | «variable» record => exact { h with vars := Table.perm_insert record h.vars }
  | element record => exact { h with elements := Table.perm_insert record h.elements }

/-- Records of different keys can be stored in either order. -/
theorem store_comm {key key' : Name ⊕ Name} (hm : m.Has key) (hm' : m'.Has key')
    (hne : key ≠ key') (s : Symbols Term) :
    (m.store (m'.store s)).SameUpToOrder (m'.store (m.store s)) := by
  have hrefl (s : Symbols Term) : s.SameUpToOrder s := .refl s
  -- only two variables or two elements are stored in one table
  cases m with
  | nothing => exact hrefl _
  | «variable» record =>
    cases m' with
    | nothing => exact hrefl _
    | «variable» other =>
      obtain rfl : key = .inl record.name := hm
      obtain rfl : key' = .inl other.name := hm'
      have hnames : Named.name record ≠ Named.name other := fun h => hne (congrArg Sum.inl h)
      exact { hrefl s with vars := Table.insert_comm hnames s.vars }
    | element other => exact hrefl _
  | element record =>
    cases m' with
    | nothing => exact hrefl _
    | «variable» other => exact hrefl _
    | element other =>
      obtain rfl : key = .inr record.name := hm
      obtain rfl : key' = .inr other.name := hm'
      have hnames : Named.name record ≠ Named.name other := fun h => hne (congrArg Sum.inr h)
      exact { hrefl s with elements := Table.insert_comm hnames s.elements }

theorem foldl_store_congr (ms : List Made) (h : s.SameUpToOrder s') :
    (ms.foldl store s).SameUpToOrder (ms.foldl store s') := by
  induction ms generalizing s s' with
  | nil => exact h
  | cons m ms ih => exact ih (store_congr h)

/-- Both are of different keys. -/
def Apart (m m' : Made) : Prop :=
  ∃ key key', m.Has key ∧ m'.Has key' ∧ key ≠ key'

/-- Records of different keys can be stored in any order. -/
theorem foldl_store_perm {ms ms' : List Made} (hperm : ms.Perm ms') (hapart : ms.Pairwise Apart)
    (s : Symbols Term) : (ms.foldl store s).SameUpToOrder (ms'.foldl store s) := by
  induction hperm generalizing s with
  | nil => exact .refl s
  | cons m _ ih => exact ih (List.pairwise_cons.1 hapart).2 (m.store s)
  | swap m m' ms =>
    obtain ⟨key, key', hm, hm', hne⟩ := (List.pairwise_cons.1 hapart).1 m List.mem_cons_self
    exact foldl_store_congr ms (store_comm hm' hm hne.symm s)
  | trans hperm _ ih ih' =>
    -- the list in between is a permutation too, and so its records are apart
    have hsymm {m m' : Made} (h : m.Apart m') : m'.Apart m := by
      obtain ⟨key, key', hm, hm', hne⟩ := h
      exact ⟨key', key, hm', hm, hne.symm⟩
    exact (ih hapart s).trans (ih' (hperm.pairwise hapart hsymm) s)

end Made

/-! ## Definitions -/

namespace Deck

/-- The action stores what was made and moves to the position, or fails if nothing was made. -/
def Stores (a : Action Unit) (pos : Position) (made? : Option Made) (w : Work) : Prop :=
  match made? with
  | some m => ∃ raised,
      a.run w = (.ok (), ⟨{ w.deck with symbols := m.store w.deck.symbols, pos }, raised⟩)
  | none => ∃ e w', a.run w = (.error e, w')

/-- On every deck with the given constants the definition stores what was made, or fails if nothing
was. `active` says that a comment block is open. -/
def Makes (constant? : Name → Option Value) (active : Bool) (d : Deferral)
    (made? : Option Made) : Prop :=
  ∀ w : Work, (∀ name, (w.deck.symbols.consts.get? name).map Constant.value = constant? name) →
    w.deck.commentary.isActive = active → Stores (apply d.statement) d.pos made? w

variable {constant? : Name → Option Value}

/-- A clause that is not about comments is skipped while a comment block is open. -/
theorem run_apply {statement : Statement} (h : statement.clause.isComment = false) (w : Work) :
    (apply statement).run w =
      if w.deck.commentary.isActive then
        (.ok (), { w with deck := { w.deck with pos := statement.pos } })
      else
        (perform statement.clause).run { w with deck := { w.deck with pos := statement.pos } } := by
  have hrun : (apply statement).run w =
      (if (w.deck.commentary.isActive && !statement.clause.isComment) = true then pure ()
        else perform statement.clause : Action Unit).run
          { w with deck := { w.deck with pos := statement.pos } } := rfl
  rw [hrun, h]
  cases w.deck.commentary.isActive <;> rfl

theorem run_defineVariable (raw : String) (formula : Formula) (w : Work) :
    (defineVariable raw formula .deferred).run w =
      (if w.deck.symbols.consts.contains (Name.ofText raw) = true then
          raise (.variableIsConstant (Name.ofText raw))
        else do
          let expr ← lower formula
          insertVariable { name := Name.ofText raw, expr, pos := (← current).pos } :
        Action Unit).run w :=
  rfl

/-- The items are entered into a blank element, after the warning if there was an element of the
name, which is gone by then. -/
theorem run_defineElement_eq (raw : String) (kind : Element.Kind) (items : List Element.Item)
    (w : Work) :
    (defineElement raw kind items).run w =
      (items.foldlM enterItem (Element.blank (Name.ofText raw) kind w.deck.pos) >>=
        insertElement).run
          ⟨{ w.deck with symbols := { w.deck.symbols with
              elements := w.deck.symbols.elements.without (Name.ofText raw) } },
            if w.deck.symbols.elements.contains (Name.ofText raw) then
              w.raised.push ((Condition.elementRedefined (Name.ofText raw)).diagnostic w.deck.pos)
            else w.raised⟩ := by
  let rest : Action Unit := do
    let element ← items.foldlM enterItem (Element.blank (Name.ofText raw) kind (← current).pos)
    insertElement element
  have hdefine : defineElement raw kind items =
      removeElement (Name.ofText raw) >>= fun isDefined =>
        if isDefined = true then raise (.elementRedefined (Name.ofText raw)) >>= fun _ => rest
        else rest := rfl
  have hremove : (removeElement (Name.ofText raw)).run w =
      (.ok (w.deck.symbols.elements.contains (Name.ofText raw)),
        ⟨{ w.deck with symbols := { w.deck.symbols with
            elements := w.deck.symbols.elements.without (Name.ofText raw) } }, w.raised⟩) := rfl
  rw [hdefine, run_bind_of_ok hremove]
  split
  · rfl
  · rfl

/-- Whether a warning is raised or not, the items are entered into a blank element. -/
theorem run_defineElement (raw : String) (kind : Element.Kind) (items : List Element.Item)
    (w : Work) :
    ∃ raised, (defineElement raw kind items).run w =
      (items.foldlM enterItem (Element.blank (Name.ofText raw) kind w.deck.pos) >>=
        insertElement).run
          ⟨{ w.deck with symbols := { w.deck.symbols with
              elements := w.deck.symbols.elements.without (Name.ofText raw) } }, raised⟩ :=
  ⟨_, run_defineElement_eq raw kind items w⟩

/-- A variable stores its term, unless the name is that of a constant. -/
theorem exists_made_variable (raw : String) (formula : Formula) (pos : Position) :
    ∃ made? : Option Made, (∀ m ∈ made?, m.Has (.inl (Name.ofText raw))) ∧
      ∀ w : Work, w.deck.Sees constant? pos →
        Stores (defineVariable raw formula .deferred) pos made? w := by
  have hcontains (w : Work) (hw : w.deck.Sees constant? pos) :
      w.deck.symbols.consts.contains (Name.ofText raw) = (constant? (Name.ofText raw)).isSome := by
    rw [← hw.constant_eq, Option.isSome_map]
    rfl
  -- the constants tell whether the name is taken and, if not, what the formula is lowered to
  cases hconstant : (constant? (Name.ofText raw)).isSome with
  | true =>
    refine ⟨some .nothing, fun m hm => ?_, fun w hw => ?_⟩
    · rw [← Option.some.inj hm]
      trivial
    · unfold Stores
      rw [run_defineVariable, hcontains w hw, hconstant, if_pos rfl, ← hw.pos_eq]
      exact ⟨_, rfl⟩
  | false =>
    have hdetermined : Determined constant? pos (lower formula) fun _ => True := .of_lower formula
    obtain ⟨outcome, -, hlower⟩ := hdetermined
    cases outcome with
    | error e =>
      refine ⟨none, ?_, fun w hw => ?_⟩
      · intro m hm
        cases hm
      · obtain ⟨raised, ha⟩ := hlower w hw
        unfold Stores
        rw [run_defineVariable, hcontains w hw, hconstant, if_neg nofun, run_bind_of_error ha]
        exact ⟨e, _, rfl⟩
    | ok t =>
      refine ⟨some (.variable { name := Name.ofText raw, expr := t, pos }), fun m hm => ?_,
        fun w hw => ?_⟩
      · rw [← Option.some.inj hm]
        rfl
      · obtain ⟨raised, ha⟩ := hlower w hw
        unfold Stores
        rw [run_defineVariable, hcontains w hw, hconstant, if_neg nofun, run_bind_of_ok ha]
        refine ⟨raised, ?_⟩
        rw [← hw.pos_eq]
        rfl

/-- An element stores what its items make of it, in place of one of the same name. -/
theorem exists_made_element (raw : String) (kind : Element.Kind) (items : List Element.Item)
    (pos : Position) :
    ∃ made? : Option Made, (∀ m ∈ made?, m.Has (.inr (Name.ofText raw))) ∧
      ∀ w : Work, w.deck.Sees constant? pos →
        Stores (defineElement raw kind items) pos made? w := by
  have hdetermined : Determined constant? pos
      (items.foldlM enterItem (Element.blank (Name.ofText raw) kind pos))
      fun e => e.name = Name.ofText raw :=
    .of_enterItems (Element.blank (Name.ofText raw) kind pos) items
  obtain ⟨outcome, hname, hitems⟩ := hdetermined
  cases outcome with
  | error e =>
    refine ⟨none, ?_, fun w hw => ?_⟩
    · intro m hm
      cases hm
    · obtain ⟨raised, hdefine⟩ := run_defineElement raw kind items w
      obtain ⟨raised', ha⟩ := hitems ⟨{ w.deck with symbols := { w.deck.symbols with
        elements := w.deck.symbols.elements.without (Name.ofText raw) } }, raised⟩
        ⟨hw.constant_eq, hw.pos_eq⟩
      unfold Stores
      rw [hdefine, hw.pos_eq, run_bind_of_error ha]
      exact ⟨e, _, rfl⟩
  | ok element =>
    have hname : element.name = Name.ofText raw := hname element rfl
    refine ⟨some (.element element), fun m hm => ?_, fun w hw => ?_⟩
    · rw [← Option.some.inj hm]
      exact congrArg Sum.inr hname.symm
    · obtain ⟨raised, hdefine⟩ := run_defineElement raw kind items w
      obtain ⟨raised', ha⟩ := hitems ⟨{ w.deck with symbols := { w.deck.symbols with
        elements := w.deck.symbols.elements.without (Name.ofText raw) } }, raised⟩
        ⟨hw.constant_eq, hw.pos_eq⟩
      -- the element of that name was removed before, so that there is none to replace
      have hinsert : (w.deck.symbols.elements.without (Name.ofText raw)).insert element =
          w.deck.symbols.elements.insert element := by
        rw [← hname]
        exact Table.insert_without element w.deck.symbols.elements
      unfold Stores
      rw [hdefine, hw.pos_eq, run_bind_of_ok ha]
      refine ⟨raised', ?_⟩
      dsimp only [Made.store]
      rw [← hinsert, ← hw.pos_eq]
      rfl

/-- What a definition stores depends on the constants, and on whether a comment block is open. -/
theorem exists_makes (constant? : Name → Option Value) (active : Bool) (d : Deferral) :
    ∃ made? : Option Made, (∀ m ∈ made?, m.Has d.key) ∧ Makes constant? active d made? := by
  have hcomment : d.statement.clause.isComment = false := by
    cases d <;> rfl
  have hpos : d.statement.pos = d.pos := by
    cases d <;> rfl
  cases active with
  | true =>
    -- inside a comment block the definition is skipped
    refine ⟨some .nothing, fun m hm => ?_, fun w hw hactive => ?_⟩
    · rw [← Option.some.inj hm]
      trivial
    · unfold Stores
      rw [run_apply hcomment, hactive, if_pos rfl, hpos]
      exact ⟨w.raised, rfl⟩
  | false =>
    obtain ⟨made?, hkey, hstores⟩ : ∃ made? : Option Made, (∀ m ∈ made?, m.Has d.key) ∧
        ∀ w : Work, w.deck.Sees constant? d.pos →
          Stores (perform d.statement.clause) d.pos made? w := by
      cases d with
      | «variable» raw formula pos => exact exists_made_variable raw formula pos
      | element raw kind items pos => exact exists_made_element raw kind items pos
    refine ⟨made?, hkey, fun w hw hactive => ?_⟩
    have hmoved := hstores { w with deck := { w.deck with pos := d.pos } } ⟨hw, rfl⟩
    unfold Stores at hmoved ⊢
    rw [run_apply hcomment, hactive, if_neg nofun, hpos]
    exact hmoved

end Deck

end Plain

end Beamline
