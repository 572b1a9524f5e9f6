import Beamline.Deck.Definition
import Beamline.Deck.Query

/-!
# Spelling

Clauses with every name and every keyword of an attribute in normal form. Texts are kept: those in
quotes, those of comments, the counts of repetitions and the labels of elements, among them a word
that is assigned to `TYPE`. Nothing that is done on a deck depends on more than that normal form.

* `Lowering.lower_normalized`, `Line.Body.layout_normalized`: formulas and bodies of lines.
* `Deck.enterItem_normalized`: items of elements.
* `Deck.perform_normalized`: clauses.
-/

namespace Beamline

open Beamline.Expr (Formula)

/-! ## Normal forms -/

/-- The formula with its identifiers in normal form. -/
def Expr.Formula.normalized : Formula → Formula
  | .number x => .number x
  | .text content => .text content
  | .name raw => .name (Text.normalize raw)
  | .lengthOf raw => .lengthOf (Text.normalize raw)
  | .parens inner => .parens inner.normalized
  | .signed sign operand => .signed sign operand.normalized
  | .binary op left right => .binary op left.normalized right.normalized
  | .call f argument => .call f argument.normalized

namespace Line.Body

mutual

/-- The body with its members in normal form. -/
def normalized : Body → Body
  | .member raw => .member (Text.normalize raw)
  | .sequence items => .sequence (normalizedAll items)
  | .repetition count body => .repetition count body.normalized
  | .reflection body => .reflection body.normalized

/-- Bodies with their members in normal form. -/
def normalizedAll : List Body → List Body
  | [] => []
  | item :: items => item.normalized :: normalizedAll items

end

end Line.Body

/-- The item with its keyword and its identifiers in normal form. A word that is taken for the label
is kept. -/
def Element.Item.normalized : Element.Item → Element.Item
  | .assign key value =>
    match if Text.normalize key = "TYPE" then Deck.labelOf? value else none with
    | some _ => .assign (Text.normalize key) value
    | none => .assign (Text.normalize key) value.normalized
  | .flag key => .flag (Text.normalize key)
  | .label text => .label text
  | .rm i j value => .rm i j value.normalized
  | .tm i j k value => .tm i j k value.normalized

/-- The clause with its names, keywords and identifiers in normal form. -/
def Clause.normalized : Clause → Clause
  | .constant raw value => .constant (Text.normalize raw) value.normalized
  | .variable raw value binding => .variable (Text.normalize raw) value.normalized binding
  | .element raw kind items =>
    .element (Text.normalize raw) kind (items.map Element.Item.normalized)
  | .line raw body => .line (Text.normalize raw) body.normalized
  | .beginComment => .beginComment
  | .endComment => .endComment
  | .comment text atEnd => .comment text atEnd
  | .pragma keyword text => .pragma keyword text

/-- The statement with its clause in normal form. -/
def Statement.normalized (statement : Statement) : Statement :=
  { statement with clause := statement.clause.normalized }

/-! ## Names and keywords -/

@[simp]
theorem Name.ofText_normalize (raw : String) : ofText (Text.normalize raw) = ofText raw := by
  simp [ofText_eq_ofText_iff]

/-- A value of another kind is taken for no label in any spelling. -/
theorem Deck.labelOf?_normalized {value : Formula} (h : labelOf? value = none) :
    labelOf? value.normalized = none := by
  cases value with
  | text | name => cases h
  | _ => rfl

namespace Element

@[simp]
theorem Kind.slotIndex?_normalize (kind : Kind) (key : String) :
    kind.slotIndex? (Text.normalize key) = kind.slotIndex? key := by
  simp [slotIndex?]

@[simp]
theorem Kind.flagDefault?_normalize (kind : Kind) (key : String) :
    kind.flagDefault? (Text.normalize key) = kind.flagDefault? key := by
  simp [flagDefault?]

@[simp]
theorem slotIndex_normalize (e : Element) (key : String) :
    e.slotIndex (Text.normalize key) = e.slotIndex key := by
  simp [slotIndex]

@[simp]
theorem slot?_normalize (e : Element) (key : String) :
    e.slot? (Text.normalize key) = e.slot? key := by
  simp [slot?]

@[simp]
theorem assign_normalize (e : Element) (key : String) :
    e.assign (Text.normalize key) = e.assign key := by
  funext id
  simp [assign]

@[simp]
theorem flag_normalize (e : Element) (key : String) :
    e.flag (Text.normalize key) = e.flag key := by
  funext forest
  simp [flag]

end Element

@[simp]
theorem Table.lookup?_normalize {α : Type} [Record α] (t : Table α) (raw : String) :
    t.lookup? (Text.normalize raw) = t.lookup? raw := by
  simp [lookup?]

/-! ## Formulas and bodies -/

@[simp]
theorem Lowering.lower_normalized (scope : Scope) (formula : Formula) :
    lower scope formula.normalized = lower scope formula := by
  funext arithmetic
  -- by induction on the formula; identifiers are read in normal form in either spelling
  induction formula generalizing arithmetic with
  | number | text => rfl
  | name raw | lengthOf raw => simp only [Formula.normalized, lower, Name.ofText_normalize]
  | parens inner ih | signed sign inner ih | call f inner ih =>
    simp only [Formula.normalized, lower, ih]
  | binary op left right ihl ihr => simp only [Formula.normalized, lower, ihl, ihr]

namespace Line.Body

variable (scope : Scope)

mutual

theorem layout_normalized (body : Body) : layout scope body.normalized = layout scope body := by
  match body with
  | .member raw => simp only [normalized, layout, Name.ofText_normalize]
  | .sequence items => simp only [normalized, layout, layoutAll_normalized items]
  | .repetition count body => simp only [normalized, layout, layout_normalized body]
  | .reflection body => simp only [normalized, layout, layout_normalized body]

theorem layoutAll_normalized (items : List Body) :
    layoutAll scope (normalizedAll items) = layoutAll scope items := by
  match items with
  | [] => rfl
  | item :: items =>
    simp only [normalizedAll, layoutAll, layout_normalized item, layoutAll_normalized items]

end

end Line.Body

/-! ## Decks -/

namespace Deck

@[simp]
theorem lowerWith_normalized (constantsOnly : Bool) (formula : Formula) :
    lowerWith constantsOnly formula.normalized = lowerWith constantsOnly formula := by
  simp only [lowerWith, Lowering.lower_normalized]

@[simp]
theorem lower_normalized (formula : Formula) : lower formula.normalized = lower formula :=
  lowerWith_normalized false formula

@[simp]
theorem layout_normalized (body : Line.Body) : layout body.normalized = layout body := by
  simp only [layout, Line.Body.layout_normalized]

theorem defineConstant_normalized (raw : String) (formula : Formula) :
    defineConstant (Text.normalize raw) formula.normalized = defineConstant raw formula := by
  simp only [defineConstant, Name.ofText_normalize, lowerWith_normalized]

theorem defineVariable_normalized (raw : String) (formula : Formula) (binding : Binding) :
    defineVariable (Text.normalize raw) formula.normalized binding =
      defineVariable raw formula binding := by
  simp only [defineVariable, Name.ofText_normalize, lower_normalized]

theorem assignItem_normalized (element : Element) (key : String) (value : Formula) :
    enterItem element (.normalized (.assign key value)) = assignItem element key value := by
  rw [Element.Item.normalized]
  split
  · -- a label, which is kept as it is
    rename_i label hlabel
    rw [enterItem, assignItem, assignItem, Text.normalize_normalize, hlabel]
  · rename_i hnone
    -- in normal form the value is still taken for no label, so that it is lowered on both sides
    have hnone' : (if Text.normalize key = "TYPE" then labelOf? value.normalized else none) =
        none := by
      split
      · rename_i htype
        rw [if_pos htype] at hnone
        exact labelOf?_normalized hnone
      · rfl
    rw [enterItem, assignItem, assignItem, Text.normalize_normalize, hnone, hnone']
    simp only [Element.Kind.slotIndex?_normalize, Element.assign_normalize, lower_normalized]

theorem entryItem_normalized (element : Element) (index : Option Element.MapIndex)
    (written : String) (value : Formula) :
    entryItem element index written value.normalized = entryItem element index written value := by
  simp only [entryItem, lower_normalized]

theorem enterItem_normalized (element : Element) (item : Element.Item) :
    enterItem element item.normalized = enterItem element item := by
  cases item with
  | assign key value => exact assignItem_normalized element key value
  | flag key => simp only [Element.Item.normalized, enterItem, flagItem, Element.flag_normalize]
  | label text => rfl
  | rm i j value | tm i j k value =>
    simp only [Element.Item.normalized, enterItem, entryItem_normalized]

theorem defineElement_normalized (raw : String) (kind : Element.Kind) (items : List Element.Item) :
    defineElement (Text.normalize raw) kind (items.map Element.Item.normalized) =
      defineElement raw kind items := by
  simp only [defineElement, Name.ofText_normalize, List.foldlM_map, enterItem_normalized]

theorem defineLine_normalized (raw : String) (body : Line.Body) :
    defineLine (Text.normalize raw) body.normalized = defineLine raw body := by
  simp only [defineLine, Name.ofText_normalize, layout_normalized]

/-- What a clause does depends on its normal form. -/
theorem perform_normalized (clause : Clause) : perform clause.normalized = perform clause := by
  cases clause with
  | constant raw value => exact defineConstant_normalized raw value
  | «variable» raw value binding => exact defineVariable_normalized raw value binding
  | element raw kind items => exact defineElement_normalized raw kind items
  | line raw body => exact defineLine_normalized raw body
  | _ => rfl

theorem isComment_normalized (clause : Clause) :
    clause.normalized.isComment = clause.isComment := by
  cases clause <;> simp only [Clause.normalized, Clause.isComment]

theorem apply_normalized (statement : Statement) :
    apply statement.normalized = apply statement := by
  simp only [apply, Statement.normalized, isComment_normalized, perform_normalized]

/-! ## Queries -/

theorem constantValue?_normalize (deck : Deck) (raw : String) :
    deck.constantValue? (Text.normalize raw) = deck.constantValue? raw := by
  simp only [constantValue?, Table.lookup?_normalize]

theorem variableValue_normalize (raw : String) :
    variableValue (Text.normalize raw) = variableValue raw := by
  simp only [variableValue, Table.lookup?_normalize]

theorem attributeValue_normalize (raw key : String) :
    attributeValue (Text.normalize raw) (Text.normalize key) = attributeValue raw key := by
  simp only [attributeValue, Table.lookup?_normalize, Element.slot?_normalize]

theorem entryValue_normalize (raw : String) (index : Element.MapIndex) :
    entryValue (Text.normalize raw) index = entryValue raw index := by
  simp only [entryValue, Table.lookup?_normalize]

theorem elementLength_normalize (raw : String) :
    elementLength (Text.normalize raw) = elementLength raw := by
  simp only [elementLength, Table.lookup?_normalize]

end Deck

end Beamline
