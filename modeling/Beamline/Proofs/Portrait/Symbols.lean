import Beamline.Deck.Basic
import Beamline.Proofs.Plain.Deck
import Beamline.Proofs.Portrait.Element
import Beamline.Proofs.Portrait.Table

/-!
# Decks and what they stand for

A deck depicts a plain deck whose records hold trees if its tables show the records of the plain
deck, and its forest is a grove of their trees and of those held by others.

* `Symbols.Depicts`, `Deck.Depicts`: a deck and the plain deck that it stands for.
* `Namespace.remove`, `Namespace.insert`: removing and storing a record, in any of the four
  namespaces.
-/

namespace Beamline

open Beamline.Expr (Grove NodeId Tree)

/-! ## The four portrayals -/

namespace Portrayal

/-- Constants and the trees of their expressions. -/
def consts : Portrayal Constant (Plain.Constant NodeId) (Plain.Constant Tree) where
  view c := ⟨c.name, c.value, c.source, c.pos⟩
  sketch := Plain.Constant.map Tree.root
  trees c := [c.source]
  name_view _ := rfl
  pos_view _ := rfl
  name_sketch _ := rfl
  pos_sketch _ := rfl
  owned_eq h := congrArg (fun c => [Plain.Constant.source c]) h

/-- Variables and their trees. -/
def vars : Portrayal Variable (Plain.Variable NodeId) (Plain.Variable Tree) where
  view v := ⟨v.name, v.expr, v.pos⟩
  sketch := Plain.Variable.map Tree.root
  trees v := [v.expr]
  name_view _ := rfl
  pos_view _ := rfl
  name_sketch _ := rfl
  pos_sketch _ := rfl
  owned_eq h := congrArg (fun v => [Plain.Variable.expr v]) h

/-- Elements and the trees of their attributes and transfer maps. -/
def elements : Portrayal Element (Plain.Element NodeId) (Plain.Element Tree) where
  view := Element.view
  sketch := Plain.Element.map Tree.root
  trees := Plain.Element.exprs
  name_view _ := rfl
  pos_view _ := rfl
  name_sketch _ := rfl
  pos_sketch _ := rfl
  owned_eq {e q} h := by
    rw [← Plain.Element.exprs_map, ← h]
    exact e.owned_eq_exprs_view

/-- Lines, which have no trees. -/
def lines : Portrayal Line Line Line where
  view := id
  sketch := id
  trees _ := []
  name_view _ := rfl
  pos_view _ := rfl
  name_sketch _ := rfl
  pos_sketch _ := rfl
  owned_eq _ := rfl

theorem flatMap_trees_consts (l : Plain.Table (Plain.Constant Tree)) :
    l.flatMap consts.trees = l.map Plain.Constant.source :=
  List.map_eq_flatMap.symm

theorem flatMap_trees_vars (l : Plain.Table (Plain.Variable Tree)) :
    l.flatMap vars.trees = l.map Plain.Variable.expr :=
  List.map_eq_flatMap.symm

theorem flatMap_trees_lines (l : Plain.Table Line) : l.flatMap lines.trees = [] :=
  List.flatMap_eq_nil_iff.2 fun _ _ => rfl

end Portrayal

/-! ## Decks -/

/-- The tables show the records of the plain symbols. -/
structure Symbols.Depicts (symbols : Symbols) (g : Plain.Symbols Tree) : Prop where
  /-- The constants. -/
  consts : Portrayal.consts.Shows symbols.consts g.consts
  /-- The variables. -/
  vars : Portrayal.vars.Shows symbols.vars g.vars
  /-- The elements. -/
  elements : Portrayal.elements.Shows symbols.elements g.elements
  /-- The lines. -/
  lines : Portrayal.lines.Shows symbols.lines g.lines

/-- The deck stands for the plain deck: its forest is a grove of the trees of the records and of
those held by others, next to strays. -/
structure Deck.Depicts (deck : Deck) (limits : Limits) (g : Plain.Deck Tree) (held : List Tree)
    (stray : Nat) : Prop where
  /-- The deck has the limits. -/
  limits_eq : deck.limits = limits
  /-- The plain deck has the limits. -/
  plain_limits_eq : g.limits = limits
  /-- The tables show the records. -/
  symbols : deck.symbols.Depicts g.symbols
  /-- The commentary is the same. -/
  commentary : deck.commentary = g.commentary
  /-- The position is the same. -/
  pos : deck.pos = g.pos
  /-- Nothing but strays lies in the forest besides the trees. -/
  grove : Grove deck.forest (g.symbols.exprs ++ held) stray

/-! ## Namespaces -/

/-- One of the four namespaces, on both sides. -/
structure Namespace {α β γ : Type} [Record α] [Plain.Named β] [Plain.Named γ]
    (π : Portrayal α β γ) where
  /-- The table. -/
  table : Symbols → Table α
  /-- The symbols with another table. -/
  setTable : Table α → Symbols → Symbols
  /-- The plain table. -/
  plain : Plain.Symbols Tree → Plain.Table γ
  /-- The plain symbols with another table. -/
  setPlain : Plain.Table γ → Plain.Symbols Tree → Plain.Symbols Tree
  /-- The trees of the other namespaces. -/
  others : Plain.Symbols Tree → List Tree
  /-- The table shows the plain table. -/
  shows : ∀ {symbols : Symbols} {g : Plain.Symbols Tree}, symbols.Depicts g →
    π.Shows (table symbols) (plain g)
  /-- Both tables may be changed alike. -/
  depicts : ∀ {symbols : Symbols} {g : Plain.Symbols Tree} {t l}, symbols.Depicts g → π.Shows t l →
    (setTable t symbols).Depicts (setPlain l g)
  /-- The trees are those of the table and those of the others. -/
  perm : ∀ g : Plain.Symbols Tree, g.exprs.Perm ((plain g).flatMap π.trees ++ others g)
  /-- A change of the table leaves the others their trees. -/
  perm_setPlain : ∀ l g, (setPlain l g).exprs.Perm (l.flatMap π.trees ++ others g)

namespace Namespace

/-- The constants of a deck. -/
def consts : Namespace Portrayal.consts where
  table := Symbols.consts
  setTable consts symbols := { symbols with consts }
  plain := Plain.Symbols.consts
  setPlain consts g := { g with consts }
  others g := g.vars.map Plain.Variable.expr ++ g.elements.flatMap Plain.Element.exprs
  shows h := h.consts
  depicts h hshows := { h with consts := hshows }
  perm g := by
    rw [Portrayal.flatMap_trees_consts, Plain.Symbols.exprs, List.append_assoc]
  perm_setPlain consts g := by
    rw [Portrayal.flatMap_trees_consts, Plain.Symbols.exprs, List.append_assoc]

/-- The variables of a deck. -/
def vars : Namespace Portrayal.vars where
  table := Symbols.vars
  setTable vars symbols := { symbols with vars }
  plain := Plain.Symbols.vars
  setPlain vars g := { g with vars }
  others g := g.consts.map Plain.Constant.source ++ g.elements.flatMap Plain.Element.exprs
  shows h := h.vars
  depicts h hshows := { h with vars := hshows }
  perm g := by
    rw [Portrayal.flatMap_trees_vars, Plain.Symbols.exprs, ← List.append_assoc]
    exact List.perm_append_comm.append_right _
  perm_setPlain vars g := by
    rw [Portrayal.flatMap_trees_vars, Plain.Symbols.exprs, ← List.append_assoc]
    exact List.perm_append_comm.append_right _

/-- The elements of a deck. -/
def elements : Namespace Portrayal.elements where
  table := Symbols.elements
  setTable elements symbols := { symbols with elements }
  plain := Plain.Symbols.elements
  setPlain elements g := { g with elements }
  others g := g.consts.map Plain.Constant.source ++ g.vars.map Plain.Variable.expr
  shows h := h.elements
  depicts h hshows := { h with elements := hshows }
  perm _ := List.perm_append_comm
  perm_setPlain _ _ := List.perm_append_comm

/-- The lines of a deck. -/
def lines : Namespace Portrayal.lines where
  table := Symbols.lines
  setTable lines symbols := { symbols with lines }
  plain := Plain.Symbols.lines
  setPlain lines g := { g with lines }
  others g := g.exprs
  shows h := h.lines
  depicts h hshows := { h with lines := hshows }
  perm g := by
    rw [Portrayal.flatMap_trees_lines, List.nil_append]
  perm_setPlain lines g := by
    rw [Portrayal.flatMap_trees_lines, List.nil_append]
    rfl

variable {α β γ : Type} [Record α] [Plain.Named β] [Plain.Named γ] {π : Portrayal α β γ}
  (ns : Namespace π) {deck : Deck} {limits : Limits} {g : Plain.Deck Tree} {held : List Tree}
  {stray : Nat}

/-- The record of a name can be removed. -/
theorem remove (h : deck.Depicts limits g held stray) (name : Name) :
    ∃ fewer left,
      (ns.table deck.symbols).remove name deck.forest =
          (.ok (Plain.Table.contains (ns.plain g.symbols) name), fewer, left) ∧
        Deck.Depicts { deck with symbols := ns.setTable fewer deck.symbols, forest := left } limits
          { g with
            symbols := ns.setPlain (Plain.Table.without name (ns.plain g.symbols)) g.symbols }
          held stray := by
  -- bring the trees of this namespace to the front, and back when the record is gone
  have hgrove := h.grove.perm ((ns.perm g.symbols).append_right held)
  rw [List.append_assoc] at hgrove
  obtain ⟨fewer, left, hrun, hshows, hleft⟩ := (ns.shows h.symbols).remove hgrove name
  refine ⟨fewer, left, hrun, { h with symbols := ns.depicts h.symbols hshows, grove := ?_ }⟩
  rw [← List.append_assoc] at hleft
  exact hleft.perm ((ns.perm_setPlain _ _).symm.append_right held)

/-- A record can be stored in place of the one that has its name. -/
theorem insert {a : α} {c : γ} (hac : π.view a = π.sketch c)
    (h : deck.Depicts limits g (π.trees c ++ held) stray) :
    ∃ replaced t left,
      (ns.table deck.symbols).insert a deck.forest = (.ok replaced, t, left) ∧
        Deck.Depicts { deck with symbols := ns.setTable t deck.symbols, forest := left } limits
          { g with symbols := ns.setPlain (Plain.Table.insert c (ns.plain g.symbols)) g.symbols }
          held stray := by
  -- the trees of the new record go next to those of the namespace
  have hperm : ((ns.plain g.symbols).flatMap π.trees ++ ns.others g.symbols ++
      (π.trees c ++ held)).Perm ((ns.plain g.symbols).flatMap π.trees ++
        (π.trees c ++ (ns.others g.symbols ++ held))) := by
    rw [List.append_assoc]
    exact (List.perm_append_comm_assoc _ _ held).append_left _
  have hgrove := (h.grove.perm ((ns.perm g.symbols).append_right _)).perm hperm
  obtain ⟨replaced, t, left, hrun, hshows, hleft⟩ := (ns.shows h.symbols).insert hac hgrove
  refine ⟨replaced, t, left, hrun,
    { h with symbols := ns.depicts h.symbols hshows, grove := ?_ }⟩
  rw [← List.append_assoc] at hleft
  exact hleft.perm ((ns.perm_setPlain _ _).symm.append_right held)

end Namespace

end Beamline
