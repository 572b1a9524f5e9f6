import Beamline.Proofs.Portrait.Symbols

/-!
# Reading a deck

The records of a deck with each expression read back from the forest. What a deck stands for is
what is read: every expression is found, and the records are those of the plain deck.

* `Deck.reading`: the records with their terms, or with the faults met on the way to them.
* `Deck.Depicts.reading_eq`: what is read from a deck that stands for a plain deck.
-/

namespace Beamline

open Beamline.Expr (Fault NodeId Term Tree)

/-- The records with their expressions left as handles, newest first. -/
def Symbols.view (symbols : Symbols) : Plain.Symbols NodeId where
  consts := symbols.consts.toList.map Portrayal.consts.view
  vars := symbols.vars.toList.map Portrayal.vars.view
  elements := symbols.elements.toList.map Portrayal.elements.view
  lines := symbols.lines.toList

/-- The records with their expressions as the forest holds them. -/
def Deck.reading (deck : Deck) : Plain.Symbols (Except Fault Term) :=
  deck.symbols.view.map deck.forest.read

namespace Deck.Depicts

variable {deck : Deck} {limits : Limits} {g : Plain.Deck Tree} {held : List Tree} {stray : Nat}

theorem view_eq (hd : deck.Depicts limits g held stray) :
    deck.symbols.view = g.symbols.map Tree.root := by
  have hlines : deck.symbols.lines.toList = g.symbols.lines := by
    have h := hd.symbols.lines
    rwa [Portrayal.Shows, show Portrayal.lines.view = id from rfl,
      show Portrayal.lines.sketch = id from rfl, List.map_id, List.map_id] at h
  unfold Symbols.view
  rw [hd.symbols.consts, hd.symbols.vars, hd.symbols.elements, hlines]
  rfl

/-- What is read from the deck are the records of the plain deck, and no expression is missing. -/
theorem reading_eq (hd : deck.Depicts limits g held stray) :
    deck.reading = (g.map Tree.term).symbols.map Except.ok := by
  have hread : ∀ t ∈ g.symbols.exprs,
      (deck.forest.read ∘ Tree.root) t = (Except.ok ∘ Tree.term) t :=
    fun t ht => hd.grove.read (List.mem_append_left _ ht)
  unfold reading
  -- reading goes through the trees: their roots are looked up, their terms are found
  rw [hd.view_eq, Plain.Symbols.map_map, Plain.Symbols.map_congr hread, ← Plain.Symbols.map_map]
  rfl

end Deck.Depicts

end Beamline
