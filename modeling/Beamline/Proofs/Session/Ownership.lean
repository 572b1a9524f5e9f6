import Beamline.Proofs.Session.Lockstep

/-!
# Who owns the stored expressions

The records of the constants, variables and elements and the caller own expressions of the forest,
each by the handle of its root. In every session these are the roots of trees that stand in the
forest and share no node. As long as no request has ended in an error the forest holds nothing
else: whatever is replaced, refused or folded to a value has been released.

* `Session.exists_owned_trees`: each root is that of a tree of its own, and nothing leaks.
-/

namespace Beamline

open Beamline.Expr (Grove NodeId Tree)

/-- The roots of the expressions that the records own: those of the constants, of the variables
and of the elements, newest first. -/
def Deck.roots (deck : Deck) : List NodeId :=
  deck.symbols.consts.toList.flatMap Record.owned ++
    deck.symbols.vars.toList.flatMap Record.owned ++
      deck.symbols.elements.toList.flatMap Record.owned

/-- The roots of all expressions: those that the records own, and those issued to the caller. -/
def Session.roots (s : Session) : List NodeId :=
  s.interpreter.deck.roots ++ s.issued

/-- The records of a table own the roots of the trees that they stand for. -/
theorem Portrayal.Shows.flatMap_owned {α β γ : Type} [Record α] [Plain.Named β] [Plain.Named γ]
    {π : Portrayal α β γ} {t : Table α} {l : Plain.Table γ} (h : π.Shows t l) :
    t.toList.flatMap Record.owned = (l.flatMap π.trees).map Tree.root := by
  unfold Portrayal.Shows at h
  -- record by record, as the lists have the same views
  generalize t.toList = records at h
  induction records generalizing l with
  | nil =>
    rw [List.map_nil, eq_comm, List.map_eq_nil_iff] at h
    rw [h]
    rfl
  | cons a records ih =>
    obtain ⟨c, l, rfl⟩ : ∃ c l', l = c :: l' := by
      cases l with
      | nil => cases h
      | cons c l => exact ⟨c, l, rfl⟩
    rw [List.map_cons, List.map_cons, List.cons.injEq] at h
    rw [List.flatMap_cons, List.flatMap_cons, List.map_append, π.owned_eq h.1, ih h.2]

/-- The roots of a deck are those of the trees that it stands for. -/
theorem Deck.Depicts.roots_eq {deck : Deck} {limits : Limits} {g : Plain.Deck Tree}
    {held : List Tree} {stray : Nat} (hd : deck.Depicts limits g held stray) :
    deck.roots = g.symbols.exprs.map Tree.root := by
  rw [Deck.roots, hd.symbols.consts.flatMap_owned, hd.symbols.vars.flatMap_owned,
    hd.symbols.elements.flatMap_owned, Portrayal.flatMap_trees_consts,
    Portrayal.flatMap_trees_vars, ← List.map_append, ← List.map_append]
  rfl

namespace Session

/-- In every session the roots owned by records and by the caller are the roots of as many trees
that stand in the forest and share no node. As long as no request has ended in an error, these
trees are all that the forest holds. -/
theorem exists_owned_trees (config : Config) (requests : List Request) :
    let s := (ofConfig config).after requests
    s.roots.Nodup ∧
      ∃ trees : List Tree, trees.map Tree.root = s.roots ∧
        (∀ t ∈ trees, s.interpreter.deck.forest.Stands t) ∧
        (trees.flatMap Tree.ids).Nodup ∧
        ((∀ entry ∈ (ofConfig config).trace requests, entry.1.error? = none) →
          s.interpreter.deck.forest.size = (trees.map Tree.size).sum) := by
  intro s
  -- the trees are those of the plain session that the session stands for
  obtain ⟨stray, same, halike, hstray⟩ := alike_after requests (alike_ofConfig config)
  obtain ⟨trees, ⟨⟨g, hd, -⟩, -⟩, hissued, -⟩ := halike
  have hroots : (g.symbols.exprs ++ trees).map Tree.root = s.roots := by
    rw [List.map_append, ← hd.roots_eq, ← hissued]
    rfl
  refine ⟨?_, g.symbols.exprs ++ trees, hroots, hd.grove.stands, hd.grove.nodup_ids, ?_⟩
  · rw [← hroots]
    exact hd.grove.nodup_roots
  · intro hnone
    rw [hd.grove.size_eq, hstray hnone, Nat.add_zero]

end Session

end Beamline
