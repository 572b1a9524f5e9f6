import Beamline.Deck.Definition
import Beamline.Deck.Query
import Beamline.Proofs.Plain.Levels
import Beamline.Proofs.Portrait.Evaluation
import Beamline.Proofs.Portrait.Layout
import Beamline.Proofs.Portrait.Lowering
import Beamline.Proofs.Portrait.Symbols

/-!
# Actions on decks and on plain decks

The actions from which definitions and queries are put together mirror those of the plain deck that
a deck stands for. What an action stores for its own use is held by nobody but the action: it is
the first part of the trees held, and becomes stray if the action ends in an error.

* `mirrors_lowerWith`, `mirrors_evaluate`, `mirrors_layout`: expressions and lines.
* `mirrors_alloc`, `mirrors_release`, `mirrors_releaseReplaced`: the forest.
* `mirrors_insertConstant` and the like: the tables.
-/

namespace Beamline.Deck

open Diagnostic (Condition)
open Source (Position)
open Beamline.Expr (Forest Formula Grove Node NodeId Term Tree)

/-! ## States -/

/-- The deck at work stands for the plain deck at work, and both have raised the same. -/
def Alike (limits : Limits) (held : List Tree) (stray : Nat) (w : Work)
    (p : Plain.Deck.Work) : Prop :=
  w.raised = p.raised ∧
    ∃ g : Plain.Deck Tree, w.deck.Depicts limits g held stray ∧ g.map Tree.term = p.deck

/-- Both sides are exactly at the given decks, and both have raised the same. -/
structure At (deck : Deck) (plain : Plain.Deck Term) (w : Work) (p : Plain.Deck.Work) : Prop where
  /-- The deck. -/
  deck_eq : w.deck = deck
  /-- The plain deck. -/
  plain_eq : p.deck = plain
  /-- What was raised. -/
  raised : w.raised = p.raised

/-- Both sides came to the same result and are alike. -/
def Returned {α : Type} (limits : Limits) (held : List Tree) (stray : Nat) (x y : α) (w : Work)
    (p : Plain.Deck.Work) : Prop :=
  x = y ∧ Alike limits held stray w p

/-- Both sides came to a stored tree and its term, which is held besides the others. -/
def Stored (limits : Limits) (held : List Tree) (stray : Nat) (id : NodeId) (term : Term) (w : Work)
    (p : Plain.Deck.Work) : Prop :=
  ∃ t : Tree, t.root = id ∧ t.term = term ∧ Alike limits (t :: held) stray w p

/-- Both sides ended in the same error and stand for each other, next to strays. What was raised
before an endless evaluation is left open. -/
def Failed (limits : Limits) (held : List Tree) (e : FatalError) (d : Plain.Error) (w : Work)
    (p : Plain.Deck.Work) : Prop :=
  (∃ g : Plain.Deck Tree, ∃ stray, w.deck.Depicts limits g held stray ∧ g.map Tree.term = p.deck) ∧
    Evaluation.Corresponds limits.evalDepth e d ∧ (d ≠ .endless → w.raised = p.raised)

section

variable {deck : Deck} {limits : Limits} {g : Plain.Deck Tree} {held inflight : List Tree}
  {stray : Nat}

theorem Depicts.abandon (h : deck.Depicts limits g (inflight ++ held) stray) :
    ∃ more, deck.Depicts limits g held more := by
  have hgrove := h.grove.perm (List.perm_append_comm_assoc g.symbols.exprs inflight held)
  exact ⟨_, { h with grove := hgrove.abandon }⟩

/-- What an action holds becomes stray if it ends in an error. -/
theorem Failed.abandon {e : FatalError} {d : Plain.Error} {w : Work} {p : Plain.Deck.Work}
    (h : Failed limits (inflight ++ held) e d w p) : Failed limits held e d w p := by
  obtain ⟨⟨g, stray, hd, hmap⟩, h⟩ := h
  obtain ⟨more, hd⟩ := hd.abandon
  exact ⟨⟨g, more, hd, hmap⟩, h⟩

theorem At.alike {w : Work} {p : Plain.Deck.Work} (h : At deck (g.map Tree.term) w p)
    (hd : deck.Depicts limits g held stray) : Alike limits held stray w p := by
  obtain ⟨rfl, hplain, hraised⟩ := h
  exact ⟨hraised, g, hd, hplain.symm⟩

end

variable {α β : Type} {limits : Limits} {held : List Tree} {stray : Nat}
  {E : FatalError → Plain.Error → Work → Plain.Deck.Work → Prop}

/-- What is done with the deck as it is. -/
theorem mirrors_current {f : Deck → Action α} {f' : Plain.Deck Term → Plain.Deck.Action β}
    {Q : α → β → Work → Plain.Deck.Work → Prop}
    (h : ∀ deck g, Depicts deck limits g held stray →
      Mirrors (At deck (g.map Tree.term)) (f deck) (f' (g.map Tree.term)) Q E) :
    Mirrors (Alike limits held stray) (current >>= f) (Plain.Deck.current >>= f') Q E := by
  intro w p ⟨hraised, g, hd, hmap⟩
  have hp : p.deck = g.map Tree.term := hmap.symm
  have hleft : (current >>= f).run w = (f w.deck).run w := rfl
  have hright : (Plain.Deck.current >>= f').run p = (f' p.deck).run p := rfl
  rw [hleft, hright, hp]
  exact h w.deck g hd w p ⟨rfl, hp, hraised⟩

/-- What holds of all decks that are alike holds of the decks at hand. -/
theorem Depicts.mirrors {deck : Deck} {g : Plain.Deck Tree} (hd : deck.Depicts limits g held stray)
    {a : Action α} {b : Plain.Deck.Action β} {Q : α → β → Work → Plain.Deck.Work → Prop}
    (h : Mirrors (Alike limits held stray) a b Q E) :
    Mirrors (At deck (g.map Tree.term)) a b Q E :=
  h.imp (fun _ _ hat => hat.alike hd) (fun _ _ _ _ => id) fun _ _ _ _ => id

theorem mirrors_return (x : α) :
    Mirrors (Alike limits held stray) (pure x : Action α) (pure x : Plain.Deck.Action α)
      (Returned limits held stray) E :=
  Mirrors.of_pure fun _ _ h => ⟨rfl, h⟩

theorem mirrors_raise (condition : Condition) :
    Mirrors (Alike limits held stray) (raise condition) (Plain.Deck.raise condition)
      (fun _ _ => Alike limits held stray) E := by
  refine Mirrors.of_modify fun w p ⟨hraised, g, hd, hmap⟩ => ⟨?_, g, hd, hmap⟩
  have hpos : w.deck.pos = p.deck.pos := by rw [← hmap, hd.pos]; rfl
  change w.raised.push _ = p.raised.push _
  rw [hraised, hpos]

theorem mirrors_moveTo (pos : Position) :
    Mirrors (Alike limits held stray) (moveTo pos) (Plain.Deck.moveTo pos)
      (fun _ _ => Alike limits held stray) E :=
  Mirrors.of_modify fun _ _ ⟨hraised, g, hd, hmap⟩ =>
    ⟨hraised, { g with pos }, { hd with pos := rfl }, by rw [← hmap]; rfl⟩

/-- A change of the commentary. -/
theorem mirrors_changeCommentary (f : Commentary → Position → Commentary) :
    Mirrors (Alike limits held stray)
      (change fun deck => { deck with commentary := f deck.commentary deck.pos })
      (Plain.Deck.change fun deck => { deck with commentary := f deck.commentary deck.pos })
      (fun _ _ => Alike limits held stray) E := by
  refine Mirrors.of_modify fun w p ⟨hraised, g, hd, hmap⟩ => ⟨hraised,
    { g with commentary := f g.commentary g.pos }, { hd with commentary := ?_ }, ?_⟩
  · change f w.deck.commentary w.deck.pos = _
    rw [hd.commentary, hd.pos]
  · dsimp only
    rw [← hmap]
    rfl

/-! ## Lookups -/

section Lookups

variable {deck : Deck} {g : Plain.Deck Tree} (hd : deck.Depicts limits g held stray) (name : Name)
include hd

theorem Depicts.contains_consts :
    deck.symbols.consts.contains name = (g.map Tree.term).symbols.consts.contains name := by
  rw [hd.symbols.consts.contains]
  exact (Plain.Table.contains_map (Plain.Constant.name_map Tree.term) _ name).symm

theorem Depicts.contains_vars :
    deck.symbols.vars.contains name = (g.map Tree.term).symbols.vars.contains name := by
  rw [hd.symbols.vars.contains]
  exact (Plain.Table.contains_map (Plain.Variable.name_map Tree.term) _ name).symm

theorem Depicts.contains_elements :
    deck.symbols.elements.contains name = (g.map Tree.term).symbols.elements.contains name := by
  rw [hd.symbols.elements.contains]
  exact (Plain.Table.contains_map (Plain.Element.name_map Tree.term) _ name).symm

theorem Depicts.constant? :
    (deck.symbols.consts.get? name).map Constant.value =
      ((g.map Tree.term).symbols.consts.get? name).map Plain.Constant.value := by
  have h := congrArg (Option.map Plain.Constant.value) (hd.symbols.consts.get? name)
  rw [Option.map_map, Option.map_map] at h
  refine Eq.trans h ?_
  rw [Plain.Deck.map, Plain.Symbols.map, Plain.Table.get?_map (Plain.Constant.name_map Tree.term),
    Option.map_map]
  rfl

theorem Depicts.line? :
    deck.symbols.lines.get? name = (g.map Tree.term).symbols.lines.get? name := by
  have h := hd.symbols.lines.get? name
  rwa [show Portrayal.lines.view = id from rfl, show Portrayal.lines.sketch = id from rfl,
    Option.map_id] at h

/-- A variable stands for one whose tree stands in the forest. -/
theorem Depicts.variable_cases :
    (deck.symbols.vars.get? name = none ∧ (g.map Tree.term).symbols.vars.get? name = none) ∨
      ∃ record, ∃ v : Plain.Variable Tree, deck.symbols.vars.get? name = some record ∧
        (g.map Tree.term).symbols.vars.get? name = some (v.map Tree.term) ∧
        v.expr.root = record.expr ∧ v.expr ∈ g.symbols.exprs := by
  have hterm : (g.map Tree.term).symbols.vars.get? name =
      (g.symbols.vars.get? name).map (Plain.Variable.map Tree.term) :=
    Plain.Table.get?_map (Plain.Variable.name_map Tree.term) _ name
  rw [hterm]
  cases hrecord : deck.symbols.vars.get? name with
  | none =>
    rw [hd.symbols.vars.get?_eq_none hrecord]
    exact .inl ⟨rfl, rfl⟩
  | some record =>
    obtain ⟨v, hv, hview⟩ := hd.symbols.vars.exists_of_get? hrecord
    rw [hv]
    refine .inr ⟨record, v, rfl, rfl, (congrArg Plain.Variable.expr hview).symm, ?_⟩
    refine List.mem_append_left _ (List.mem_append_right _ ?_)
    exact List.mem_map_of_mem (Plain.Table.mem_of_get? hv)

/-- An element stands for one whose trees stand in the forest. -/
theorem Depicts.element_cases :
    (deck.symbols.elements.get? name = none ∧
        (g.map Tree.term).symbols.elements.get? name = none) ∨
      ∃ record, ∃ e : Plain.Element Tree, deck.symbols.elements.get? name = some record ∧
        (g.map Tree.term).symbols.elements.get? name = some (e.map Tree.term) ∧
        record.view = e.map Tree.root ∧ ∀ t ∈ e.exprs, t ∈ g.symbols.exprs := by
  have hterm : (g.map Tree.term).symbols.elements.get? name =
      (g.symbols.elements.get? name).map (Plain.Element.map Tree.term) :=
    Plain.Table.get?_map (Plain.Element.name_map Tree.term) _ name
  rw [hterm]
  cases hrecord : deck.symbols.elements.get? name with
  | none =>
    rw [hd.symbols.elements.get?_eq_none hrecord]
    exact .inl ⟨rfl, rfl⟩
  | some record =>
    obtain ⟨e, he, hview⟩ := hd.symbols.elements.exists_of_get? hrecord
    rw [he]
    refine .inr ⟨record, e, rfl, rfl, hview, fun t ht => List.mem_append_right _ ?_⟩
    exact List.mem_flatMap.2 ⟨e, Plain.Table.mem_of_get? he, ht⟩

end Lookups

/-! ## Expressions and lines -/

/-- Storing a formula mirrors its lowering. -/
theorem mirrors_lowerWith (constantsOnly : Bool) (formula : Formula) :
    Mirrors (Alike limits held stray) (lowerWith constantsOnly formula)
      (Plain.Deck.lowerWith constantsOnly formula) (Stored limits held stray)
      (Failed limits held) := by
  intro w p ⟨hraised, g, hd, hmap⟩
  -- lowering works on a draft that is made of the forest and put back into the deck
  let scope : Lowering.Scope := { symbols := w.deck.symbols, pos := w.deck.pos, constantsOnly }
  have hscope : scope.plain = p.deck.symbols.loweringScope p.deck.pos constantsOnly := by
    rw [← hmap]
    unfold Lowering.Scope.plain Plain.Symbols.loweringScope
    congr 1
    · exact funext fun name => hd.constant? name
    · exact funext fun name => hd.contains_vars name
    · exact funext fun name => hd.contains_elements name
    · exact hd.pos
  have hlower := Lowering.mirrors_lower scope formula false
    { forest := w.deck.forest, raised := w.raised } p.raised ⟨hraised, hd.grove⟩
  rw [hscope] at hlower
  have hleft : (lowerWith constantsOnly formula).run w =
      let run := (Lowering.lower scope formula false).run ⟨w.deck.forest, w.raised⟩
      (run.1, { deck := { w.deck with forest := run.2.forest }, raised := run.2.raised }) := rfl
  rw [hleft, Plain.Deck.lowerWith, Plain.Deck.run_observe]
  rcases hlower with ⟨id, term, draft, raised, ha, hb, t, hid, hterm, hraised', hgrove⟩ |
    ⟨e, d, draft, raised, ha, hb, he, more, hraised', hgrove⟩
  · rw [ha, hb]
    refine .inl ⟨id, term, _, _, rfl, rfl, t, hid, hterm, hraised', g,
      { hd with grove := hgrove.perm ?_ }, hmap⟩
    exact List.perm_middle.symm
  · rw [ha, hb]
    exact .inr ⟨e, d, _, _, rfl, rfl, ⟨g, more, { hd with grove := hgrove }, hmap⟩,
      .inl he, fun _ => hraised'⟩

/-- Both sides are alike, and the tree stands in the forest. -/
def Holding (limits : Limits) (held : List Tree) (stray : Nat) (t : Tree) (w : Work)
    (p : Plain.Deck.Work) : Prop :=
  w.raised = p.raised ∧ ∃ g : Plain.Deck Tree, w.deck.Depicts limits g held stray ∧
    g.map Tree.term = p.deck ∧ t ∈ g.symbols.exprs ++ held

/-- The scope in which the expressions of the deck are evaluated. -/
def scope (deck : Deck) : Evaluation.Scope where
  forest := deck.forest
  symbols := deck.symbols
  pos := deck.pos

theorem Depicts.holds {deck : Deck} {g : Plain.Deck Tree} (hd : deck.Depicts limits g held stray)
    {t : Tree} (ht : t ∈ g.symbols.exprs ++ held) : deck.scope.Holds t where
  stands := hd.grove.stands t ht
  size_le := hd.grove.size_le ht

/-- An evaluation looks up the same on both sides. -/
theorem Depicts.agrees {deck : Deck} {g : Plain.Deck Tree}
    (hd : deck.Depicts limits g held stray) :
    deck.scope.Agrees (g.map Tree.term).scope where
  constant? := hd.constant?
  expr? name := by
    rcases hd.variable_cases name with ⟨hrecord, hterm⟩ | ⟨record, v, hrecord, hterm, hroot, hv⟩
    · exact .inl ⟨hrecord, congrArg (Option.map Plain.Variable.expr) hterm⟩
    · exact .inr ⟨record, v.expr, hrecord, congrArg (Option.map Plain.Variable.expr) hterm, hroot,
        hd.holds (List.mem_append_left _ hv)⟩
  length? name := by
    rcases hd.element_cases name with ⟨hrecord, hterm⟩ | ⟨record, e, hrecord, hterm, hview, he⟩
    · exact .inl ⟨hrecord, congrArg (Option.map Plain.Element.length?) hterm⟩
    · have hroot : record.length? = e.length?.map Tree.root := by
        rw [← record.length?_view, hview, Plain.Element.length?_map]
      have hplain : (g.map Tree.term).scope.length? name = some (e.length?.map Tree.term) := by
        have := congrArg (Option.map Plain.Element.length?) hterm
        rwa [Option.map_some, Plain.Element.length?_map] at this
      cases hlength : e.length? with
      | none =>
        rw [hlength] at hroot hplain
        exact .inr (.inl ⟨record, hrecord, hroot, hplain⟩)
      | some t =>
        rw [hlength] at hroot hplain
        have ht := he t (Plain.Element.mem_exprs_of_length? hlength)
        exact .inr (.inr ⟨record, t, hrecord, hroot, hplain,
          hd.holds (List.mem_append_left _ ht)⟩)
  pos := hd.pos

/-- The terms that the evaluation of a stored tree can come to are no more than the nodes of the
forest. -/
theorem Depicts.exists_pool {deck : Deck} {g : Plain.Deck Tree}
    (hd : deck.Depicts limits g held stray) {t : Tree} (ht : t ∈ g.symbols.exprs ++ held) :
    ∃ terms, t.term ∈ (g.map Tree.term).pool terms ∧
      ((g.map Tree.term).pool terms).length ≤ deck.forest.size ∧
      ((g.map Tree.term).pool terms).length ≤ (g.map Tree.term).size + t.term.size := by
  have hexprs : (g.map Tree.term).symbols.exprs = g.symbols.exprs.map Tree.term :=
    g.symbols.exprs_map Tree.term
  have hsize : (g.map Tree.term).size = (g.symbols.exprs.map Tree.size).sum := by
    rw [Plain.Deck.size, hexprs, List.map_map]
    congr 1
    exact List.map_congr_left fun t _ => t.size_term
  have hforest := hd.grove.size_eq
  rw [List.map_append, List.sum_append_nat] at hforest
  -- a tree of a record is counted with the records, a tree that is held besides them
  rcases List.mem_append.1 ht with ht | ht
  · refine ⟨[], Plain.Deck.mem_pool ?_, ?_, ?_⟩
    · rw [hexprs]
      exact List.mem_append_left _ (List.mem_map_of_mem ht)
    · rw [Plain.Deck.length_pool, hsize, List.map_nil, List.sum_nil]
      omega
    · rw [Plain.Deck.length_pool, List.map_nil, List.sum_nil]
      omega
  · refine ⟨[t.term], Plain.Deck.mem_pool (List.mem_append_right _ List.mem_cons_self), ?_, ?_⟩
    · obtain ⟨before, behind, rfl⟩ := List.append_of_mem ht
      rw [List.map_append, List.sum_append_nat, List.map_cons, List.sum_cons] at hforest
      rw [Plain.Deck.length_pool, hsize, List.map_singleton, List.sum_singleton, Tree.size_term]
      omega
    · exact Nat.le_of_eq (by rw [Plain.Deck.length_pool, List.map_singleton, List.sum_singleton])

/-- The levels that both sides leave to an evaluation come to the same. -/
theorem Depicts.run_visit_levels {deck : Deck} {g : Plain.Deck Tree}
    (hd : deck.Depicts limits g held stray) {t : Tree} (ht : t ∈ g.symbols.exprs ++ held) :
    ∃ levels, Evaluation.levels deck.scope limits.evalDepth =
        levels + (if limits.evalDepth = 0 then 0 else 1) ∧
      (limits.evalDepth ≠ 0 → levels = limits.evalDepth) ∧
      ∀ p : Plain.Progress, p.tripped = false →
        ((g.map Tree.term).scope.visit levels t.term).run p =
            ((g.map Tree.term).scope.visit ((g.map Tree.term).levels t.term) t.term).run p ∨
          limits.evalDepth = 0 ∧
            ∃ p' q', ((g.map Tree.term).scope.visit levels t.term).run p = (.error .endless, p') ∧
              ((g.map Tree.term).scope.visit ((g.map Tree.term).levels t.term) t.term).run p =
                (.error .endless, q') := by
  have hlimit : (g.map Tree.term).limits.evalDepth = limits.evalDepth :=
    congrArg Limits.evalDepth hd.plain_limits_eq
  unfold Evaluation.levels Plain.Deck.levels
  rw [hlimit]
  -- without a limit the two bounds differ, and both are large enough
  by_cases hzero : limits.evalDepth = 0
  · obtain ⟨terms, hmem, hforest, hsize⟩ := hd.exists_pool ht
    refine ⟨deck.forest.size + 1, ?_, fun hne => absurd hzero hne, fun p hp => ?_⟩
    · rw [if_pos hzero, if_pos hzero]
      rfl
    · rw [if_pos hzero]
      have hrun := Plain.EvaluationScope.run_visit_of_length_le (hlimit.trans hzero)
        ((g.map Tree.term).closed_pool terms) hmem (Nat.le_succ_of_le hforest) hsize hp
      exact hrun.imp id fun hend => ⟨hzero, hend⟩
  · refine ⟨limits.evalDepth, ?_, fun _ => rfl, fun p hp => ?_⟩
    · rw [if_neg hzero, if_neg hzero]
    · rw [if_neg hzero]
      exact .inl rfl

theorem run_evaluate (id : NodeId) (w : Work) :
    (evaluate id).run w =
      (((Evaluation.visitWithin w.deck.scope
          (Evaluation.levels w.deck.scope w.deck.limits.evalDepth) id).run
            { Evaluation.ofLimit w.deck.limits.evalDepth with raised := w.raised }).1,
        { w with raised := ((Evaluation.visitWithin w.deck.scope
          (Evaluation.levels w.deck.scope w.deck.limits.evalDepth) id).run
            { Evaluation.ofLimit w.deck.limits.evalDepth with raised := w.raised }).2.raised }) :=
  rfl

/-- Evaluating a stored tree mirrors evaluating its term. -/
theorem mirrors_evaluate (t : Tree) :
    Mirrors (Holding limits held stray t) (evaluate t.root) (Plain.Deck.evaluate t.term)
      (Returned limits held stray) (Failed limits held) := by
  rintro w ⟨_, raised⟩ ⟨hraised, g, hd, rfl, ht⟩
  dsimp only at hraised
  have hlimit : (g.map Tree.term).scope.limit = limits.evalDepth :=
    congrArg Limits.evalDepth hd.plain_limits_eq
  obtain ⟨levels, hlevels, hall, hrun⟩ := hd.run_visit_levels ht
  let start : Evaluation := { Evaluation.ofLimit limits.evalDepth with raised := w.raised }
  let plainStart : Plain.Progress := { tripped := false, raised }
  have hstart : Evaluation.Alike limits.evalDepth levels start plainStart := by
    refine ⟨rfl, hraised, rfl, ?_⟩
    split
    · rfl
    · rename_i hne
      change 0 + levels = _
      rw [hall hne, Nat.zero_add]
  have hvisit : Mirrors (Evaluation.Alike _ levels) _ _ _ _ :=
    Evaluation.mirrors_visitWithin hd.agrees (hd.holds ht)
  rw [hlimit, ← hlevels] at hvisit
  have hleft := run_evaluate t.root w
  rw [hd.limits_eq] at hleft
  have hright := Plain.Deck.run_evaluate t.term ⟨g.map Tree.term, raised⟩
  rw [hleft, hright]
  rcases hvisit start plainStart hstart with
    ⟨x, y, e', p', ha, hb, hxy, hs⟩ | ⟨e, d, e', p', ha, hb, herror, hs⟩
  · rcases hrun plainStart rfl with hsame | ⟨-, p'', -, hend, -⟩
    · rw [ha, ← hsame, hb]
      exact .inl ⟨x, y, _, _, rfl, rfl, hxy, hs.raised, g, hd, rfl⟩
    · rw [hb] at hend
      cases hend
  · rcases hrun plainStart rfl with hsame | ⟨hzero, p'', q'', hend, hend'⟩
    · rw [ha, ← hsame, hb]
      exact .inr ⟨e, d, _, _, rfl, rfl, ⟨g, stray, hd, rfl⟩, herror, fun _ => hs⟩
    · -- both are endless, however many levels they were left
      rw [hb] at hend
      obtain rfl : d = .endless := Except.error.inj (congrArg Prod.fst hend)
      rw [ha, hend']
      exact .inr ⟨e, .endless, _, _, rfl, rfl, ⟨g, stray, hd, rfl⟩, herror,
        fun h => absurd rfl h⟩

/-- A tree that is held stands in the forest. -/
theorem Alike.holding {t : Tree} (ht : t ∈ held) {w : Work} {p : Plain.Deck.Work}
    (h : Alike limits held stray w p) : Holding limits held stray t w p := by
  obtain ⟨hraised, g, hd, hmap⟩ := h
  exact ⟨hraised, g, hd, hmap, List.mem_append_right _ ht⟩

/-- Laying out a line mirrors laying it out by names. -/
theorem mirrors_layout (body : Line.Body) :
    Mirrors (Alike limits held stray) (layout body) (Plain.Deck.layout body)
      (Returned limits held stray) (Failed limits held) := by
  rintro w ⟨_, raised⟩ ⟨hraised, g, hd, rfl⟩
  dsimp only at hraised
  subst hraised
  let scope : Line.Body.Scope :=
    { symbols := w.deck.symbols, pos := w.deck.pos, limit := w.deck.limits.lineEntries }
  have hscope : scope.plain = { entriesOf := (g.map Tree.term).symbols.entriesOf
                                pos := (g.map Tree.term).pos
                                limit := (g.map Tree.term).limits.lineEntries } := by
    unfold Line.Body.Scope.plain
    congr 1
    · -- an element comes before a line of the same name on both sides
      funext name
      have hcontains := hd.contains_elements name
      have hline := hd.line? name
      unfold Line.entriesOf Symbols.resolve Plain.Symbols.entriesOf
      dsimp only [scope]
      rw [← hcontains, ← hline, ← Table.isSome_get?]
      cases w.deck.symbols.elements.get? name with
      | some record => rfl
      | none =>
        cases w.deck.symbols.lines.get? name with
        | some record => rfl
        | none => rfl
    · exact hd.pos
    · exact congrArg Limits.lineEntries (hd.limits_eq.trans hd.plain_limits_eq.symm)
  have hlayout := Line.Body.mirrors_layout scope body w.raised w.raised rfl
  rw [hscope] at hlayout
  have hleft : (layout body).run w = (((body.layout scope).run w.raised).1,
      { w with raised := ((body.layout scope).run w.raised).2 }) := rfl
  rw [hleft, Plain.Deck.layout, Plain.Deck.run_observe]
  rcases hlayout with ⟨x, y, raised, other, ha, hb, hxy, hs⟩ |
    ⟨e, d, raised, other, ha, hb, he, hs⟩
  · rw [ha, hb]
    exact .inl ⟨x, y, _, _, rfl, rfl, hxy, hs, g, hd, rfl⟩
  · rw [ha, hb]
    exact .inr ⟨e, d, _, _, rfl, rfl, ⟨g, stray, hd, rfl⟩, .inl he, fun _ => hs⟩

/-! ## The forest -/

/-- A node without operands can be stored. -/
theorem Depicts.alloc {deck : Deck} {g : Plain.Deck Tree} (hd : deck.Depicts limits g held stray)
    (t : Tree) (hoperands : t.operands = []) (hroot : t.root = (deck.forest.alloc t.node).1) :
    Depicts { deck with forest := (deck.forest.alloc t.node).2 } limits g (t :: held) stray := by
  have hgrove : Grove deck.forest (t.operands ++ (g.symbols.exprs ++ held)) stray := by
    rw [hoperands]
    exact hd.grove
  exact { hd with grove := (hgrove.alloc hroot).perm List.perm_middle.symm }

/-- A value is stored as a tree without operands. -/
theorem mirrors_alloc (value : Value) :
    Mirrors (Alike limits held stray) (alloc (.ofValue value)) (pure (Term.ofValue value))
      (Stored limits held stray) E := by
  rintro w p ⟨hraised, g, hd, hmap⟩
  cases value with
  | number x =>
    let t : Tree := .number (w.deck.forest.alloc (.number x)).1 x
    exact .inl ⟨t.root, _, _, _, rfl, rfl, t, rfl, rfl, hraised, g, hd.alloc t rfl rfl, hmap⟩
  | text content =>
    let t : Tree := .text (w.deck.forest.alloc (.text content)).1 content
    exact .inl ⟨t.root, _, _, _, rfl, rfl, t, rfl, rfl, hraised, g, hd.alloc t rfl rfl, hmap⟩

/-- A tree that is held can be released. -/
theorem mirrors_release (t : Tree) :
    Mirrors (Alike limits (t :: held) stray) (release t.root) (pure () : Plain.Deck.Action Unit)
      (fun _ _ => Alike limits held stray) E := by
  rintro w p ⟨hraised, g, hd, hmap⟩
  obtain ⟨left, hleft, hgrove⟩ := (hd.grove.perm List.perm_middle).release
  have hrun : (release t.root).run w =
      (((w.deck.forest.release t.root).1.map fun _ => ()).mapError .fault,
        { w with deck := { w.deck with forest := (w.deck.forest.release t.root).2 } }) := rfl
  rw [hrun, hleft]
  exact .inl ⟨_, _, _, _, rfl, rfl, hraised, g, { hd with grove := hgrove }, hmap⟩

/-- A tree that was replaced is released, if there was one. -/
theorem mirrors_releaseReplaced (previous : Option Tree) :
    Mirrors (Alike limits (previous.toList ++ held) stray)
      (releaseReplaced (previous.map Tree.root)) (pure () : Plain.Deck.Action Unit)
      (fun _ _ => Alike limits held stray) E := by
  cases previous with
  | none => exact Mirrors.of_pure fun _ _ h => h
  | some t => exact mirrors_release t

/-! ## The tables -/

theorem run_onTable {α β : Type} [Record α] {get : Symbols → Table α}
    {set : Table α → Symbols → Symbols}
    {step : Table α → Forest → Except Expr.Fault β × Table α × Forest}
    {w : Work} {x : β} {t : Table α} {left : Forest}
    (h : step (get w.deck.symbols) w.deck.forest = (.ok x, t, left)) :
    (onTable get set step).run w =
      (.ok x,
        { w with deck := { w.deck with symbols := set t w.deck.symbols, forest := left } }) := by
  have hrun : (onTable get set step).run w =
      ((step (get w.deck.symbols) w.deck.forest).1.mapError .fault,
        { w with deck := { w.deck with
            symbols := set (step (get w.deck.symbols) w.deck.forest).2.1 w.deck.symbols
            forest := (step (get w.deck.symbols) w.deck.forest).2.2 } }) := rfl
  rw [hrun, h]
  rfl

section Tables

variable {α β γ : Type} [Record α] [Plain.Named β] [Plain.Named γ] {π : Portrayal α β γ}

/-- Storing a record mirrors a change of the plain symbols that puts it first. -/
theorem mirrors_insert (ns : Namespace π) {a : α} {c : γ} (hac : π.view a = π.sketch c)
    {f : Plain.Symbols Term → Plain.Symbols Term}
    (hf : ∀ g : Plain.Symbols Tree, f (g.map Tree.term) =
      (ns.setPlain (Plain.Table.insert c (ns.plain g)) g).map Tree.term) :
    Mirrors (Alike limits (π.trees c ++ held) stray)
      (discard (onTable ns.table ns.setTable (Table.insert a))) (Plain.Deck.changeSymbols f)
      (fun _ _ => Alike limits held stray) E := by
  refine Mirrors.discarded ?_
  rintro w ⟨_, raised⟩ ⟨hraised, g, hd, rfl⟩
  obtain ⟨replaced, t, left, hrun, hd'⟩ := ns.insert hac hd
  refine .inl ⟨_, _, _, _, run_onTable hrun, rfl, hraised, _, hd', ?_⟩
  exact congrArg (fun symbols => { g.map Tree.term with symbols }) (hf g.symbols).symm

/-- Removing a record mirrors a change of the plain symbols that strikes it out. -/
theorem mirrors_remove (ns : Namespace π) (name : Name)
    (f : Plain.Symbols Term → Plain.Symbols Term) (contains : Plain.Symbols Term → Bool)
    (hf : ∀ g : Plain.Symbols Tree, f (g.map Tree.term) =
      (ns.setPlain (Plain.Table.without name (ns.plain g)) g).map Tree.term)
    (hcontains : ∀ g : Plain.Symbols Tree, contains (g.map Tree.term) =
      Plain.Table.contains (ns.plain g) name) :
    Mirrors (Alike limits held stray) (onTable ns.table ns.setTable (Table.remove name))
      (do
        let isDefined := contains (← Plain.Deck.current).symbols
        Plain.Deck.changeSymbols f
        return isDefined)
      (Returned limits held stray) E := by
  rintro w ⟨_, raised⟩ ⟨hraised, g, hd, rfl⟩
  obtain ⟨fewer, left, hrun, hd'⟩ := ns.remove hd name
  refine .inl ⟨_, _, _, _, run_onTable hrun, rfl, (hcontains g.symbols).symm, hraised, _, hd', ?_⟩
  exact congrArg (fun symbols => { g.map Tree.term with symbols }) (hf g.symbols).symm

end Tables

theorem mirrors_insertConstant {record : Constant} {c : Plain.Constant Tree}
    (h : Portrayal.consts.view record = Portrayal.consts.sketch c) :
    Mirrors (Alike limits (c.source :: held) stray) (discard (insertConstant record))
      (Plain.Deck.insertConstant (c.map Tree.term)) (fun _ _ => Alike limits held stray) E :=
  mirrors_insert Namespace.consts h fun g =>
    congrArg (fun consts => { g.map Tree.term with consts })
      (Plain.Table.insert_map (Plain.Constant.name_map Tree.term) g.consts c)

theorem mirrors_insertVariable {record : Variable} {v : Plain.Variable Tree}
    (h : Portrayal.vars.view record = Portrayal.vars.sketch v) :
    Mirrors (Alike limits (v.expr :: held) stray) (discard (insertVariable record))
      (Plain.Deck.insertVariable (v.map Tree.term)) (fun _ _ => Alike limits held stray) E :=
  mirrors_insert Namespace.vars h fun g =>
    congrArg (fun vars => { g.map Tree.term with vars })
      (Plain.Table.insert_map (Plain.Variable.name_map Tree.term) g.vars v)

theorem mirrors_insertElement {record : Element} {e : Plain.Element Tree}
    (h : Portrayal.elements.view record = Portrayal.elements.sketch e) :
    Mirrors (Alike limits (e.exprs ++ held) stray) (discard (insertElement record))
      (Plain.Deck.insertElement (e.map Tree.term)) (fun _ _ => Alike limits held stray) E :=
  mirrors_insert Namespace.elements h fun g =>
    congrArg (fun elements => { g.map Tree.term with elements })
      (Plain.Table.insert_map (Plain.Element.name_map Tree.term) g.elements e)

theorem mirrors_insertLine (record : Line) :
    Mirrors (Alike limits held stray) (discard (insertLine record)) (Plain.Deck.insertLine record)
      (fun _ _ => Alike limits held stray) E :=
  mirrors_insert Namespace.lines (c := record) rfl fun _ => rfl

theorem mirrors_removeElement (name : Name) :
    Mirrors (Alike limits held stray) (removeElement name) (Plain.Deck.removeElement name)
      (Returned limits held stray) E :=
  mirrors_remove Namespace.elements name
    (fun symbols => { symbols with elements := Plain.Table.without name symbols.elements })
    (fun symbols => Plain.Table.contains symbols.elements name)
    (fun g => congrArg (fun elements => { g.map Tree.term with elements })
      (Plain.Table.without_map (Plain.Element.name_map Tree.term) g.elements name))
    fun g => Plain.Table.contains_map (Plain.Element.name_map Tree.term) g.elements name

theorem mirrors_removeLine (name : Name) :
    Mirrors (Alike limits held stray) (removeLine name) (Plain.Deck.removeLine name)
      (Returned limits held stray) E :=
  mirrors_remove Namespace.lines name
    (fun symbols => { symbols with lines := Plain.Table.without name symbols.lines })
    (fun symbols => Plain.Table.contains symbols.lines name) (fun _ => rfl) fun _ => rfl

end Beamline.Deck
