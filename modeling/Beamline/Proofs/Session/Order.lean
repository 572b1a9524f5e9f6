import Beamline.Proofs.Plain.Deferral
import Beamline.Proofs.Portrait.Reading
import Beamline.Proofs.Session.Lockstep

/-!
# Definitions in any order

Definitions that are not evaluated can be made in any order, as long as no two are about the same
name. Handles, the order in which records lie in their tables and the warnings on the way depend on
the order; what is stored under each name, and every value that is asked for later, does not. This
is so also where the definitions refer to each other, forwards or in cycles.

* `Plain.Interpreter.run_deferrals`: what a list of definitions does.
* `Session.run_perm`: the order of definitions, in every session.
-/

namespace Beamline

open Source (Position)
open Beamline.Expr (Term Tree)

/-! ## Plain interpreters -/

namespace Plain

namespace Interpreter

variable {constant? : Name → Option Value} {active : Bool} {made? : Deferral → Option Made}

theorem exists_run_apply {statement : Statement} {p : Interpreter} {w : Deck.Work}
    {outcome : Except Error Unit}
    (h : (Deck.apply statement).run ⟨p.deck, #[]⟩ = (outcome, w)) :
    ∃ console, (apply statement).run p = (outcome.mapError Error.fatal, ⟨w.deck, console⟩) := by
  rw [apply, run_perform, h]
  exact ⟨_, rfl⟩

/-- A list of definitions stores what each of them makes, unless one of them fails. -/
theorem run_deferrals (hmade : ∀ d, Deck.Makes constant? active d (made? d))
    (defs : List Deferral) (p : Interpreter)
    (hconsts : ∀ name, (p.deck.symbols.consts.get? name).map Constant.value = constant? name)
    (hactive : p.deck.commentary.isActive = active) :
    ((∀ d ∈ defs, (made? d).isSome) ∧
        ∃ p', (run (defs.map Deferral.statement)).run p = (.ok (), p') ∧
          p'.deck.symbols = (defs.filterMap made?).foldl Made.store p.deck.symbols ∧
          p'.deck.limits = p.deck.limits) ∨
      ∃ d ∈ defs, made? d = none ∧
        ∃ e p', (run (defs.map Deferral.statement)).run p = (.error e, p') := by
  induction defs generalizing p with
  | nil => exact .inl ⟨nofun, p, rfl, rfl, rfl⟩
  | cons d defs ih =>
    have happly := hmade d ⟨p.deck, #[]⟩ hconsts hactive
    unfold Deck.Stores at happly
    cases hcase : made? d with
    | none =>
      rw [hcase] at happly
      obtain ⟨e, w, hrun⟩ := happly
      obtain ⟨console, hrun⟩ := exists_run_apply hrun
      exact .inr ⟨d, List.mem_cons_self, hcase, _, _, run_bind_of_error hrun _⟩
    | some m =>
      rw [hcase] at happly
      obtain ⟨raised, hrun⟩ := happly
      obtain ⟨console, hrun⟩ := exists_run_apply hrun
      let next : Interpreter :=
        ⟨{ p.deck with symbols := m.store p.deck.symbols, pos := d.pos }, console⟩
      have hrest : (run ((d :: defs).map Deferral.statement)).run p =
          (run (defs.map Deferral.statement)).run next := run_bind_of_ok hrun _
      -- neither a variable nor an element changes the constants
      have hconsts' (name : Name) :
          (next.deck.symbols.consts.get? name).map Constant.value = constant? name := by
        rw [show next.deck.symbols.consts = p.deck.symbols.consts from Made.consts_store]
        exact hconsts name
      rw [hrest, List.filterMap_cons_some hcase, List.foldl_cons]
      rcases ih next hconsts' hactive with ⟨hsome, p', hp', hsymbols, hlimits⟩ |
        ⟨d', hmem, hnone, hfail⟩
      · refine .inl ⟨fun d' hd' => ?_, p', hp', hsymbols, hlimits⟩
        rcases List.mem_cons.1 hd' with rfl | hd'
        · rw [hcase]
          rfl
        · exact hsome d' hd'
      · exact .inr ⟨d', List.mem_cons_of_mem _ hmem, hnone, hfail⟩

/-- Definitions of different names can be made in any order. -/
theorem run_deferrals_perm {defs permuted : List Deferral} (hperm : defs.Perm permuted)
    (hdistinct : (defs.map Deferral.key).Nodup) {p p' : Interpreter}
    (hrun : (run (defs.map Deferral.statement)).run p = (.ok (), p')) :
    ∃ p'', (run (permuted.map Deferral.statement)).run p = (.ok (), p'') ∧
      p'.deck.symbols.SameUpToOrder p''.deck.symbols ∧ p'.deck.limits = p''.deck.limits := by
  let constant? (name : Name) : Option Value :=
    (p.deck.symbols.consts.get? name).map Constant.value
  -- what each definition makes is settled before any of them is made
  choose made? hkey hmade using Deck.exists_makes constant? p.deck.commentary.isActive
  obtain ⟨hsome, hsymbols, hlimits⟩ : (∀ d ∈ defs, (made? d).isSome) ∧
      p'.deck.symbols = (defs.filterMap made?).foldl Made.store p.deck.symbols ∧
        p'.deck.limits = p.deck.limits := by
    rcases run_deferrals hmade defs p (fun _ => rfl) rfl with ⟨hsome, q, hq, h⟩ |
      ⟨d, hd, hnone, e, q, hq⟩
    · obtain rfl : q = p' := congrArg Prod.snd (hq.symm.trans hrun)
      exact ⟨hsome, h⟩
    · cases hq.symm.trans hrun
  rcases run_deferrals hmade permuted p (fun _ => rfl) rfl with
    ⟨-, p'', hp'', hsymbols', hlimits'⟩ | ⟨d, hd, hnone, -⟩
  · refine ⟨p'', hp'', ?_, hlimits.trans hlimits'.symm⟩
    rw [hsymbols, hsymbols']
    refine Made.foldl_store_perm (hperm.filterMap made?) ?_ p.deck.symbols
    -- what two definitions make is of different keys, as their keys differ
    rw [List.pairwise_filterMap]
    refine (List.pairwise_map.1 hdistinct).imp fun {d d'} hne m hm m' hm' => ?_
    exact ⟨d.key, d'.key, hkey d m hm, hkey d' m' hm', hne⟩
  · have := hsome d (hperm.mem_iff.2 hd)
    rw [hnone] at this
    cases this

end Interpreter

end Plain

/-! ## Values -/

/-- The error without its position. An evaluation without end may be blamed on any handle. -/
def FatalError.unplaced : FatalError → FatalError
  | .textInArithmetic symbol _ => .textInArithmetic symbol Position.unread
  | .lineTooLong limit _ => .lineTooLong limit Position.unread
  | .fault (.stale h) => .fault (.stale h)
  | .fault (.endless _) => .fault (.endless ⟨0, 0⟩)

theorem Plain.Error.fatal_unplaced (d : Plain.Error) : d.unplaced.fatal = d.fatal.unplaced := by
  cases d <;> rfl

namespace Interpreter

/-- Both interpreters give the same values, and the same errors but for their positions. -/
structure SameValues (it it' : Interpreter) : Prop where
  /-- The values of variables. -/
  variableValue_eq : ∀ raw, ((variableValue raw).run it).1.mapError FatalError.unplaced =
    ((variableValue raw).run it').1.mapError FatalError.unplaced
  /-- The values of attributes. -/
  attributeValue_eq : ∀ raw key,
    ((attributeValue raw key).run it).1.mapError FatalError.unplaced =
      ((attributeValue raw key).run it').1.mapError FatalError.unplaced
  /-- The values of entries of transfer maps. -/
  entryValue_eq : ∀ raw index, ((entryValue raw index).run it).1.mapError FatalError.unplaced =
    ((entryValue raw index).run it').1.mapError FatalError.unplaced
  /-- The lengths of elements. -/
  elementLength_eq : ∀ raw, ((elementLength raw).run it).1.mapError FatalError.unplaced =
    ((elementLength raw).run it').1.mapError FatalError.unplaced

/-- Both interpreters hold the same, but for handles and for the order of variables and
elements. -/
def SameUpToOrder (it it' : Interpreter) : Prop :=
  ∃ symbols symbols' : Plain.Symbols Term, it.deck.reading = symbols.map Except.ok ∧
    it'.deck.reading = symbols'.map Except.ok ∧ symbols.SameUpToOrder symbols'

variable {limits : Limits} {trees trees' : List Tree} {stray stray' : Nat} {same same' : Prop}
  {it it' : Interpreter} {p p' : Plain.Interpreter}

/-- The outcome of a query, told by the plain deck. -/
theorem Alike.outcome_eq {α : Type} {a : Deck.Action α} {b : Plain.Deck.Action α}
    (hs : Alike limits trees stray same it p)
    (h : Mirrors (Deck.Alike limits trees stray) a b (Deck.Returned limits trees stray)
      (Deck.Failed limits trees)) :
    ((perform a).run it).1.mapError FatalError.unplaced =
      ((b.run ⟨p.deck, #[]⟩).1.mapError Plain.Error.unplaced).mapError Plain.Error.fatal := by
  rw [run_perform]
  -- errors agree but for the handle that an endless evaluation is blamed on
  rcases h ⟨it.deck, #[]⟩ ⟨p.deck, #[]⟩ ⟨rfl, hs.deck⟩ with
    ⟨x, y, w, q, ha, hb, rfl, -⟩ | ⟨e, d, w, q, ha, hb, -, herror, -⟩
  · rw [ha, hb]
    rfl
  · rw [ha, hb]
    refine congrArg Except.error ?_
    rw [Plain.Error.fatal_unplaced]
    rcases herror with ⟨rfl, -⟩ | ⟨-, rfl, k, rfl⟩
    · rfl
    · rfl

/-- Interpreters whose plain decks are the same up to order give the same values. -/
theorem sameValues (hs : Alike limits trees stray same it p)
    (hs' : Alike limits trees' stray' same' it' p') (h : p.deck.SameUpToOrder p'.deck) :
    it.SameValues it' where
  variableValue_eq raw := by
    rw [variableValue_eq_perform, hs.outcome_eq (Deck.mirrors_variableValue raw),
      hs'.outcome_eq (Deck.mirrors_variableValue raw), h.outcome_variableValue]
  attributeValue_eq raw key := by
    rw [attributeValue_eq_perform, hs.outcome_eq (Deck.mirrors_attributeValue raw key),
      hs'.outcome_eq (Deck.mirrors_attributeValue raw key), h.outcome_attributeValue]
  entryValue_eq raw index := by
    rw [entryValue_eq_perform, hs.outcome_eq (Deck.mirrors_entryValue raw index),
      hs'.outcome_eq (Deck.mirrors_entryValue raw index), h.outcome_entryValue]
  elementLength_eq raw := by
    rw [elementLength_eq_perform, hs.outcome_eq (Deck.mirrors_elementLength raw),
      hs'.outcome_eq (Deck.mirrors_elementLength raw), h.outcome_elementLength]

/-- The plain deck of an interpreter has no name twice. -/
theorem Alike.deck_sameUpToOrder (hs : Alike limits trees stray same it p)
    (h : p.deck.symbols.SameUpToOrder p'.deck.symbols) (hlimits : p.deck.limits = p'.deck.limits) :
    p.deck.SameUpToOrder p'.deck := by
  -- the names are those of the tables of the deck, in which none occurs twice
  obtain ⟨g, hd, hmap⟩ := hs.deck
  refine ⟨h, hlimits, ?_, ?_⟩
  · have hvars : p.deck.symbols.vars = g.symbols.vars.map (Plain.Variable.map Tree.term) := by
      rw [← hmap]
      rfl
    rw [hvars, List.map_map]
    exact hd.symbols.vars.nodup_names
  · have helements : p.deck.symbols.elements =
        g.symbols.elements.map (Plain.Element.map Tree.term) := by
      rw [← hmap]
      rfl
    rw [helements, List.map_map]
    exact hd.symbols.elements.nodup_names

theorem Alike.sameUpToOrder (hs : Alike limits trees stray same it p)
    (hs' : Alike limits trees' stray' same' it' p')
    (h : p.deck.symbols.SameUpToOrder p'.deck.symbols) : it.SameUpToOrder it' := by
  obtain ⟨g, hd, hmap⟩ := hs.deck
  obtain ⟨g', hd', hmap'⟩ := hs'.deck
  refine ⟨p.deck.symbols, p'.deck.symbols, ?_, ?_, h⟩
  · rw [hd.reading_eq, hmap]
  · rw [hd'.reading_eq, hmap']

end Interpreter

/-! ## Sessions -/

namespace Session

/-- Definitions of different names can be made in any order: if none fails in one order, none does
in another, and what is stored and every value asked for later are the same. -/
theorem run_perm (config : Config) (requests : List Request) {defs permuted : List Deferral}
    (hperm : defs.Perm permuted) (hdistinct : (defs.map Deferral.key).Nodup) {it' : Interpreter}
    (hrun : (Interpreter.run (defs.map Deferral.statement)).run
      ((ofConfig config).after requests).interpreter = (.ok (), it')) :
    ∃ it'', (Interpreter.run (permuted.map Deferral.statement)).run
        ((ofConfig config).after requests).interpreter = (.ok (), it'') ∧
      it'.SameUpToOrder it'' ∧ it'.SameValues it'' := by
  obtain ⟨stray, same, ⟨trees, hs, -⟩, -⟩ := alike_after requests (alike_ofConfig config)
  -- the plain interpreter makes the definitions in the first order, hence in the other one
  obtain ⟨p', hplain, hs'⟩ : ∃ p', (Plain.Interpreter.run (defs.map Deferral.statement)).run
      ((Plain.Session.ofConfig config).after requests).interpreter = (.ok (), p') ∧
        Interpreter.Alike config.limits trees stray same it' p' := by
    rcases Interpreter.mirrors_run (defs.map Deferral.statement) _ _ hs with
      ⟨x, y, q, p', ha, hb, -, hs'⟩ | ⟨e, d, q, p', ha, -⟩
    · obtain rfl : q = it' := congrArg Prod.snd (ha.symm.trans hrun)
      exact ⟨p', hb, hs'⟩
    · cases ha.symm.trans hrun
  obtain ⟨p'', hplain', hsymbols, hlimits⟩ :=
    Plain.Interpreter.run_deferrals_perm hperm hdistinct hplain
  rcases Interpreter.mirrors_run (permuted.map Deferral.statement) _ _ hs with
    ⟨x, y, it'', q, ha, hb, -, hs''⟩ | ⟨e, d, q, q', -, hb, -⟩
  · obtain rfl : q = p'' := congrArg Prod.snd (hb.symm.trans hplain')
    have hdeck := hs'.deck_sameUpToOrder hsymbols hlimits
    exact ⟨it'', ha, hs'.sameUpToOrder hs'' hsymbols, Interpreter.sameValues hs' hs'' hdeck⟩
  · cases hb.symm.trans hplain'

/-- Two variables and the length of an element between them, which refer to each other in a
cycle. -/
theorem run_perm_of_cycle :
    let defs : List Deferral :=
      [.variable "X" (.binary .add (.lengthOf "m") (.number 1.0)) Position.unread,
        .element "M" .drift [.assign "L" (.name "Y"), .flag "L"] Position.unread,
        .variable "Y" (.name "x") Position.unread]
    let it := ((ofConfig {}).after []).interpreter
    ∃ it' it'', (Interpreter.run (defs.map Deferral.statement)).run it = (.ok (), it') ∧
      (Interpreter.run (defs.reverse.map Deferral.statement)).run it = (.ok (), it'') ∧
        it'.SameUpToOrder it'' ∧ it'.SameValues it'' := by
  intro defs it
  have hdistinct : (defs.map Deferral.key).Nodup := by decide +kernel
  have hok : ((Interpreter.run (defs.map Deferral.statement)).run it).1.isOk = true := by
    decide +kernel
  obtain ⟨it', hrun⟩ : ∃ it',
      (Interpreter.run (defs.map Deferral.statement)).run it = (.ok (), it') := by
    generalize (Interpreter.run (defs.map Deferral.statement)).run it = run at hok
    obtain ⟨_ | _, it'⟩ := run
    · cases hok
    · exact ⟨it', rfl⟩
  obtain ⟨it'', hpermuted, hsame⟩ :=
    run_perm {} [] (List.reverse_perm defs).symm hdistinct hrun
  exact ⟨it', it'', hrun, hpermuted, hsame⟩

end Session

end Beamline
