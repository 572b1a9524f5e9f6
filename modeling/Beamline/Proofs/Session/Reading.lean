import Beamline.Proofs.Portrait.Reading
import Beamline.Proofs.Session.Lockstep
import Beamline.Proofs.Session.Ownership

/-!
# Reading a session

What a session stores is what the plain session keeps that it stands for: the records with their
terms, and behind each root the term of the record or of the formula stored on request.

* `Session.Alike.reading_eq`: the records that are read.
* `Session.Alike.map_read_roots`: the terms behind the roots.
-/

namespace Beamline

open Beamline.Expr (Fault NodeId Term Tree)

/-- The roots are the expressions of the records. -/
theorem Deck.roots_eq_exprs_view (deck : Deck) : deck.roots = deck.symbols.view.exprs := by
  unfold roots Symbols.view Plain.Symbols.exprs
  rw [List.map_map, List.map_map, List.flatMap_map, List.map_eq_flatMap, List.map_eq_flatMap]
  congr 1
  exact congrArg (List.flatMap · _) (funext Element.owned_eq_exprs_view)

namespace Session

variable {limits : Limits} {stray : Nat} {same : Prop} {s : Session} {p : Plain.Session}

/-- What is read from the deck are the records of the plain deck. -/
theorem Alike.reading_eq (hs : Alike limits stray same s p) :
    s.interpreter.deck.reading = p.interpreter.deck.symbols.map .ok := by
  obtain ⟨trees, ⟨⟨g, hd, hmap⟩, -⟩, -⟩ := hs
  rw [← hmap]
  exact hd.reading_eq

/-- What is read behind the issued handles are the terms that the plain session has kept. -/
theorem Alike.map_read_issued (hs : Alike limits stray same s p) :
    s.issued.map s.interpreter.deck.forest.read = p.issued.map .ok := by
  obtain ⟨trees, ⟨⟨g, hd, -⟩, -⟩, hissued, hplain⟩ := hs
  rw [hissued, hplain, List.map_map, List.map_map]
  exact List.map_congr_left fun t ht => hd.grove.read (List.mem_append_right _ ht)

/-- What is read behind the roots are the terms of the plain records and those kept on request. -/
theorem Alike.map_read_roots (hs : Alike limits stray same s p) :
    s.roots.map s.interpreter.deck.forest.read =
      (p.interpreter.deck.symbols.exprs ++ p.issued).map .ok := by
  rw [roots, List.map_append, List.map_append, hs.map_read_issued, Deck.roots_eq_exprs_view,
    ← Plain.Symbols.exprs_map, ← Plain.Symbols.exprs_map]
  exact congrArg (fun symbols => Plain.Symbols.exprs symbols ++ _) hs.reading_eq

/-- Behind every root there is a term of the plain session. -/
theorem Alike.exists_read (hs : Alike limits stray same s p) {id : NodeId} (h : id ∈ s.roots) :
    ∃ t ∈ p.interpreter.deck.symbols.exprs ++ p.issued,
      s.interpreter.deck.forest.read id = .ok t := by
  have hread : s.interpreter.deck.forest.read id ∈
      s.roots.map s.interpreter.deck.forest.read := List.mem_map_of_mem h
  rw [hs.map_read_roots] at hread
  obtain ⟨t, ht, heq⟩ := List.mem_map.1 hread
  exact ⟨t, ht, heq.symm⟩

/-- Behind some root there is each term of the plain session. -/
theorem Alike.exists_root (hs : Alike limits stray same s p) {t : Term}
    (h : t ∈ p.interpreter.deck.symbols.exprs ++ p.issued) :
    ∃ id ∈ s.roots, s.interpreter.deck.forest.read id = .ok t := by
  have hread : (.ok t : Except Fault Term) ∈
      (p.interpreter.deck.symbols.exprs ++ p.issued).map .ok := List.mem_map_of_mem h
  rw [← hs.map_read_roots] at hread
  exact List.mem_map.1 hread

/-! ## Agreement -/

theorem Alike.constantValue?_eq (hs : Alike limits stray same s p) (raw : String) :
    s.interpreter.deck.constantValue? raw =
      p.interpreter.deck.scope.constant? (Name.ofText raw) := by
  obtain ⟨trees, ⟨⟨g, hd, hmap⟩, -⟩, -⟩ := hs
  rw [← hmap]
  exact hd.constant? (Name.ofText raw)

theorem Alike.contains_consts (hs : Alike limits stray same s p) (name : Name) :
    s.interpreter.deck.symbols.consts.contains name =
      p.interpreter.deck.symbols.consts.contains name := by
  obtain ⟨trees, ⟨⟨g, hd, hmap⟩, -⟩, -⟩ := hs
  rw [← hmap]
  exact hd.contains_consts name

theorem Alike.contains_vars (hs : Alike limits stray same s p) (name : Name) :
    s.interpreter.deck.symbols.vars.contains name =
      p.interpreter.deck.symbols.vars.contains name := by
  obtain ⟨trees, ⟨⟨g, hd, hmap⟩, -⟩, -⟩ := hs
  rw [← hmap]
  exact hd.contains_vars name

theorem Alike.limits_eq (hs : Alike limits stray same s p) :
    p.interpreter.deck.limits = limits := by
  obtain ⟨trees, ⟨⟨g, hd, hmap⟩, -⟩, -⟩ := hs
  rw [← hmap]
  exact hd.plain_limits_eq

/-- Terms are evaluated in the scope of the plain deck. -/
theorem Alike.scope_eq (hs : Alike limits stray same s p) :
    p.interpreter.deck.symbols.evaluationScope s.interpreter.deck.pos
      s.interpreter.deck.limits.evalDepth = p.interpreter.deck.scope := by
  obtain ⟨trees, ⟨⟨g, hd, hmap⟩, -⟩, -⟩ := hs
  rw [← hmap, show s.interpreter.deck.pos = (g.map Tree.term).pos from hd.pos,
    hd.limits_eq, ← hd.plain_limits_eq]
  rfl

/-- The session answers as the plain session does if that ends in no evaluation without end. -/
theorem Alike.answer_eq (hs : Alike limits stray same s p) {request : Request}
    (hend : (p.step request).1.error? ≠ some Plain.Error.endless.fatal) :
    (s.step request).1 = (p.step request).1 ∧ ∃ more same',
      Alike limits more same' (s.step request).2 (p.step request).2 := by
  cases served request hs with
  | done hanswer _ halike => exact ⟨hanswer, _, _, halike⟩
  | failed hanswer _ _ _ more halike => exact ⟨hanswer, _, _, halike⟩
  | endless _ hanswer => exact absurd hanswer hend

/-- An evaluation that fails for a text fails in the same way on the plain deck. -/
theorem Alike.exists_run_evaluate (hs : Alike limits stray same s p) {id : NodeId}
    (hid : id ∈ s.roots) {symbol : String} {pos : Source.Position} {it : Interpreter}
    (h : (Interpreter.evaluate id).run s.interpreter =
      (.error (.textInArithmetic symbol pos), it)) :
    ∃ t ∈ p.interpreter.deck.symbols.exprs ++ p.issued,
      s.interpreter.deck.forest.read id = .ok t ∧
      ((Plain.Deck.evaluate t).run ⟨p.interpreter.deck, #[]⟩).1 =
        .error (.textInArithmetic symbol pos) := by
  obtain ⟨trees, ⟨⟨g, hd, hmap⟩, -⟩, hissued, hplain⟩ := hs
  -- the handle is the root of a tree that the deck holds
  rw [roots, hd.roots_eq, hissued, ← List.map_append] at hid
  obtain ⟨t, ht, rfl⟩ := List.mem_map.1 hid
  have hterm : t.term ∈ p.interpreter.deck.symbols.exprs ++ p.issued := by
    rw [← hmap, hplain]
    have hexprs := Plain.Symbols.exprs_map Tree.term g.symbols
    change t.term ∈ (g.symbols.map Tree.term).exprs ++ _
    rw [hexprs, ← List.map_append]
    exact List.mem_map_of_mem ht
  refine ⟨t.term, hterm, hd.grove.read ht, ?_⟩
  rw [Interpreter.evaluate_eq_perform, Interpreter.run_perform] at h
  rcases Deck.mirrors_evaluate t ⟨s.interpreter.deck, #[]⟩ ⟨p.interpreter.deck, #[]⟩
      ⟨rfl, g, hd, hmap, ht⟩ with
    ⟨x, y, w, q, ha, hb, -⟩ | ⟨e, d, w, q, ha, hb, -, hed, -⟩
  · rw [ha] at h
    cases h
  · rw [ha] at h
    obtain rfl : e = .textInArithmetic symbol pos := Except.error.inj (congrArg Prod.fst h)
    rw [hb]
    rcases hed with ⟨hfatal, -⟩ | ⟨-, -, _, hfault⟩
    · cases d <;> cases hfatal
      rfl
    · cases hfault

/-- A plain query that comes to a value is answered with it. -/
theorem Alike.answer_of_value (hs : Alike limits stray same s p) {request : Request}
    {o : Option Value} (h : (p.step request).1 = .value (.ok o)) :
    (s.step request).1 = .value (.ok o) := by
  have hend : (p.step request).1.error? ≠ some Plain.Error.endless.fatal := by
    rw [h]
    nofun
  exact (hs.answer_eq hend).1.trans h

end Session

end Beamline
