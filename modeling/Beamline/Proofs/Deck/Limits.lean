import Beamline.Proofs.Deck.Raised
import Beamline.Proofs.Plain.Limits
import Beamline.Proofs.Portrait.Definition
import Beamline.Proofs.Session.Reading

/-!
# Actions under limits that leave more room

The limits of a deck matter where an evaluation comes to the limit on the depth, which raises a
warning, and where a repetition comes to the limit on the length, which is an error. An action that
meets neither does exactly the same with limits that leave more room: it comes to the same result
or the same error, raises the same and leaves the same deck but for the limits.

* `Deck.Indifferent`: actions that do the same, with rules that follow how actions are put together.
* `Deck.indifferent_evaluate`, `Deck.indifferent_layout`: the actions that look at the limits.
* `Deck.indifferent_apply`: statements.
-/

namespace Beamline

open Diagnostic (Condition)
open Source (Position)
open Beamline.Expr (Fault Forest Formula NodeId Term Tree)

/-! ## Repetitions -/

namespace Line

theorem bound_le_of_allows {limit more : Nat} (h : Limits.Allows limit more) :
    bound limit ≤ bound more := by
  unfold bound
  rcases h with rfl | ⟨hne, hle⟩
  · rw [if_pos rfl]
    split
    · exact Nat.le_refl _
    · exact Nat.min_le_right _ _
  · rw [if_neg hne, if_neg (by omega)]
    omega

theorem repeat?_of_allows {count : String} {entries result : List Entry} {limit more : Nat}
    (hallows : Limits.Allows limit more) (h : repeat? count entries limit = .ok result) :
    repeat? count entries more = .ok result := by
  obtain ⟨hle, hresult⟩ := repeat?_eq_ok_iff.1 h
  exact repeat?_eq_ok_iff.2 ⟨Nat.le_trans hle (bound_le_of_allows hallows), hresult⟩

namespace Body

/-- Where the first step fails at no repetition, the second does the same. -/
def Below {α : Type} (a b : Step α) : Prop :=
  ∀ raised, (∀ e, (a.run raised).1 = .error e → ¬e.IsOverflow) → b.run raised = a.run raised

namespace Below

variable {α β : Type} {a b : Step α}

theorem refl (a : Step α) : Below a a :=
  fun _ _ => rfl

theorem bind {f g : α → Step β} (h : Below a b) (hf : ∀ x, Below (f x) (g x)) :
    Below (a >>= f) (b >>= g) := by
  intro raised hlong
  rcases ha : a.run raised with ⟨x | x, raised'⟩
  · rw [run_bind_of_error ha] at hlong ⊢
    have hb := h raised fun e he => hlong e (by rw [ha] at he; cases he; rfl)
    exact run_bind_of_error (hb.trans ha) g
  · have hb := (h raised (by rw [ha]; nofun)).trans ha
    rw [run_bind_of_ok ha] at hlong ⊢
    rw [run_bind_of_ok hb]
    exact hf x raised' hlong

end Below

variable {scope : Scope} {more : Nat}

mutual

/-- With a limit that leaves more room a body is laid out to the same entries. -/
theorem below_layout (hallows : Limits.Allows scope.limit more) (body : Body) :
    Below (layout scope body) (layout { scope with limit := more } body) := by
  match body with
  | .member raw =>
    unfold layout
    exact .refl _
  | .sequence items => exact below_layoutAll hallows items
  | .repetition count body =>
    unfold layout
    refine (below_layout hallows body).bind fun entries raised hlong => ?_
    -- a repetition that fits fits where there is more room
    cases hrepeat : repeat? count entries scope.limit with
    | ok result =>
      dsimp only
      rw [repeat?_of_allows hallows hrepeat]
    | error overflow =>
      rw [hrepeat] at hlong
      exact absurd ⟨overflow.limit, scope.pos, rfl⟩ (hlong _ rfl)
  | .reflection body =>
    unfold layout
    exact (below_layout hallows body).bind fun _ => .refl _

theorem below_layoutAll (hallows : Limits.Allows scope.limit more) (items : List Body) :
    Below (layoutAll scope items) (layoutAll { scope with limit := more } items) := by
  match items with
  | [] => exact .refl _
  | item :: items =>
    unfold layoutAll
    refine (below_layout hallows item).bind fun _ => ?_
    exact (below_layoutAll hallows items).bind fun _ => .refl _

end

end Body

end Line

namespace Deck

/-- The deck with other limits. -/
def relimit (more : Limits) (deck : Deck) : Deck :=
  { deck with limits := more }

/-- The deck at work with other limits. -/
def Work.relimit (more : Limits) (w : Work) : Work :=
  { w with deck := w.deck.relimit more }

variable {α β : Type} {more : Limits} {P : Work → Prop} {issued : List NodeId}

/-! ## Sound decks -/

/-- The deck stands for a plain deck, and the handles are those of trees that the caller holds. -/
def Sound (deck : Deck) (issued : List NodeId) : Prop :=
  ∃ limits, ∃ g : Plain.Deck Tree, ∃ trees stray,
    deck.Depicts limits g trees stray ∧ issued = trees.map Tree.root

/-- The handle is the root of an expression that a record owns or the caller holds. -/
def Keeps (deck : Deck) (id : NodeId) : Prop :=
  ∃ issued, deck.Sound issued ∧ id ∈ deck.roots ++ issued

theorem Sound.keeps {deck : Deck} (h : deck.Sound issued) {id : NodeId}
    (hid : id ∈ deck.roots ++ issued) : deck.Keeps id :=
  ⟨issued, h, hid⟩

/-- A formula that was stored can be evaluated. -/
theorem ensures_lowerWith (constantsOnly : Bool) (formula : Formula) :
    Ensures (fun w => w.deck.Sound issued) (lowerWith constantsOnly formula)
      (fun id w => w.deck.Keeps id) fun _ _ => True := by
  rintro w ⟨limits, g, trees, stray, hd, rfl⟩
  rcases mirrors_lowerWith constantsOnly formula w ⟨g.map Tree.term, w.raised⟩
      ⟨rfl, g, hd, rfl⟩ with
    ⟨id, term, w', p, ha, -, t, rfl, -, -, g', hd', -⟩ | ⟨e, d, w', p, ha, -⟩
  · refine .inl ⟨t.root, w', ha, (t :: trees).map Tree.root, ⟨limits, g', _, _, hd', rfl⟩, ?_⟩
    exact List.mem_append_right _ List.mem_cons_self
  · exact .inr ⟨e, w', ha, trivial⟩

/-! ## Indifference -/

/-- No evaluation came to the limit on the depth, and no repetition to that on the length. -/
structure Unhindered {α : Type} (run : Except FatalError α × Work) : Prop where
  /-- No warning about the depth was raised. -/
  depth : ∀ d ∈ run.2.raised, d.code ≠ .nestingTooDeep
  /-- No repetition has failed. -/
  length : ∀ e, run.1 = .error e → ¬e.IsOverflow

/-- From states with `P` the action does the same with limits that leave more room, unless it is
hindered. -/
structure Indifferent (more : Limits) (P : Work → Prop) {α : Type} (a : Action α) : Prop where
  /-- What was raised stays raised. -/
  raised : ∀ w : Work, ∀ d ∈ w.raised, d ∈ (a.run w).2.raised
  /-- The limits stay the same. -/
  limits : ∀ w : Work, (a.run w).2.deck.limits = w.deck.limits
  /-- The action does the same. -/
  run_relimit : ∀ w : Work, P w → w.deck.limits.Within more → Unhindered (a.run w) →
    a.run (w.relimit more) = ((a.run w).1, (a.run w).2.relimit more)

namespace Indifferent

variable {a a' : Action α}

theorem imp {P' : Work → Prop} (h : Indifferent more P a) (hP : ∀ w, P' w → P w) :
    Indifferent more P' a :=
  { h with run_relimit := fun w hw => h.run_relimit w (hP w hw) }

/-- An action that leaves the limits and what was raised alone. -/
theorem of_run (hraised : ∀ w : Work, (a.run w).2.raised = w.raised)
    (hlimits : ∀ w : Work, (a.run w).2.deck.limits = w.deck.limits)
    (hrun : ∀ w : Work, a.run (w.relimit more) = ((a.run w).1, (a.run w).2.relimit more)) :
    Indifferent more P a where
  raised w _ hd := (hraised w).symm ▸ hd
  limits := hlimits
  run_relimit w _ _ _ := hrun w

theorem of_pure (x : α) : Indifferent more P (pure x : Action α) :=
  of_run (fun _ => rfl) (fun _ => rfl) fun _ => rfl

theorem of_raise (condition : Condition) : Indifferent more P (raise condition) where
  raised _ _ hd := Array.mem_push_of_mem _ hd
  limits _ := rfl
  run_relimit _ _ _ _ := rfl

theorem of_onForest (step : Forest → Except Fault α × Forest) :
    Indifferent more P (onForest step) :=
  of_run (fun _ => rfl) (fun _ => rfl) fun _ => rfl

theorem of_onTable [Record α] {get : Symbols → Table α} {set : Table α → Symbols → Symbols}
    {step : Table α → Forest → Except Fault β × Table α × Forest} :
    Indifferent more P (onTable get set step) :=
  of_run (fun _ => rfl) (fun _ => rfl) fun _ => rfl

theorem of_lowerWith (constantsOnly : Bool) (formula : Formula) :
    Indifferent more P (lowerWith constantsOnly formula) where
  raised _ _ hd := (keepsRaised_lowerWith (lasting_mem _) constantsOnly formula).run hd
  limits _ := rfl
  run_relimit _ _ _ _ := rfl

/-- Of actions one after the other, the first is not hindered if the whole is not. -/
theorem unhindered_of_bind {f : α → Action β}
    (hf : ∀ x, ∀ w : Work, ∀ d ∈ w.raised, d ∈ ((f x).run w).2.raised) {w : Work}
    (h : Unhindered ((a >>= f).run w)) : Unhindered (a.run w) := by
  -- an error of the first ends the whole, and what the first has raised stays raised
  rcases ha : a.run w with ⟨x | x, w'⟩
  · rw [run_bind_of_error ha] at h
    exact ⟨h.depth, fun e he => h.length e (by cases he; rfl)⟩
  · rw [run_bind_of_ok ha] at h
    exact ⟨fun d hd => h.depth d (hf x w' d hd), nofun⟩

theorem bind {R : α → Work → Prop} {f : α → Action β} (h : Indifferent more P a)
    (hensures : Ensures P a R fun _ _ => True) (hf : ∀ x, Indifferent more (R x) (f x)) :
    Indifferent more P (a >>= f) where
  raised w d hd := by
    have hfirst := h.raised w d hd
    rcases ha : a.run w with ⟨x | x, w'⟩ <;> rw [ha] at hfirst
    · rw [run_bind_of_error ha]
      exact hfirst
    · rw [run_bind_of_ok ha]
      exact (hf x).raised w' d hfirst
  limits w := by
    have hfirst := h.limits w
    rcases ha : a.run w with ⟨x | x, w'⟩ <;> rw [ha] at hfirst
    · rw [run_bind_of_error ha]
      exact hfirst
    · rw [run_bind_of_ok ha, (hf x).limits w']
      exact hfirst
  run_relimit w hw hwithin hun := by
    have hfirst := h.run_relimit w hw hwithin (unhindered_of_bind (fun x => (hf x).raised) hun)
    have hlimits := h.limits w
    rcases ha : a.run w with ⟨x | x, w'⟩ <;> rw [ha] at hfirst hlimits
    · rw [run_bind_of_error ha, run_bind_of_error hfirst]
    · rw [run_bind_of_ok ha] at hun ⊢
      rw [run_bind_of_ok hfirst]
      exact (hf x).run_relimit w' (hensures.of_run_ok hw ha) (hlimits ▸ hwithin) hun

/-- If nothing needs to be known in between. -/
theorem seq {f : α → Action β} (h : Indifferent more P a)
    (hf : ∀ x, Indifferent more (fun _ => True) (f x)) : Indifferent more P (a >>= f) :=
  h.bind (Ensures.of_true P a) hf

theorem map {f : α → β} (h : Indifferent more P a) : Indifferent more P (f <$> a) := by
  rw [map_eq_pure_bind]
  exact h.seq fun _ => of_pure _

theorem discarded (h : Indifferent more P a) : Indifferent more P (discard a) := by
  rw [show discard a = (fun _ => PUnit.unit) <$> a from rfl]
  exact h.map

theorem ite {c : Prop} [Decidable c] (ht : Indifferent more P a) (hf : Indifferent more P a') :
    Indifferent more P (if c then a else a') := by
  split
  · exact ht
  · exact hf

theorem foldlM {ι : Type} {f : α → ι → Action α}
    (h : ∀ x i, Indifferent more (fun _ => True) (f x i)) (items : List ι) (x : α) :
    Indifferent more (fun _ => True) (items.foldlM f x) := by
  induction items generalizing x with
  | nil => exact of_pure x
  | cons item items ih =>
    rw [List.foldlM_cons]
    exact (h x item).seq ih

/-- What is done with the deck as it is, if it does not depend on the limits. -/
theorem of_current {f : Deck → Action α}
    (h : ∀ deck, Indifferent more (fun w => w.deck = deck ∧ P w) (f deck))
    (hf : ∀ deck, f (deck.relimit more) = f deck) : Indifferent more P (current >>= f) where
  raised w := (h w.deck).raised w
  limits w := (h w.deck).limits w
  run_relimit w hw hwithin hun := by
    have hrun : (current >>= f).run (w.relimit more) =
        (f (w.deck.relimit more)).run (w.relimit more) := rfl
    rw [hrun, hf]
    exact (h w.deck).run_relimit w ⟨rfl, hw⟩ hwithin hun

end Indifferent

/-! ## Expressions and lines -/

theorem Depicts.relimit {deck : Deck} {limits : Limits} {g : Plain.Deck Tree} {held : List Tree}
    {stray : Nat} (hd : deck.Depicts limits g held stray) (more : Limits) :
    (deck.relimit more).Depicts more (g.relimit more) held stray :=
  { hd with limits_eq := rfl, plain_limits_eq := rfl }

/-- Evaluations differ in their outcome and in what they raise only. -/
theorem run_evaluate_ext {id : NodeId} {w : Work}
    (houtcome : ((evaluate id).run (w.relimit more)).1 = ((evaluate id).run w).1)
    (hraised : ((evaluate id).run (w.relimit more)).2.raised = ((evaluate id).run w).2.raised) :
    (evaluate id).run (w.relimit more) =
      (((evaluate id).run w).1, ((evaluate id).run w).2.relimit more) := by
  rw [run_evaluate] at houtcome hraised ⊢
  rw [run_evaluate] at houtcome hraised ⊢
  dsimp only at houtcome hraised
  rw [houtcome, hraised]
  rfl

/-- Without a limit on the depth there is no room to gain. -/
theorem run_evaluate_of_unlimited {id : NodeId} {w : Work} (hzero : w.deck.limits.evalDepth = 0)
    (hmore : more.evalDepth = 0) :
    (evaluate id).run (w.relimit more) =
      (((evaluate id).run w).1, ((evaluate id).run w).2.relimit more) := by
  have hlimit : (w.relimit more).deck.limits.evalDepth = w.deck.limits.evalDepth :=
    hmore.trans hzero.symm
  rw [run_evaluate, run_evaluate, hlimit]
  rfl

/-- A stored tree is evaluated as its term is, unless that comes to no end. -/
theorem Depicts.run_evaluate_eq {limits : Limits} {g : Plain.Deck Tree} {held : List Tree}
    {stray : Nat} {w : Work} (hd : w.deck.Depicts limits g held stray) {t : Tree}
    (ht : t ∈ g.symbols.exprs ++ held) {plain : Plain.Deck Term} (hplain : g.map Tree.term = plain)
    (hend : ((Plain.Deck.evaluate t.term).run ⟨plain, w.raised⟩).1 ≠ .error .endless) :
    ((evaluate t.root).run w).1 =
        ((Plain.Deck.evaluate t.term).run ⟨plain, w.raised⟩).1.mapError Plain.Error.fatal ∧
      ((evaluate t.root).run w).2.raised =
        ((Plain.Deck.evaluate t.term).run ⟨plain, w.raised⟩).2.raised := by
  rcases mirrors_evaluate t w ⟨plain, w.raised⟩ ⟨rfl, g, hd, hplain, ht⟩ with
    ⟨x, y, w', p, ha, hb, rfl, hraised, -⟩ | ⟨e, d, w', p, ha, hb, -, hfatal, hraised⟩
  · rw [ha, hb]
    exact ⟨rfl, hraised⟩
  · -- only an evaluation without end is blamed differently on the two sides
    rw [hb] at hend
    have hne : d ≠ .endless := fun h => hend (congrArg Except.error h)
    rw [ha, hb]
    rcases hfatal with ⟨rfl, -⟩ | ⟨-, h, -⟩
    · exact ⟨rfl, hraised hne⟩
    · exact absurd h hne

/-- Where the depth has a limit that is not met, an evaluation does not depend on the limits. -/
theorem run_evaluate_of_limited {limits : Limits} {g : Plain.Deck Tree} {held : List Tree}
    {stray : Nat} {w : Work} (hd : w.deck.Depicts limits g held stray)
    (hdepth : Limits.Allows limits.evalDepth more.evalDepth) (hlimit : limits.evalDepth ≠ 0)
    {t : Tree} (ht : t ∈ g.symbols.exprs ++ held)
    (hun : ∀ d ∈ ((evaluate t.root).run w).2.raised, d.code ≠ .nestingTooDeep) :
    (evaluate t.root).run (w.relimit more) =
      (((evaluate t.root).run w).1, ((evaluate t.root).run w).2.relimit more) := by
  let plain := g.map Tree.term
  have hplain : plain.limits.evalDepth = limits.evalDepth :=
    congrArg Limits.evalDepth hd.plain_limits_eq
  -- with a limit every evaluation comes to an end, so that it is that of the term
  have hend : ((Plain.Deck.evaluate t.term).run ⟨plain, w.raised⟩).1 ≠ .error .endless := by
    rw [Plain.Deck.run_evaluate]
    refine Plain.EvaluationScope.ne_endless_of_limit ?_ rfl
    rwa [show plain.scope.limit = limits.evalDepth from hplain]
  obtain ⟨houtcome, hraised⟩ := hd.run_evaluate_eq ht rfl hend
  -- the term is evaluated to the same with other limits, and the stored tree with it
  have hallows : Limits.Allows plain.limits.evalDepth more.evalDepth := hplain.symm ▸ hdepth
  obtain ⟨hterm, htermRaised⟩ := Plain.Deck.run_evaluate_relimit hallows (hplain.symm ▸ hlimit)
    t.term w.raised (hraised ▸ hun)
  have hmap : (g.relimit more).map Tree.term = plain.relimit more := rfl
  have hthere := (hd.relimit more).run_evaluate_eq (w := w.relimit more) ht hmap (hterm ▸ hend)
  exact run_evaluate_ext (hthere.1.trans (hterm ▸ houtcome.symm))
    (hthere.2.trans (htermRaised.trans hraised.symm))

/-- An expression that a record owns or the caller holds is evaluated to the same. -/
theorem indifferent_evaluate (id : NodeId) :
    Indifferent more (fun w => w.deck.Keeps id) (evaluate id) where
  raised _ _ hd := (keepsRaised_evaluate (lasting_mem _) id).run hd
  limits _ := rfl
  run_relimit := by
    rintro w ⟨issued, ⟨limits, g, trees, stray, hd, rfl⟩, hid⟩ hwithin hun
    -- the handle is the root of a tree that stands in the forest
    rw [hd.roots_eq, ← List.map_append] at hid
    obtain ⟨t, ht, rfl⟩ := List.mem_map.1 hid
    have hdepth : Limits.Allows limits.evalDepth more.evalDepth := hd.limits_eq ▸ hwithin.evalDepth
    by_cases hzero : limits.evalDepth = 0
    · exact run_evaluate_of_unlimited (hd.limits_eq.symm ▸ hzero) (hdepth.eq_zero hzero)
    · exact run_evaluate_of_limited hd hdepth hzero ht hun.depth

/-- A line is laid out to the same entries. -/
theorem indifferent_layout (body : Line.Body) : Indifferent more P (layout body) where
  raised _ _ hd := (keepsRaised_layout (lasting_mem _) body).run hd
  limits _ := rfl
  run_relimit w _ hwithin hun := by
    have hallows : Limits.Allows w.deck.lineScope.limit more.lineEntries := hwithin.lineEntries
    let scope : Line.Body.Scope := { w.deck.lineScope with limit := more.lineEntries }
    have hthere : (layout body).run (w.relimit more) = (((body.layout scope).run w.raised).1,
        { w.relimit more with raised := ((body.layout scope).run w.raised).2 }) := rfl
    rw [hthere, Line.Body.below_layout hallows body w.raised hun.length]
    rfl

theorem indifferent_release (id : NodeId) : Indifferent more P (release id) :=
  .of_onForest _

/-! ## Constants and variables -/

theorem indifferent_insert [Record α] {get : Symbols → Table α} {set : Table α → Symbols → Symbols}
    {record : α} : Indifferent more P (discard (onTable get set (Table.insert record))) :=
  Indifferent.of_onTable.discarded

theorem indifferent_defineConstant (raw : String) (formula : Formula) :
    Indifferent more (fun w => w.deck.Sound issued) (defineConstant raw formula) := by
  refine .of_current (fun deck => .ite (.of_raise _) ?_) fun _ => rfl
  -- the formula is evaluated as it was stored
  refine (Indifferent.of_lowerWith true formula).bind (R := fun id w => w.deck.Keeps id) ?_
    fun id => (indifferent_evaluate id).seq fun value => ?_
  · exact fun w hw => ensures_lowerWith true formula w hw.2
  · refine .of_current (fun deck => .ite ?_ indifferent_insert) fun _ => rfl
    exact (Indifferent.of_raise _).seq fun _ => indifferent_insert

theorem indifferent_defineVariable (raw : String) (formula : Formula) (binding : Binding) :
    Indifferent more (fun w => w.deck.Sound issued) (defineVariable raw formula binding) := by
  have hinsert (P : Work → Prop) (expr : NodeId) : Indifferent more P (do
      discard <| insertVariable { name := Name.ofText raw, expr, pos := (← current).pos }) :=
    .of_current (fun _ => indifferent_insert) fun _ => rfl
  refine .of_current (fun deck => .ite (.of_raise _) ?_) fun _ => rfl
  refine (Indifferent.of_lowerWith false formula).bind (R := fun id w => w.deck.Keeps id) ?_
    fun id => ?_
  · exact fun w hw => ensures_lowerWith false formula w hw.2
  · cases binding with
    | deferred => exact hinsert _ id
    | immediate =>
      refine (indifferent_evaluate id).seq fun value => (indifferent_release id).seq fun _ => ?_
      exact (Indifferent.of_onForest _).seq fun expr => hinsert _ expr

/-! ## Elements -/

theorem indifferent_releaseReplaced (previous : Option NodeId) :
    Indifferent more P (releaseReplaced previous) := by
  cases previous with
  | none => exact .of_pure ()
  | some id => exact indifferent_release id

/-- A condition is raised, and the element stays as it is. -/
theorem indifferent_refused (condition : Condition) (element : Element) :
    Indifferent more P
      (do
        raise condition
        return element) :=
  (Indifferent.of_raise condition).seq fun _ => .of_pure element

/-- A formula is stored and entered into the element. -/
theorem indifferent_settle (formula : Formula) (element : Element)
    (enter : NodeId → Except Element.Refusal (Option NodeId × Element)) :
    Indifferent more P
      (do
        let id ← lower formula
        settle element id (enter id)) := by
  refine (Indifferent.of_lowerWith false formula).seq fun id => ?_
  cases enter id with
  | ok changed => exact (indifferent_releaseReplaced changed.1).seq fun _ => .of_pure changed.2
  | error refusal => exact (indifferent_release id).seq fun _ => indifferent_refused _ element

theorem indifferent_entryItem (element : Element) (index : Option Element.MapIndex)
    (written : String) (value : Formula) :
    Indifferent more P (entryItem element index written value) := by
  refine .ite (indifferent_refused _ element) ?_
  cases index with
  | none => exact indifferent_refused _ element
  | some index => exact indifferent_settle value element (element.assignEntry index)

theorem indifferent_enterItem (element : Element) (item : Element.Item) :
    Indifferent more P (enterItem element item) := by
  cases item with
  | assign key value =>
    rw [enterItem, assignItem]
    split
    · exact .of_pure _
    · exact .ite (indifferent_settle value element (element.assign key))
        (indifferent_refused _ element)
  | flag key =>
    rw [enterItem, flagItem]
    refine .of_current (fun deck => ?_) fun _ => rfl
    cases element.flag key deck.forest with
    | ok changed =>
      have hstore : Indifferent more (fun w => w.deck = deck ∧ P w)
          (change fun deck => { deck with forest := changed.2.2 }) :=
        .of_run (fun _ => rfl) (fun _ => rfl) fun _ => rfl
      exact hstore.seq fun _ => (indifferent_releaseReplaced changed.1).seq fun _ =>
        .of_pure changed.2.1
    | error refusal => exact indifferent_refused _ element
  | label text => exact .of_pure _
  | rm i j value => exact indifferent_entryItem element _ _ value
  | tm i j k value => exact indifferent_entryItem element _ _ value

theorem indifferent_defineElement (raw : String) (kind : Element.Kind)
    (items : List Element.Item) : Indifferent more P (defineElement raw kind items) := by
  have hrest : Indifferent more (fun _ => True) (do
      let element ← items.foldlM enterItem (Element.blank (Name.ofText raw) kind (← current).pos)
      discard <| insertElement element) := by
    refine .of_current (fun deck => ?_) fun _ => rfl
    have hitems : Indifferent more (fun _ => True)
        (items.foldlM enterItem (Element.blank (Name.ofText raw) kind deck.pos)) :=
      .foldlM indifferent_enterItem items _
    exact (hitems.imp fun _ _ => trivial).seq fun _ => indifferent_insert
  refine Indifferent.of_onTable.seq fun isDefined => .ite ?_ hrest
  exact (Indifferent.of_raise _).seq fun _ => hrest

/-! ## Lines, comments and statements -/

theorem indifferent_defineLine (raw : String) (body : Line.Body) :
    Indifferent more P (defineLine raw body) := by
  refine (indifferent_layout body).seq fun entries => ?_
  have hinsert : Indifferent more (fun _ => True) (do
      discard <| insertLine { name := Name.ofText raw, entries, pos := (← current).pos }) :=
    .of_current (fun _ => indifferent_insert) fun _ => rfl
  refine Indifferent.of_onTable.seq fun isDefined => .ite ?_ hinsert
  exact (Indifferent.of_raise _).seq fun _ => hinsert

theorem indifferent_beginComment : Indifferent more P beginComment :=
  .of_run (fun _ => rfl) (fun _ => rfl) fun _ => rfl

theorem indifferent_endComment : Indifferent more P endComment := by
  refine .of_current (fun deck => ?_) fun _ => rfl
  cases deck.commentary.finish with
  | ok commentary => exact .of_run (fun _ => rfl) (fun _ => rfl) fun _ => rfl
  | error _ => exact .of_raise _

theorem indifferent_captureComment (text : String) (atEnd : Bool) :
    Indifferent more P (captureComment text atEnd) :=
  .of_run (fun _ => rfl) (fun _ => rfl) fun _ => rfl

theorem indifferent_perform (clause : Clause) :
    Indifferent more (fun w => w.deck.Sound issued) (perform clause) := by
  cases clause with
  | constant name value => exact indifferent_defineConstant name value
  | «variable» name value binding => exact indifferent_defineVariable name value binding
  | element name kind items => exact indifferent_defineElement name kind items
  | line name body => exact indifferent_defineLine name body
  | beginComment => exact indifferent_beginComment
  | endComment => exact indifferent_endComment
  | comment text atEnd => exact indifferent_captureComment text atEnd
  | pragma keyword text => exact .of_pure ()

/-- An action of a statement read at a position. -/
theorem indifferent_at {a : Action α}
    (h : Indifferent more (fun w => w.deck.Sound issued) a) (pos : Position) :
    Indifferent more (fun w => w.deck.Sound issued)
      (do
        moveTo pos
        a) := by
  have hmove : Indifferent more (fun w => w.deck.Sound issued) (moveTo pos) :=
    .of_run (fun _ => rfl) (fun _ => rfl) fun _ => rfl
  refine hmove.bind (R := fun _ w => w.deck.Sound issued) (Ensures.of_modify ?_) fun _ => h
  rintro w ⟨limits, g, trees, stray, hd, hissued⟩
  exact ⟨limits, { g with pos }, trees, stray, { hd with pos := rfl }, hissued⟩

theorem indifferent_apply (statement : Statement) :
    Indifferent more (fun w => w.deck.Sound issued) (apply statement) := by
  refine indifferent_at (.of_current (fun deck => ?_) fun _ => rfl) statement.pos
  -- within a comment block the clause may be skipped
  have hperform : Indifferent more (fun w => w.deck = deck ∧ w.deck.Sound issued)
      (perform statement.clause) :=
    (indifferent_perform statement.clause).imp fun _ hw => hw.2
  exact .ite (.of_pure ()) hperform

/-! ## Queries -/

theorem indifferent_slotValue {slot : Option (Option NodeId)}
    (hslot : ∀ id, slot = some (some id) → ∀ w, P w → w.deck.Keeps id) :
    Indifferent more P (slotValue slot) := by
  match slot with
  | none => exact .of_pure _
  | some none => exact .of_pure _
  | some (some id) => exact ((indifferent_evaluate id).imp (hslot id rfl)).map

/-- What is asked of a deck is the value of a slot that refers to an expression of a record. -/
theorem indifferent_query {slot : Deck → Option (Option NodeId)}
    (hslot : ∀ deck id, slot deck = some (some id) → id ∈ deck.roots)
    (hlimits : ∀ deck, slot (deck.relimit more) = slot deck) :
    Indifferent more (fun w => w.deck.Sound issued)
      (do slotValue (slot (← current))) := by
  refine .of_current (fun deck => indifferent_slotValue ?_) fun deck => by rw [hlimits]
  rintro id hid w ⟨rfl, hsound⟩
  exact hsound.keeps (List.mem_append_left _ (hslot w.deck id hid))

end Deck

end Beamline
