import Mathlib.Data.Set.Finite.List
import Mathlib.Data.Finite.Defs
import Mathlib.Order.Preorder.Finite
import Mathlib.Logic.Relation
import Beamline.Proofs.Plain.Levels

/-!
# What terms mean

The meaning of a term against the symbols of the moment, with neither levels nor diagnostics: a
value, or none where a text stands in place of a number. An operator reads its left operand first
and does not come to the right one if the left one is no number. A variable that refers to itself,
directly or through others, has no meaning at all.

An evaluation that does not give up finds the meaning, and a term with a meaning is evaluated
without giving up if enough levels are left. A term that does not lead back to itself has a
meaning.

* `EvaluationScope.Means`: the meaning of a term.
* `EvaluationScope.means_iff_of_complete`: what an evaluation that does not give up comes to.
* `EvaluationScope.Grounded.exists_means`: terms without cycles have a meaning.
-/

namespace Beamline

/-- The number that a value is, if it is one. -/
def Value.number? : Value → Option Float
  | .number x => some x
  | .text _ => none

theorem Value.map_number_ne_text {α : Type} {f : α → Float} {o : Option α} {content : String} :
    o.map (fun x => number (f x)) ≠ some (.text content) := by
  cases o <;> nofun

end Beamline

namespace Beamline.Plain.EvaluationScope

open Beamline.Expr (Term)

/-- The value of a constant; zero if there is none. -/
def constantValue (scope : EvaluationScope) (name : Name) : Value :=
  (scope.constant? name).getD .zero

/-- What a term means: a value, or none where a text stands in place of a number. -/
inductive Means (scope : EvaluationScope) : Term → Option Value → Prop where
  | number (x : Float) : Means scope (.number x) (some (.number x))
  | text (content : String) : Means scope (.text content) (some (.text content))
  | numberConstant (name : Name) :
      Means scope (.numberConstant name) ((scope.constantValue name).number?.map .number)
  | textConstant (name : Name) : Means scope (.textConstant name) (some (scope.constantValue name))
  /-- A variable means what its term means. -/
  | variable {name : Name} {t : Term} {o : Option Value} (h : scope.expr? name = some t)
      (ht : Means scope t o) : Means scope (.variable name) o
  /-- What is not defined counts as zero. -/
  | undefined {name : Name} (h : scope.expr? name = none) :
      Means scope (.variable name) (some .zero)
  /-- A length means what the term of the length means. -/
  | lengthOf {name : Name} {t : Term} {o : Option Value} (h : scope.length? name = some (some t))
      (ht : Means scope t o) : Means scope (.lengthOf name) o
  /-- A length that is not set counts as zero, also if there is no such element. -/
  | unset {name : Name} (h : (scope.length? name).join = none) :
      Means scope (.lengthOf name) (some .zero)
  | parens {inner : Term} {o : Option Value} (h : Means scope inner o) :
      Means scope (.parens inner) o
  | signed {sign : Expr.Sign} {operand : Term} {o : Option Value} (h : Means scope operand o) :
      Means scope (.signed sign operand)
        ((o.bind Value.number?).map fun x => .number (sign.apply x))
  /-- Without a number on the left, the right operand does not matter. -/
  | refused {op : Expr.Operator} {left right : Term} {o : Option Value}
      (hleft : Means scope left o) (hnone : o.bind Value.number? = none) :
      Means scope (.binary op left right) none
  | binary {op : Expr.Operator} {left right : Term} {o o' : Option Value} {x : Float}
      (hleft : Means scope left o) (hx : o.bind Value.number? = some x)
      (hright : Means scope right o') :
      Means scope (.binary op left right)
        ((o'.bind Value.number?).map fun y => .number (op.apply x y))
  | call {f : Expr.Function} {argument : Term} {o : Option Value} (h : Means scope argument o) :
      Means scope (.call f argument) ((o.bind Value.number?).map fun x => .number (f.apply x))

variable {scope : EvaluationScope} {t : Term}

/-- A term has one meaning at most. -/
theorem Means.unique {o o' : Option Value} (h : scope.Means t o) (h' : scope.Means t o') :
    o = o' := by
  -- by induction on the first derivation: the form of the term, and what its name is looked up
  -- to, leave one rule for the last step of the second
  induction h generalizing o' with
  | number | text | numberConstant | textConstant => cases h'; rfl
  | «variable» h ht ih =>
    cases h' with
    | «variable» h' ht' =>
      rw [h] at h'
      cases h'
      exact ih ht'
    | undefined h' =>
      rw [h] at h'
      cases h'
  | undefined h =>
    cases h' with
    | «variable» h' _ =>
      rw [h] at h'
      cases h'
    | undefined => rfl
  | lengthOf h ht ih =>
    cases h' with
    | lengthOf h' ht' =>
      rw [h] at h'
      cases h'
      exact ih ht'
    | unset h' =>
      rw [h] at h'
      cases h'
  | unset h =>
    cases h' with
    | lengthOf h' _ =>
      rw [h'] at h
      cases h
    | unset => rfl
  | parens _ ih =>
    cases h' with
    | parens h' => exact ih h'
  | signed _ ih =>
    cases h' with
    | signed h' => rw [ih h']
  | refused _ hnone ih =>
    cases h' with
    | refused => rfl
    -- the left operand would have to be a number and none
    | binary hleft hx _ =>
      rw [← ih hleft, hnone] at hx
      cases hx
  | binary _ hx _ ihl ihr =>
    cases h' with
    | refused hleft hnone =>
      rw [← ihl hleft, hx] at hnone
      cases hnone
    | binary hleft hx' hright =>
      rw [← ihl hleft, hx] at hx'
      cases hx'
      rw [ihr hright]
  | call _ ih =>
    cases h' with
    | call h' => rw [ih h']

/-! What each form of term means. -/

section Forms

variable {name : Name} {o : Option Value}

theorem means_number_iff {x : Float} : scope.Means (.number x) o ↔ o = some (.number x) := by
  constructor
  · intro h
    cases h
    rfl
  · rintro rfl
    exact .number x

theorem means_text_iff {content : String} :
    scope.Means (.text content) o ↔ o = some (.text content) := by
  constructor
  · intro h
    cases h
    rfl
  · rintro rfl
    exact .text content

theorem means_numberConstant_iff :
    scope.Means (.numberConstant name) o ↔
      o = (scope.constantValue name).number?.map .number := by
  constructor
  · intro h
    cases h
    rfl
  · rintro rfl
    exact .numberConstant name

theorem means_textConstant_iff :
    scope.Means (.textConstant name) o ↔ o = some (scope.constantValue name) := by
  constructor
  · intro h
    cases h
    rfl
  · rintro rfl
    exact .textConstant name

theorem means_variable_iff :
    scope.Means (.variable name) o ↔
      match scope.expr? name with
      | some t => scope.Means t o
      | none => o = some .zero := by
  constructor
  · intro h
    cases h with
    | «variable» h ht => rwa [h]
    | undefined h => rw [h]
  · intro h
    cases hterm : scope.expr? name with
    | some t =>
      rw [hterm] at h
      exact .variable hterm h
    | none =>
      rw [hterm] at h
      rw [h]
      exact .undefined hterm

theorem means_lengthOf_iff :
    scope.Means (.lengthOf name) o ↔
      match (scope.length? name).join with
      | some t => scope.Means t o
      | none => o = some .zero := by
  constructor
  · intro h
    cases h with
    | lengthOf h ht => rwa [h]
    | unset h => rw [h]
  · intro h
    cases hterm : (scope.length? name).join with
    | some t =>
      rw [hterm] at h
      exact .lengthOf (Option.join_eq_some_iff.1 hterm) h
    | none =>
      rw [hterm] at h
      rw [h]
      exact .unset hterm

theorem means_parens_iff {inner : Term} : scope.Means (.parens inner) o ↔ scope.Means inner o := by
  constructor
  · intro h
    cases h with
    | parens h => exact h
  · exact .parens

theorem means_signed_iff {sign : Expr.Sign} {operand : Term} :
    scope.Means (.signed sign operand) o ↔
      ∃ x, scope.Means operand x ∧
        o = (x.bind Value.number?).map fun a => .number (sign.apply a) := by
  constructor
  · intro h
    cases h with
    | signed h => exact ⟨_, h, rfl⟩
  · rintro ⟨x, h, rfl⟩
    exact .signed h

theorem means_binary_iff {op : Expr.Operator} {left right : Term} :
    scope.Means (.binary op left right) o ↔
      ∃ x, scope.Means left x ∧
        match x.bind Value.number? with
        | none => o = none
        | some a =>
          ∃ y, scope.Means right y ∧
            o = (y.bind Value.number?).map fun b => .number (op.apply a b) := by
  constructor
  · intro h
    cases h with
    | refused hleft hnone => exact ⟨_, hleft, by rw [hnone]⟩
    | binary hleft hx hright => exact ⟨_, hleft, by rw [hx]; exact ⟨_, hright, rfl⟩⟩
  · rintro ⟨x, hleft, h⟩
    cases ha : x.bind Value.number? with
    | none =>
      rw [ha] at h
      rw [h]
      exact .refused hleft ha
    | some a =>
      rw [ha] at h
      obtain ⟨y, hright, rfl⟩ := h
      exact .binary hleft ha hright

theorem means_call_iff {f : Expr.Function} {argument : Term} :
    scope.Means (.call f argument) o ↔
      ∃ x, scope.Means argument x ∧
        o = (x.bind Value.number?).map fun a => .number (f.apply a) := by
  constructor
  · intro h
    cases h with
    | call h => exact ⟨_, h, rfl⟩
  · rintro ⟨x, h, rfl⟩
    exact .call h

end Forms

/-! ## Runs that do not give up -/

/-- A run that came to a result, or to a text in place of a number, without being cut short. -/
inductive Gives {α : Type} : Option α → Except Error α × Progress → Prop where
  | result (x : α) {p : Progress} (hp : p.tripped = false) : Gives (some x) (.ok x, p)
  | refusal (symbol : String) (pos : Source.Position) {p : Progress} (hp : p.tripped = false) :
      Gives none (.error (.textInArithmetic symbol pos), p)

namespace Gives

variable {α β : Type} {o : Option α} {a : Step α} {p : Progress}

theorem complete {run : Except Error α × Progress} (h : Gives o run) : Complete run := by
  cases h with
  | result x hp => exact ⟨nofun, hp⟩
  | refusal symbol pos hp => exact ⟨nofun, hp⟩

theorem unique {o' : Option α} {run : Except Error α × Progress} (h : Gives o run)
    (h' : Gives o' run) : o = o' := by
  cases h <;> cases h' <;> rfl

theorem run_bind {x : α} (h : Gives (some x) (a.run p)) (f : α → Step β) :
    ∃ p', p'.tripped = false ∧ (a >>= f).run p = (f x).run p' := by
  generalize hrun : a.run p = run at h
  cases h with
  | result _ hp => exact ⟨_, hp, run_bind_of_ok hrun f⟩

theorem bind_none (h : Gives none (a.run p)) (f : α → Step β) :
    Gives none ((a >>= f).run p) := by
  generalize hrun : a.run p = run at h
  cases h with
  | refusal symbol pos hp =>
    rw [run_bind_of_error hrun]
    exact .refusal symbol pos hp

theorem map (h : Gives o (a.run p)) (f : α → β) :
    Gives (o.map f) ((a >>= fun x => pure (f x)).run p) := by
  cases o with
  | none => exact h.bind_none _
  | some x =>
    obtain ⟨p', hp, hrun⟩ := h.run_bind fun x => (pure (f x) : Step β)
    rw [hrun]
    exact .result (f x) hp

end Gives

section Nodes

variable {v : Term → Step Value} {p : Progress} {o : Option Value}

theorem gives_constant (hp : p.tripped = false) (name : Name) :
    Gives (some (scope.constantValue name)) ((scope.constant name).run p) := by
  unfold constant constantValue
  cases scope.constant? name with
  | some value => exact .result value hp
  | none =>
    change Gives (some Value.zero) ((pure Value.zero : Step Value).run _)
    exact .result Value.zero hp

theorem gives_numberConstant (hp : p.tripped = false) (name : Name) :
    Gives ((scope.constantValue name).number?.map .number)
      ((scope.node v (.numberConstant name)).run p) := by
  have hconstant : Gives (some (scope.constantValue name)) ((scope.constant name).run p) :=
    gives_constant hp name
  obtain ⟨p', hp', hrun⟩ := hconstant.run_bind fun value =>
    match value with
    | .number x => return Value.number x
    | .text _ => throw (.textInArithmetic name.text scope.pos)
  -- `rw` does not find the `match` of the definition, which is equal to this one only by unfolding
  refine Eq.subst (motive := Gives _) hrun.symm ?_
  cases scope.constantValue name with
  | number x => exact .result (Value.number x) hp'
  | text content => exact .refusal _ _ hp'

theorem gives_number (h : Gives o ((v t).run p)) :
    Gives (o.bind Value.number?) ((scope.number v t).run p) := by
  cases o with
  | none => exact h.bind_none _
  | some value =>
    obtain ⟨p', hp, hrun⟩ := h.run_bind fun value =>
      match value with
      | .number x => return x
      | .text content => throw (.textInArithmetic (t.blame content) scope.pos)
    refine Eq.subst (motive := Gives _) hrun.symm ?_
    cases value with
    | number x => exact .result x hp
    | text content => exact .refusal _ _ hp

theorem gives_refused {op : Expr.Operator} {left right : Term} (h : Gives o ((v left).run p))
    (hnone : o.bind Value.number? = none) :
    Gives none ((scope.node v (.binary op left right)).run p) := by
  have hleft : Gives (o.bind Value.number?) ((scope.number v left).run p) := gives_number h
  rw [hnone] at hleft
  exact hleft.bind_none _

/-- What an operator does once its left operand has come to a number. -/
theorem exists_run_binary {op : Expr.Operator} {left right : Term} {x : Float}
    (h : Gives o ((v left).run p)) (hx : o.bind Value.number? = some x) :
    ∃ p', p'.tripped = false ∧ (scope.node v (.binary op left right)).run p =
      (scope.number v right >>= fun y => pure (.number (op.apply x y))).run p' := by
  have hleft : Gives (o.bind Value.number?) ((scope.number v left).run p) := gives_number h
  rw [hx] at hleft
  exact hleft.run_bind _

theorem gives_variable_undefined (hp : p.tripped = false) {name : Name}
    (h : scope.expr? name = none) :
    Gives (some .zero) ((scope.node v (.variable name)).run p) := by
  rw [node, h]
  change Gives (some Value.zero) ((pure Value.zero : Step Value).run _)
  exact .result Value.zero hp

theorem gives_lengthOf_unset (hp : p.tripped = false) {name : Name}
    (h : (scope.length? name).join = none) :
    Gives (some .zero) ((scope.node v (.lengthOf name)).run p) := by
  rw [node]
  cases hlength : scope.length? name with
  | none =>
    change Gives (some Value.zero) ((pure Value.zero : Step Value).run _)
    exact .result Value.zero hp
  | some length =>
    rw [hlength] at h
    obtain rfl : length = none := h
    exact .result Value.zero hp

end Nodes

/-! ## Evaluations find the meaning -/

theorem run_visit_succ (levels : Nat) (t : Term) {p : Progress} (hp : p.tripped = false) :
    (scope.visit (levels + 1) t).run p = (scope.node (scope.visit levels) t).run p :=
  run_unlessTripped_of_not_tripped _ hp

theorem sticky_return {α : Type} (x : α) : Sticky (pure x : Step α) :=
  fun _ hp => hp

theorem sticky_number (levels : Nat) (t : Term) {α : Type} (f : Float → α) :
    Sticky (scope.number (scope.visit levels) t >>= fun x => pure (f x)) := by
  have hnumber : Below (scope.number (scope.visit levels) t)
      (scope.number (scope.visit levels) t) :=
    number_below (visit_below (Nat.le_refl levels) scope.limit t)
  exact (hnumber.bind fun x => .of_pure (f x)).sticky

/-- An evaluation that does not give up comes to what the term means. -/
theorem exists_means_of_complete {levels : Nat} {p : Progress} (hp : p.tripped = false)
    (h : Complete ((scope.visit levels t).run p)) :
    ∃ o, scope.Means t o ∧ Gives o ((scope.visit levels t).run p) := by
  -- by induction on the levels, as the terms that names refer to are no parts of `t`
  induction levels generalizing t p with
  | zero => exact absurd (finishes_of_complete hp h) (not_finishes_zero t)
  | succ levels ih =>
    rw [run_visit_succ levels t hp] at h ⊢
    -- the operand of a sign, a function or the left of an operator does not give up either
    have hoperand {u : Term} {β : Type} {f : Float → Step β} {p : Progress}
        (hp : p.tripped = false) (hf : ∀ x, Sticky (f x))
        (h : Complete ((scope.number (scope.visit levels) u >>= f).run p)) :
        ∃ o, scope.Means u o ∧ Gives o ((scope.visit levels u).run p) := by
      refine ih hp (complete_of_bind (fun value => ?_) (complete_of_bind hf h))
      cases value with
      | number x => exact sticky_return x
      | text content => exact fun _ hp => hp
    cases t with
    | number x => exact ⟨_, .number x, .result (Value.number x) hp⟩
    | text content => exact ⟨_, .text content, .result (Value.text content) hp⟩
    | numberConstant name => exact ⟨_, .numberConstant name, gives_numberConstant hp name⟩
    | textConstant name => exact ⟨_, .textConstant name, gives_constant hp name⟩
    | «variable» name =>
      cases hterm : scope.expr? name with
      | none => exact ⟨_, .undefined hterm, gives_variable_undefined hp hterm⟩
      | some u =>
        rw [node, hterm] at h ⊢
        obtain ⟨o, hmeans, hgives⟩ := ih hp h
        exact ⟨o, .variable hterm hmeans, hgives⟩
    | lengthOf name =>
      cases hterm : (scope.length? name).join with
      | none => exact ⟨_, .unset hterm, gives_lengthOf_unset hp hterm⟩
      | some u =>
        have hlength := Option.join_eq_some_iff.1 hterm
        rw [node, hlength] at h ⊢
        obtain ⟨o, hmeans, hgives⟩ := ih hp h
        exact ⟨o, .lengthOf hlength hmeans, hgives⟩
    | parens inner =>
      obtain ⟨o, hmeans, hgives⟩ := ih hp h
      exact ⟨o, .parens hmeans, hgives⟩
    | signed sign operand =>
      obtain ⟨o, hmeans, hgives⟩ := hoperand hp (fun _ => sticky_return _) h
      exact ⟨_, .signed hmeans, (gives_number hgives).map _⟩
    | binary op left right =>
      obtain ⟨o, hmeans, hgives⟩ := hoperand hp (fun x => sticky_number levels right _) h
      cases hx : o.bind Value.number? with
      | none => exact ⟨none, .refused hmeans hx, gives_refused hgives hx⟩
      | some x =>
        obtain ⟨p', hp', hrun⟩ := exists_run_binary hgives hx
        rw [hrun] at h ⊢
        obtain ⟨o', hmeans', hgives'⟩ := hoperand hp' (fun _ => sticky_return _) h
        exact ⟨_, .binary hmeans hx hmeans', (gives_number hgives').map _⟩
    | call f argument =>
      obtain ⟨o, hmeans, hgives⟩ := hoperand hp (fun _ => sticky_return _) h
      exact ⟨_, .call hmeans, (gives_number hgives).map _⟩

/-- What an evaluation that does not give up comes to, and nothing else, is what the term means. -/
theorem means_iff_of_complete {levels : Nat} {p : Progress} (hp : p.tripped = false)
    (h : Complete ((scope.visit levels t).run p)) (o : Option Value) :
    scope.Means t o ↔ Gives o ((scope.visit levels t).run p) := by
  obtain ⟨o', hmeans, hgives⟩ := exists_means_of_complete hp h
  constructor
  · intro h'
    rwa [h'.unique hmeans]
  · intro h'
    rwa [h'.unique hgives]

/-! ## Meanings are found -/

/-- With the given number of levels, the evaluation of the term comes to the outcome. -/
def Reaches (scope : EvaluationScope) (levels : Nat) (t : Term) (o : Option Value) : Prop :=
  ∀ p : Progress, p.tripped = false → Gives o ((scope.visit levels t).run p)

theorem Reaches.mono {levels more : Nat} {o : Option Value} (h : scope.Reaches levels t o)
    (hle : levels ≤ more) : scope.Reaches more t o := by
  intro p hp
  have hrun := (visit_below hle scope.limit t).run_eq p hp (h p hp).complete
  rw [show (scope.visit more t).run p = (scope.visit levels t).run p from hrun]
  exact h p hp

theorem reaches_succ {levels : Nat} {o : Option Value}
    (h : ∀ p : Progress, p.tripped = false → Gives o ((scope.node (scope.visit levels) t).run p)) :
    scope.Reaches (levels + 1) t o := by
  intro p hp
  rw [run_visit_succ levels t hp]
  exact h p hp

/-- A term with a meaning is evaluated to it if enough levels are left. -/
theorem Means.exists_reaches {o : Option Value} (h : scope.Means t o) :
    ∃ levels, scope.Reaches levels t o := by
  -- by induction on the derivation, one level more than the parts need
  induction h with
  | number x => exact ⟨1, reaches_succ fun p hp => .result (Value.number x) hp⟩
  | text content => exact ⟨1, reaches_succ fun p hp => .result (Value.text content) hp⟩
  | numberConstant name => exact ⟨1, reaches_succ fun p hp => gives_numberConstant hp name⟩
  | textConstant name => exact ⟨1, reaches_succ fun p hp => gives_constant hp name⟩
  | «variable» h _ ih =>
    obtain ⟨levels, ih⟩ := ih
    refine ⟨levels + 1, reaches_succ fun p hp => ?_⟩
    rw [node, h]
    exact ih p hp
  | undefined h => exact ⟨1, reaches_succ fun p hp => gives_variable_undefined hp h⟩
  | lengthOf h _ ih =>
    obtain ⟨levels, ih⟩ := ih
    refine ⟨levels + 1, reaches_succ fun p hp => ?_⟩
    rw [node, h]
    exact ih p hp
  | unset h => exact ⟨1, reaches_succ fun p hp => gives_lengthOf_unset hp h⟩
  | parens _ ih =>
    obtain ⟨levels, ih⟩ := ih
    exact ⟨levels + 1, reaches_succ ih⟩
  | signed _ ih | call _ ih =>
    obtain ⟨levels, ih⟩ := ih
    exact ⟨levels + 1, reaches_succ fun p hp => (gives_number (ih p hp)).map _⟩
  | refused _ hnone ih =>
    obtain ⟨levels, ih⟩ := ih
    exact ⟨levels + 1, reaches_succ fun p hp => gives_refused (ih p hp) hnone⟩
  | binary _ hx _ ihl ihr =>
    obtain ⟨levels, ihl⟩ := ihl
    obtain ⟨levels', ihr⟩ := ihr
    -- the larger of both numbers of levels does for both operands
    have hl := ihl.mono (Nat.le_max_left levels levels')
    have hr := ihr.mono (Nat.le_max_right levels levels')
    refine ⟨max levels levels' + 1, reaches_succ fun p hp => ?_⟩
    obtain ⟨p', hp', hrun⟩ := exists_run_binary (hl p hp) hx
    rw [hrun]
    exact (gives_number (hr p' hp')).map _

/-- A term has a meaning exactly if its evaluation does not give up when enough levels are left. -/
theorem exists_means_iff : (∃ o, scope.Means t o) ↔ ∃ levels, scope.Finishes levels t := by
  constructor
  · rintro ⟨o, h⟩
    obtain ⟨levels, hreaches⟩ := h.exists_reaches
    exact ⟨levels, fun p hp => (hreaches p hp).complete⟩
  · rintro ⟨levels, h⟩
    obtain ⟨o, hmeans, -⟩ := exists_means_of_complete (p := ⟨false, #[]⟩) rfl (h _ rfl)
    exact ⟨o, hmeans⟩

/-! ## Terms without cycles -/

/-- The value of the first term is computed from that of the second. -/
def Leads (scope : EvaluationScope) (t u : Term) : Prop :=
  u ∈ scope.needs t

/-- No term that the term leads to leads back to itself. -/
def Grounded (scope : EvaluationScope) (t : Term) : Prop :=
  ∀ u, Relation.ReflTransGen scope.Leads t u → ¬Relation.TransGen scope.Leads u u

theorem exists_means_of_needs (h : ∀ u, scope.Leads t u → ∃ o, scope.Means u o) :
    ∃ o, scope.Means t o := by
  cases t with
  | number x => exact ⟨_, .number x⟩
  | text content => exact ⟨_, .text content⟩
  | numberConstant name => exact ⟨_, .numberConstant name⟩
  | textConstant name => exact ⟨_, .textConstant name⟩
  | «variable» name =>
    cases hterm : scope.expr? name with
    | none => exact ⟨_, .undefined hterm⟩
    | some u =>
      obtain ⟨o, hmeans⟩ := h u (by simp [Leads, needs, hterm])
      exact ⟨o, .variable hterm hmeans⟩
  | lengthOf name =>
    cases hterm : (scope.length? name).join with
    | none => exact ⟨_, .unset hterm⟩
    | some u =>
      obtain ⟨o, hmeans⟩ := h u (by simp [Leads, needs, hterm])
      exact ⟨o, .lengthOf (Option.join_eq_some_iff.1 hterm) hmeans⟩
  | parens inner =>
    obtain ⟨o, hmeans⟩ := h inner List.mem_cons_self
    exact ⟨o, .parens hmeans⟩
  | signed sign operand =>
    obtain ⟨o, hmeans⟩ := h operand List.mem_cons_self
    exact ⟨_, .signed hmeans⟩
  | binary op left right =>
    obtain ⟨o, hmeans⟩ := h left List.mem_cons_self
    obtain ⟨o', hmeans'⟩ := h right (List.mem_cons_of_mem _ List.mem_cons_self)
    cases hx : o.bind Value.number? with
    | none => exact ⟨none, .refused hmeans hx⟩
    | some x => exact ⟨_, .binary hmeans hx hmeans'⟩
  | call f argument =>
    obtain ⟨o, hmeans⟩ := h argument List.mem_cons_self
    exact ⟨_, .call hmeans⟩

/-- A term has a meaning if all terms have that the names in it refer to. -/
theorem exists_means_of_references
    (h : ∀ v ∈ t.subterms, (∃ name, v = .variable name) ∨ (∃ name, v = .lengthOf name) →
      ∀ u, scope.Leads v u → ∃ o, scope.Means u o) : ∃ o, scope.Means t o := by
  induction t with
  | number | text | numberConstant | textConstant => exact exists_means_of_needs nofun
  | «variable» name =>
    exact exists_means_of_needs (h _ (Term.mem_subterms_self _) (.inl ⟨name, rfl⟩))
  | lengthOf name =>
    exact exists_means_of_needs (h _ (Term.mem_subterms_self _) (.inr ⟨name, rfl⟩))
  | parens _ ih | signed _ _ ih | call _ _ ih =>
    refine exists_means_of_needs fun u hu => ?_
    rw [List.mem_singleton.1 hu]
    exact ih fun v hv => h v (List.mem_cons_of_mem _ hv)
  | binary _ _ _ ihl ihr =>
    refine exists_means_of_needs fun u hu => ?_
    rcases List.mem_cons.1 hu with rfl | hu
    · exact ihl fun v hv => h v (List.mem_cons_of_mem _ (List.mem_append_left _ hv))
    · rw [List.mem_singleton.1 hu]
      exact ihr fun v hv => h v (List.mem_cons_of_mem _ (List.mem_append_right _ hv))

theorem Closed.mem_of_leads {pool : List Term} (hclosed : scope.Closed pool) {u : Term}
    (ht : t ∈ pool) (h : Relation.ReflTransGen scope.Leads t u) : u ∈ pool := by
  induction h with
  | refl => exact ht
  | tail _ hleads ih => exact hclosed _ ih _ hleads

/-- A term that is not on the way to a cycle has a meaning. -/
theorem Grounded.exists_means {pool : List Term} (hclosed : scope.Closed pool) (ht : t ∈ pool)
    (h : scope.Grounded t) : ∃ o, scope.Means t o := by
  -- what the term leads to is in the pool, so that leading on cannot go on for ever
  let Reached : Type := { u // Relation.ReflTransGen scope.Leads t u }
  have hfinite : Finite Reached :=
    (pool.finite_toSet.subset fun u hu => hclosed.mem_of_leads ht hu).to_subtype
  let after : Reached → Reached → Prop := fun u w => Relation.TransGen scope.Leads w.1 u.1
  have htrans : IsTrans Reached after := ⟨fun _ _ _ hab hbc => hbc.trans hab⟩
  have hirrefl : Std.Irrefl after := ⟨fun u => h u.1 u.2⟩
  have hwell : WellFounded after := Finite.wellFounded_of_trans_of_irrefl after
  have hall : ∀ u : Reached, ∃ o, scope.Means u.1 o := by
    intro u
    induction u using hwell.induction with
    | h u ih =>
      refine exists_means_of_needs fun w hw => ?_
      exact ih ⟨w, u.2.tail hw⟩ (.single hw)
  exact hall ⟨t, .refl⟩

end Beamline.Plain.EvaluationScope

namespace Beamline.Plain.Deck

open Beamline.Expr (Term)

variable {deck : Deck Term}

/-- Without a limit, a term with a meaning is evaluated without giving up. -/
theorem finishes_of_means (hlimit : deck.limits.evalDepth = 0) {t : Term} {o : Option Value}
    (h : deck.scope.Means t o) : deck.scope.Finishes (deck.levels t) t := by
  obtain ⟨levels, hlevels⟩ := EvaluationScope.exists_means_iff.1 ⟨o, h⟩
  -- as many levels do as there are terms in the records and below the given one
  have hpool : t ∈ deck.pool [t] := mem_pool (List.mem_append_right _ List.mem_cons_self)
  have hfinishes := hlevels.of_closed (deck.closed_pool [t]) hpool
  have hlength : (deck.pool [t]).length = deck.levels t := by
    rw [length_pool, Deck.levels, if_pos hlimit, List.map_singleton, List.sum_singleton]
  rwa [hlength] at hfinishes

/-- If no record leads back to itself, every term has a meaning. -/
theorem exists_means_of_grounded (h : ∀ u ∈ deck.symbols.exprs, deck.scope.Grounded u)
    (t : Term) : ∃ o, deck.scope.Means t o := by
  have hmeans {u : Term} (hu : u ∈ deck.symbols.exprs) : ∃ o, deck.scope.Means u o :=
    (h u hu).exists_means (deck.closed_pool []) (mem_pool (List.mem_append_left _ hu))
  refine EvaluationScope.exists_means_of_references fun v _ hname u hu => hmeans ?_
  rcases hname with ⟨name, rfl⟩ | ⟨name, rfl⟩
  · exact mem_exprs_of_expr? (Option.mem_toList.1 hu)
  · exact mem_exprs_of_length? (Option.mem_toList.1 hu)

end Beamline.Plain.Deck
