import Mathlib.Data.List.Nodup
import Beamline.Proofs.Mirror
import Beamline.Proofs.Plain.Deck

/-!
# How many levels an evaluation needs

An evaluation gives up if it needs a level and none is left: it is cut short where the depth has a
limit, and counts as endless where it has none. What an evaluation does without giving up does not
change when more levels are left or when the limit is another.

Without a limit an evaluation needs no more levels than there are terms to come to: if it comes to
an end with any number of levels, it does so with as many as there are terms in a list that holds
all that it can come to.

* `EvaluationScope.visit_below`: more levels change nothing where an evaluation does not give up.
* `EvaluationScope.even_visit`: the outcome does not depend on the position or on what was raised
  before.
* `EvaluationScope.Finishes.of_closed`: how many levels are enough.
* `EvaluationScope.run_visit_of_length_le`: without a limit, all numbers of levels that are large
  enough are as good as each other.
-/

namespace Beamline.Plain

open Source (Position)
open Diagnostic (Condition)
open Beamline.Expr (Term)

/-- The error without its position. -/
def Error.unplaced : Error → Error
  | .textInArithmetic symbol _ => .textInArithmetic symbol Position.unread
  | .lineTooLong limit _ => .lineTooLong limit Position.unread
  | .endless => .endless

@[simp]
theorem Error.unplaced_eq_endless_iff {e : Error} : e.unplaced = .endless ↔ e = .endless := by
  cases e <;> simp [unplaced]

namespace EvaluationScope

/-! ## Giving up -/

/-- The evaluation did not need a level when none was left. -/
def Complete {α : Type} (outcome : Except Error α × Progress) : Prop :=
  outcome.1 ≠ .error .endless ∧ outcome.2.tripped = false

/-- What was cut short stays cut short. -/
def Sticky {α : Type} (a : Step α) : Prop :=
  ∀ p : Progress, p.tripped = true → (a.run p).2.tripped = true

/-- Of steps one after the other, the first does not give up if the whole does not. -/
theorem complete_of_bind {α β : Type} {a : Step α} {f : α → Step β} (hf : ∀ x, Sticky (f x))
    {p : Progress} (h : Complete ((a >>= f).run p)) : Complete (a.run p) := by
  rcases ha : a.run p with ⟨x | x, p'⟩
  · rw [run_bind_of_error ha] at h
    exact ⟨by simpa using h.1, h.2⟩
  · rw [run_bind_of_ok ha] at h
    refine ⟨nofun, ?_⟩
    -- had the first step been cut short, the second would have stayed so
    cases htripped : p'.tripped with
    | false => rfl
    | true => exact absurd (hf x p' htripped) (by rw [h.2]; decide)

/-- Where the first step does not give up, the second does the same. An evaluation that was cut
short stays so. -/
structure Below {α : Type} (a b : Step α) : Prop where
  /-- What was cut short stays cut short. -/
  sticky : Sticky a
  /-- Where the first does not give up, the second does the same. -/
  run_eq : ∀ p : Progress, p.tripped = false → Complete (a.run p) → b.run p = a.run p

namespace Below

variable {α β : Type} {a b : Step α}

theorem of_pure (x : α) : Below (pure x) (pure x) where
  sticky _ h := h
  run_eq _ _ _ := rfl

theorem of_throw (e : Error) : Below (throw e : Step α) (throw e) where
  sticky _ h := h
  run_eq _ _ _ := rfl

theorem of_raise (scope : EvaluationScope) (condition : Condition) :
    Below (scope.raise condition) (scope.raise condition) where
  sticky _ h := h
  run_eq _ _ _ := rfl

theorem bind {f g : α → Step β} (h : Below a b) (hf : ∀ x, Below (f x) (g x)) :
    Below (a >>= f) (b >>= g) where
  sticky p hp := by
    -- an error keeps the state that the first step left, a result hands it on
    have hsticky := h.sticky p hp
    rcases ha : a.run p with ⟨x | x, p'⟩
    · rw [run_bind_of_error ha]
      rwa [ha] at hsticky
    · rw [run_bind_of_ok ha]
      rw [ha] at hsticky
      exact (hf x).sticky p' hsticky
  run_eq p hp hcomplete := by
    have hfirst := complete_of_bind (fun x => (hf x).sticky) hcomplete
    have hb := h.run_eq p hp hfirst
    rcases ha : a.run p with ⟨x | x, p'⟩
    · rw [run_bind_of_error ha, run_bind_of_error (hb.trans ha)]
    · rw [ha] at hfirst
      rw [run_bind_of_ok ha] at hcomplete ⊢
      rw [run_bind_of_ok (hb.trans ha), (hf x).run_eq p' hfirst.2 hcomplete]

end Below

/-- The terms that the value of a term is computed from: its operands, or the term to which it
refers. -/
def needs (scope : EvaluationScope) : Term → List Term
  | .number _ | .text _ | .numberConstant _ | .textConstant _ => []
  | .variable name => (scope.expr? name).toList
  | .lengthOf name => (scope.length? name).join.toList
  | .parens inner => [inner]
  | .signed _ operand => [operand]
  | .binary _ left right => [left, right]
  | .call _ argument => [argument]

variable {scope : EvaluationScope}

theorem constant_below (name : Name) : Below (scope.constant name) (scope.constant name) := by
  unfold constant
  cases scope.constant? name with
  | some value => exact .of_pure value
  | none => exact (Below.of_raise scope _).bind fun _ => .of_pure Value.zero

theorem number_below {v w : Term → Step Value} {t : Term} (h : Below (v t) (w t)) :
    Below (scope.number v t) (scope.number w t) := by
  refine h.bind fun value => ?_
  cases value with
  | number x => exact .of_pure x
  | text content => exact .of_throw _

/-- A term does not give up where the terms that it needs do not. -/
theorem node_below {v w : Term → Step Value} {t : Term}
    (h : ∀ o ∈ scope.needs t, Below (v o) (w o)) : Below (scope.node v t) (scope.node w t) := by
  cases t with
  | number x => exact .of_pure (Value.number x)
  | text content => exact .of_pure (Value.text content)
  | numberConstant name =>
    refine (constant_below name).bind fun value => ?_
    cases value with
    | number x => exact .of_pure (Value.number x)
    | text content => exact .of_throw _
  | textConstant name => exact constant_below name
  | «variable» name =>
    rw [node, node]
    cases hterm : scope.expr? name with
    | some o => exact h o (by simp [needs, hterm])
    | none => exact (Below.of_raise scope _).bind fun _ => .of_pure Value.zero
  | lengthOf name =>
    rw [node, node]
    cases hterm : scope.length? name with
    | none => exact (Below.of_raise scope _).bind fun _ => .of_pure Value.zero
    | some length =>
      cases length with
      | none => exact .of_pure Value.zero
      | some o => exact h o (by simp [needs, hterm])
  | parens inner => exact h inner List.mem_cons_self
  | signed sign operand =>
    exact (number_below (h operand List.mem_cons_self)).bind fun _ => .of_pure _
  | binary op left right =>
    refine (number_below (h left List.mem_cons_self)).bind fun _ => ?_
    refine (number_below (h right ?_)).bind fun _ => .of_pure _
    exact List.mem_cons_of_mem _ List.mem_cons_self
  | call f argument =>
    exact (number_below (h argument List.mem_cons_self)).bind fun _ => .of_pure _

theorem unlessTripped_below {a b : Step Value} (h : Below a b) :
    Below (unlessTripped a) (unlessTripped b) where
  sticky p hp := by
    rwa [run_unlessTripped_of_tripped a hp]
  run_eq p hp hcomplete := by
    rw [run_unlessTripped_of_not_tripped a hp] at hcomplete ⊢
    rw [run_unlessTripped_of_not_tripped b hp, h.run_eq p hp hcomplete]

/-- Without a level left an evaluation gives up at once. -/
theorem exhausted_below (b : Step Value) : Below scope.exhausted b where
  sticky p hp := by
    rwa [scope.run_exhausted_of_tripped hp]
  run_eq p hp hcomplete := by
    -- with a limit the evaluation is cut short, without one it counts as endless
    by_cases hlimit : scope.limit = 0
    · rw [scope.run_exhausted_of_unlimited hp hlimit] at hcomplete
      exact absurd rfl hcomplete.1
    · rw [scope.run_exhausted_of_limited hp hlimit] at hcomplete
      exact absurd hcomplete.2 nofun

/-- More levels and another limit change nothing where an evaluation does not give up. -/
theorem visit_below {levels more : Nat} (h : levels ≤ more) (limit : Nat) (t : Term) :
    Below (scope.visit levels t) ({ scope with limit }.visit more t) := by
  -- by induction on the levels, each node handing one less to what it needs
  induction levels generalizing more t with
  | zero => exact exhausted_below _
  | succ levels ih =>
    obtain ⟨more, rfl⟩ : ∃ n, more = n + 1 := ⟨more - 1, by omega⟩
    -- a node itself does not look at the limit
    have hnode : { scope with limit }.node ({ scope with limit }.visit more) t =
        scope.node ({ scope with limit }.visit more) t := by
      cases t <;> rfl
    rw [visit, visit, hnode]
    exact unlessTripped_below (node_below fun o _ => ih (by omega) o)

/-! ## Position and diagnostics -/

/-- Both scopes look up the same and have the same limit. -/
structure SameLookups (scope other : EvaluationScope) : Prop where
  /-- The constants are the same. -/
  constant? : scope.constant? = other.constant?
  /-- The variables are the same. -/
  expr? : scope.expr? = other.expr?
  /-- The lengths are the same. -/
  length? : scope.length? = other.length?
  /-- The limit is the same. -/
  limit : scope.limit = other.limit

theorem SameLookups.refl (scope : EvaluationScope) : scope.SameLookups scope :=
  ⟨rfl, rfl, rfl, rfl⟩

/-- Both evaluations were cut short or neither was. -/
structure Even (limit : Nat) (p q : Progress) : Prop where
  /-- Neither was cut short alone. -/
  tripped_eq : p.tripped = q.tripped
  /-- No evaluation is cut short without a limit. -/
  unlimited : limit = 0 → p.tripped = false
  /-- A warning tells that the evaluation was cut short. -/
  warned : p.tripped = true → ∃ d ∈ p.raised, d.code = .nestingTooDeep

/-- Both evaluations came to the same result. -/
def EvenWith {α : Type} (limit : Nat) (x y : α) (p q : Progress) : Prop :=
  x = y ∧ Even limit p q

/-- Both evaluations ended in the same error, but for its position. None is endless where there is
a limit. -/
def EvenError (limit : Nat) (e d : Error) (p q : Progress) : Prop :=
  e.unplaced = d.unplaced ∧ (e = .endless → limit = 0) ∧ Even limit p q

section Position

variable {other : EvaluationScope}

theorem even_raise (condition : Condition) :
    Mirrors (Even scope.limit) (scope.raise condition) (other.raise condition)
      (fun _ _ => Even scope.limit) (EvenError scope.limit) := by
  refine Mirrors.of_modify fun _ _ h => { h with warned := fun htripped => ?_ }
  obtain ⟨d, hd, hcode⟩ := h.warned htripped
  exact ⟨d, Array.mem_push_of_mem _ hd, hcode⟩

theorem even_number {v w : Term → Step Value} {t : Term}
    (h : Mirrors (Even scope.limit) (v t) (w t) (EvenWith scope.limit) (EvenError scope.limit)) :
    Mirrors (Even scope.limit) (scope.number v t) (other.number w t) (EvenWith scope.limit)
      (EvenError scope.limit) := by
  refine h.bind_eq fun x => ?_
  cases x with
  | number x => exact Mirrors.of_pure fun _ _ h => ⟨rfl, h⟩
  | text content => exact Mirrors.of_throw fun _ _ h => ⟨rfl, nofun, h⟩

variable (hsame : scope.SameLookups other)
include hsame

theorem even_constant (name : Name) :
    Mirrors (Even scope.limit) (scope.constant name) (other.constant name)
      (EvenWith scope.limit) (EvenError scope.limit) := by
  unfold constant
  rw [hsame.constant?]
  cases other.constant? name with
  | some value => exact Mirrors.of_pure fun _ _ h => ⟨rfl, h⟩
  | none => exact (even_raise _).bind fun _ _ => Mirrors.of_pure fun _ _ h => ⟨rfl, h⟩

theorem even_node {v w : Term → Step Value}
    (h : ∀ t, Mirrors (Even scope.limit) (v t) (w t) (EvenWith scope.limit)
      (EvenError scope.limit)) (t : Term) :
    Mirrors (Even scope.limit) (scope.node v t) (other.node w t) (EvenWith scope.limit)
      (EvenError scope.limit) := by
  have hreturn (x : Value) : Mirrors (Even scope.limit) (pure x : Step Value) (pure x : Step Value)
      (EvenWith scope.limit) (EvenError scope.limit) :=
    Mirrors.of_pure fun _ _ h => ⟨rfl, h⟩
  cases t with
  | number x => exact hreturn (.number x)
  | text content => exact hreturn (.text content)
  | numberConstant name =>
    refine (even_constant hsame name).bind_eq fun x => ?_
    cases x with
    | number x => exact hreturn (.number x)
    | text content => exact Mirrors.of_throw fun _ _ h => ⟨rfl, nofun, h⟩
  | textConstant name => exact even_constant hsame name
  | «variable» name =>
    rw [node, node, hsame.expr?]
    cases other.expr? name with
    | some o => exact h o
    | none => exact (even_raise _).bind fun _ _ => hreturn .zero
  | lengthOf name =>
    rw [node, node, hsame.length?]
    cases other.length? name with
    | none => exact (even_raise _).bind fun _ _ => hreturn .zero
    | some length =>
      cases length with
      | none => exact hreturn .zero
      | some o => exact h o
  | parens inner => exact h inner
  | signed sign operand => exact (even_number (h operand)).bind_eq fun x => hreturn _
  | binary op left right =>
    refine (even_number (h left)).bind_eq fun x => ?_
    exact (even_number (h right)).bind_eq fun y => hreturn _
  | call f argument => exact (even_number (h argument)).bind_eq fun x => hreturn _

/-- The outcome of an evaluation does not depend on the position or on what was raised before. -/
theorem even_visit (levels : Nat) (t : Term) :
    Mirrors (Even scope.limit) (scope.visit levels t) (other.visit levels t)
      (EvenWith scope.limit) (EvenError scope.limit) := by
  induction levels generalizing t with
  | zero =>
    intro p q h
    rw [visit, visit]
    cases htripped : p.tripped with
    | true =>
      rw [scope.run_exhausted_of_tripped htripped,
        other.run_exhausted_of_tripped (h.tripped_eq.symm.trans htripped)]
      exact .inl ⟨_, _, _, _, rfl, rfl, rfl, h⟩
    | false =>
      have htripped' := h.tripped_eq.symm.trans htripped
      by_cases hlimit : scope.limit = 0
      · rw [scope.run_exhausted_of_unlimited htripped hlimit,
          other.run_exhausted_of_unlimited htripped' (hsame.limit.symm.trans hlimit)]
        exact .inr ⟨_, _, _, _, rfl, rfl, rfl, fun _ => hlimit, h⟩
      · rw [scope.run_exhausted_of_limited htripped hlimit,
          other.run_exhausted_of_limited htripped' (hsame.limit ▸ hlimit)]
        refine .inl ⟨_, _, _, _, rfl, rfl, rfl, rfl, fun h => absurd h hlimit, fun _ => ?_⟩
        exact ⟨_, Array.mem_push_self, rfl⟩
  | succ levels ih =>
    intro p q h
    rw [visit, visit]
    cases htripped : p.tripped with
    | true =>
      rw [run_unlessTripped_of_tripped _ htripped,
        run_unlessTripped_of_tripped _ (h.tripped_eq.symm.trans htripped)]
      exact .inl ⟨_, _, _, _, rfl, rfl, rfl, h⟩
    | false =>
      rw [run_unlessTripped_of_not_tripped _ htripped,
        run_unlessTripped_of_not_tripped _ (h.tripped_eq.symm.trans htripped)]
      exact even_node hsame ih t p q h

end Position

/-- Evaluations that were not cut short before begin alike. -/
theorem Even.of_not_tripped {limit : Nat} {p q : Progress} (hp : p.tripped = false)
    (hq : q.tripped = false) : Even limit p q where
  tripped_eq := hp.trans hq.symm
  unlimited _ := hp
  warned h := absurd h (by rw [hp]; decide)

/-- With a limit no evaluation is endless. -/
theorem ne_endless_of_limit {t : Term} (hlimit : scope.limit ≠ 0) {levels : Nat} {p : Progress}
    (hp : p.tripped = false) : ((scope.visit levels t).run p).1 ≠ .error .endless := by
  intro h
  rcases even_visit (SameLookups.refl scope) levels t p p (.of_not_tripped hp hp) with
    ⟨x, y, p', q', ha, -⟩ | ⟨e, d, p', q', ha, -, -, hend, -⟩
  · rw [ha] at h
    cases h
  · rw [ha] at h
    exact hlimit (hend (Except.error.inj h))

/-- With a limit, an evaluation that raises no warning about its depth does not give up. -/
theorem complete_of_not_warned (hlimit : scope.limit ≠ 0) {levels : Nat} {t : Term} {p : Progress}
    (hp : p.tripped = false)
    (h : ∀ d ∈ ((scope.visit levels t).run p).2.raised, d.code ≠ .nestingTooDeep) :
    Complete ((scope.visit levels t).run p) := by
  -- whatever cut the evaluation short would have left its warning
  have hquiet {q q' : Progress} (heven : Even scope.limit q q')
      (hq : ∀ d ∈ q.raised, d.code ≠ .nestingTooDeep) : q.tripped = false := by
    cases htripped : q.tripped with
    | false => rfl
    | true =>
      obtain ⟨d, hd, hcode⟩ := heven.warned htripped
      exact absurd hcode (hq d hd)
  have heven := even_visit (SameLookups.refl scope) levels t p p (.of_not_tripped hp hp)
  rcases heven with ⟨x, y, p', q', ha, -, -, heven⟩ | ⟨e, d, p', q', ha, -, -, hend, heven⟩
  · rw [ha] at h ⊢
    exact ⟨nofun, hquiet heven h⟩
  · rw [ha] at h ⊢
    exact ⟨fun he => hlimit (hend (Except.error.inj he)), hquiet heven h⟩

/-! ## Evaluations without a limit -/

/-- The evaluation of the term does not give up with the given number of levels. -/
def Finishes (scope : EvaluationScope) (levels : Nat) (t : Term) : Prop :=
  ∀ p : Progress, p.tripped = false → Complete ((scope.visit levels t).run p)

/-- An evaluation that once does not give up never does. -/
theorem finishes_of_complete {levels : Nat} {t : Term} {p : Progress} (hp : p.tripped = false)
    (h : Complete ((scope.visit levels t).run p)) : scope.Finishes levels t := by
  intro q hq
  have heven := even_visit (SameLookups.refl scope) levels t p q (.of_not_tripped hp hq)
  rcases heven with ⟨x, y, p', q', ha, hb, -, heven⟩ | ⟨e, d, p', q', ha, hb, hed, -, heven⟩
  · rw [ha] at h
    rw [hb]
    exact ⟨nofun, heven.tripped_eq.symm.trans h.2⟩
  · rw [ha] at h
    rw [hb]
    refine ⟨fun hd => h.1 ?_, heven.tripped_eq.symm.trans h.2⟩
    obtain rfl := Except.error.inj hd
    exact congrArg Except.error (Error.unplaced_eq_endless_iff.1 hed)

theorem Finishes.mono {levels more : Nat} {t : Term} (h : scope.Finishes levels t)
    (hle : levels ≤ more) : scope.Finishes more t := by
  intro p hp
  have := (visit_below hle scope.limit t).run_eq p hp (h p hp)
  rw [this]
  exact h p hp

theorem not_finishes_zero (t : Term) : ¬scope.Finishes 0 t := by
  intro h
  -- were it enough, a step that is endless at once would do the same
  have hcomplete := h ⟨false, #[]⟩ rfl
  have hrun := (exhausted_below (throw .endless)).run_eq ⟨false, #[]⟩ rfl hcomplete
  change (Except.error Error.endless, _) = scope.exhausted.run _ at hrun
  exact hcomplete.1 (congrArg Prod.fst hrun).symm

/-- A term that needs one level more needs a term that does. -/
theorem exists_needs_of_finishes {levels : Nat} {t : Term} (h : scope.Finishes (levels + 2) t)
    (hnot : ¬scope.Finishes (levels + 1) t) :
    ∃ o ∈ scope.needs t, scope.Finishes (levels + 1) o ∧ ¬scope.Finishes levels o := by
  by_contra hnone
  push Not at hnone
  -- otherwise one level less would do for all that the term needs, and so for the term
  have hbelow : Below (scope.visit (levels + 2) t) (scope.visit (levels + 1) t) := by
    refine unlessTripped_below (node_below fun o ho => ⟨?_, fun p hp hcomplete => ?_⟩)
    · exact (visit_below (Nat.le_refl _) scope.limit o).sticky
    · have hfewer := hnone o ho (finishes_of_complete hp hcomplete)
      exact ((visit_below (Nat.le_succ _) scope.limit o).run_eq p hp (hfewer p hp)).symm
  refine hnot fun p hp => ?_
  rw [hbelow.run_eq p hp (h p hp)]
  exact h p hp

/-- A list of terms that holds all that its terms need. -/
def Closed (scope : EvaluationScope) (pool : List Term) : Prop :=
  ∀ t ∈ pool, ∀ o ∈ scope.needs t, o ∈ pool

/-- A term that needs a number of levels comes with as many terms, each needing another number. -/
theorem exists_chain {pool : List Term} (hclosed : scope.Closed pool) {levels : Nat} {t : Term}
    (ht : t ∈ pool) (h : scope.Finishes (levels + 1) t) (hnot : ¬scope.Finishes levels t) :
    ∃ chain : List Term, chain.length = levels + 1 ∧ chain.Nodup ∧ chain ⊆ pool ∧
      ∀ o ∈ chain, scope.Finishes (levels + 1) o := by
  induction levels generalizing t with
  | zero => exact ⟨[t], rfl, List.nodup_singleton t, by simpa using ht, by simpa using h⟩
  | succ levels ih =>
    obtain ⟨o, ho, hfinishes, hfewer⟩ := exists_needs_of_finishes h hnot
    obtain ⟨chain, hlength, hnodup, hsub, hchain⟩ := ih (hclosed t ht o ho) hfinishes hfewer
    refine ⟨t :: chain, by rw [List.length_cons, hlength], ?_, ?_, ?_⟩
    -- `t` is new to the chain, as fewer levels than it needs do for all of that
    · exact List.nodup_cons.2 ⟨fun hmem => hnot (hchain t hmem), hnodup⟩
    · exact List.cons_subset.2 ⟨ht, hsub⟩
    · intro u hu
      rcases List.mem_cons.1 hu with rfl | hu
      · exact h
      · exact (hchain u hu).mono (Nat.le_succ _)

/-- An evaluation that does not give up with some number of levels does not give up with as many
as there are terms that it can come to. -/
theorem Finishes.of_closed {pool : List Term} (hclosed : scope.Closed pool) {levels : Nat}
    {t : Term} (ht : t ∈ pool) (h : scope.Finishes levels t) :
    scope.Finishes pool.length t := by
  induction levels with
  | zero => exact absurd h (not_finishes_zero t)
  | succ levels ih =>
    by_cases hfewer : scope.Finishes levels t
    · exact ih hfewer
    · -- a chain without repetition is no longer than the list that it is taken from
      obtain ⟨chain, hlength, hnodup, hsub, -⟩ := exists_chain hclosed ht h hfewer
      have hle := hnodup.length_le_of_subset hsub
      exact h.mono (by omega)

/-- Without a limit, an evaluation that gives up is endless. -/
theorem error_of_not_finishes (hlimit : scope.limit = 0) {levels : Nat} {t : Term}
    (h : ¬scope.Finishes levels t) {p : Progress} (hp : p.tripped = false) :
    ∃ p', (scope.visit levels t).run p = (.error .endless, p') := by
  have heven := even_visit (SameLookups.refl scope) levels t p p (.of_not_tripped hp hp)
  rcases heven with ⟨x, y, p', q', ha, -, -, heven⟩ | ⟨e, d, p', q', ha, -, -, -, heven⟩
  · refine absurd (finishes_of_complete hp ?_) h
    rw [ha]
    exact ⟨nofun, heven.unlimited hlimit⟩
  -- an error of another kind is no giving up either
  · cases e with
    | endless => exact ⟨p', ha⟩
    | _ =>
      refine absurd (finishes_of_complete hp ?_) h
      rw [ha]
      exact ⟨nofun, heven.unlimited hlimit⟩

/-- Without a limit, all numbers of levels that are large enough are as good as each other. -/
theorem run_visit_of_length_le (hlimit : scope.limit = 0) {pool : List Term}
    (hclosed : scope.Closed pool) {t : Term} (ht : t ∈ pool) {levels more : Nat}
    (hlevels : pool.length ≤ levels) (hmore : pool.length ≤ more) {p : Progress}
    (hp : p.tripped = false) :
    (scope.visit levels t).run p = (scope.visit more t).run p ∨
      ∃ p' q', (scope.visit levels t).run p = (.error .endless, p') ∧
        (scope.visit more t).run p = (.error .endless, q') := by
  by_cases h : scope.Finishes pool.length t
  -- either both do what is done with as many levels as there are terms, or both are endless
  · have hrun {n : Nat} (hn : pool.length ≤ n) :=
      (visit_below hn scope.limit t).run_eq p hp (h p hp)
    exact .inl ((hrun hlevels).trans (hrun hmore).symm)
  · have hrun (n : Nat) : ∃ p', (scope.visit n t).run p = (.error .endless, p') :=
      error_of_not_finishes hlimit (fun hn => h (hn.of_closed hclosed ht)) hp
    obtain ⟨p', hp'⟩ := hrun levels
    obtain ⟨q', hq'⟩ := hrun more
    exact .inr ⟨p', q', hp', hq'⟩

end EvaluationScope

end Beamline.Plain

/-! ## The terms of a deck -/

namespace Beamline.Expr.Term

/-- The term itself and all terms below it. -/
def subterms (t : Term) : List Term :=
  match t with
  | .number _ | .text _ | .numberConstant _ | .textConstant _ | .variable _ | .lengthOf _ => [t]
  | .parens inner => t :: inner.subterms
  | .signed _ operand => t :: operand.subterms
  | .binary _ left right => t :: (left.subterms ++ right.subterms)
  | .call _ argument => t :: argument.subterms

theorem mem_subterms_self (t : Term) : t ∈ t.subterms := by
  cases t <;> simp [subterms]

theorem length_subterms (t : Term) : t.subterms.length = t.size := by
  induction t with
  | number | text | numberConstant | textConstant | «variable» | lengthOf => rfl
  | parens _ ih | signed _ _ ih | call _ _ ih => rw [subterms, List.length_cons, ih, size]
  | binary _ _ _ ihl ihr => rw [subterms, List.length_cons, List.length_append, ihl, ihr, size]

/-- What passes from a term to its operands holds of all that is below it. -/
theorem of_mem_subterms {P : Term → Prop} (hparens : ∀ inner, P (.parens inner) → P inner)
    (hsigned : ∀ sign operand, P (.signed sign operand) → P operand)
    (hbinary : ∀ op left right, P (.binary op left right) → P left ∧ P right)
    (hcall : ∀ f argument, P (.call f argument) → P argument) {t u : Term} (ht : P t)
    (h : u ∈ t.subterms) : P u := by
  induction t with
  | number | text | numberConstant | textConstant | «variable» | lengthOf =>
    rw [List.mem_singleton.1 h]
    exact ht
  | parens inner ih =>
    rcases List.mem_cons.1 h with rfl | h
    · exact ht
    · exact ih (hparens inner ht) h
  | signed sign operand ih =>
    rcases List.mem_cons.1 h with rfl | h
    · exact ht
    · exact ih (hsigned sign operand ht) h
  | binary op left right ihl ihr =>
    obtain ⟨hleft, hright⟩ := hbinary op left right ht
    rcases List.mem_cons.1 h with rfl | h
    · exact ht
    · exact (List.mem_append.1 h).elim (ihl hleft) (ihr hright)
  | call f argument ih =>
    rcases List.mem_cons.1 h with rfl | h
    · exact ht
    · exact ih (hcall f argument ht) h

/-- What is below a term below another is below that one. -/
theorem subterms_subset {t u : Term} (h : u ∈ t.subterms) : u.subterms ⊆ t.subterms := by
  have hcons {a : Term} {l : List Term} (h : a :: l ⊆ t.subterms) : l ⊆ t.subterms :=
    List.Subset.trans (List.subset_cons_self a l) h
  refine of_mem_subterms (P := fun u => u.subterms ⊆ t.subterms) (fun _ => hcons)
    (fun _ _ => hcons) (fun _ _ _ h => ?_) (fun _ _ => hcons) (List.Subset.refl _) h
  exact ⟨List.Subset.trans (List.subset_append_left _ _) (hcons h),
    List.Subset.trans (List.subset_append_right _ _) (hcons h)⟩

end Beamline.Expr.Term

namespace Beamline.Plain.EvaluationScope

open Beamline.Expr (Term)

/-- What a term needs lies below it, or a name refers to it. -/
theorem needs_cases {scope : EvaluationScope} {t u : Term} (h : u ∈ scope.needs t) :
    u ∈ t.subterms ∨ (∃ name, t = .variable name ∧ scope.expr? name = some u) ∨
      ∃ name, t = .lengthOf name ∧ (scope.length? name).join = some u := by
  cases t with
  | number | text | numberConstant | textConstant => cases h
  | «variable» name => exact .inr (.inl ⟨name, rfl, Option.mem_toList.1 h⟩)
  | lengthOf name => exact .inr (.inr ⟨name, rfl, Option.mem_toList.1 h⟩)
  | parens | signed | call =>
    rw [List.mem_singleton.1 h]
    exact .inl (List.mem_cons_of_mem _ (Term.mem_subterms_self _))
  | binary op left right =>
    refine .inl (List.mem_cons_of_mem _ ?_)
    rcases List.mem_cons.1 h with rfl | h
    · exact List.mem_append_left _ (Term.mem_subterms_self _)
    · rw [List.mem_singleton.1 h]
      exact List.mem_append_right _ (Term.mem_subterms_self _)

end Beamline.Plain.EvaluationScope

namespace Beamline.Plain.Deck

open Beamline.Expr (Term)

/-- The terms that an evaluation can come to from the records and the given terms. -/
def pool (deck : Deck Term) (terms : List Term) : List Term :=
  (deck.symbols.exprs ++ terms).flatMap Term.subterms

theorem length_pool (deck : Deck Term) (terms : List Term) :
    (deck.pool terms).length = deck.size + (terms.map Term.size).sum := by
  rw [pool, List.length_flatMap, size, ← List.sum_append_nat, ← List.map_append]
  congr 1
  exact List.map_congr_left fun u _ => u.length_subterms

theorem mem_pool {deck : Deck Term} {terms : List Term} {t : Term}
    (h : t ∈ deck.symbols.exprs ++ terms) : t ∈ deck.pool terms :=
  List.mem_flatMap.2 ⟨t, h, t.mem_subterms_self⟩

/-- The scope in which the terms of the deck are evaluated. -/
def scope (deck : Deck Term) : EvaluationScope :=
  deck.symbols.evaluationScope deck.pos deck.limits.evalDepth

theorem run_evaluate (t : Term) (w : Work) :
    (evaluate t).run w =
      (((w.deck.scope.visit (w.deck.levels t) t).run ⟨false, w.raised⟩).1,
        { w with raised :=
            ((w.deck.scope.visit (w.deck.levels t) t).run ⟨false, w.raised⟩).2.raised }) :=
  rfl

theorem mem_exprs_of_expr? {deck : Deck Term} {name : Name} {t : Term}
    (h : deck.scope.expr? name = some t) : t ∈ deck.symbols.exprs := by
  obtain ⟨record, hrecord, rfl⟩ := Option.map_eq_some_iff.1 h
  refine List.mem_append_left _ (List.mem_append_right _ ?_)
  exact List.mem_map_of_mem (Table.mem_of_get? hrecord)

theorem mem_exprs_of_length? {deck : Deck Term} {name : Name} {t : Term}
    (h : (deck.scope.length? name).join = some t) : t ∈ deck.symbols.exprs := by
  obtain ⟨record, hrecord, hlength⟩ :=
    Option.map_eq_some_iff.1 (Option.join_eq_some_iff.1 h)
  refine List.mem_append_right _ (List.mem_flatMap.2 ⟨record, ?_, ?_⟩)
  · exact Table.mem_of_get? hrecord
  · exact Element.mem_exprs_of_length? hlength

/-- What a term leads to at once lies below it or is held by a record. -/
theorem mem_subterms_or_exprs_of_needs {deck : Deck Term} {t u : Term}
    (h : u ∈ deck.scope.needs t) : u ∈ t.subterms ∨ u ∈ deck.symbols.exprs := by
  rcases EvaluationScope.needs_cases h with h | ⟨name, -, h⟩ | ⟨name, -, h⟩
  · exact .inl h
  · exact .inr (mem_exprs_of_expr? h)
  · exact .inr (mem_exprs_of_length? h)

/-- The terms that an evaluation can come to need no others. -/
theorem closed_pool (deck : Deck Term) (terms : List Term) :
    deck.scope.Closed (deck.pool terms) := by
  intro u hu o ho
  obtain ⟨v, hv, hu⟩ := List.mem_flatMap.1 hu
  rcases mem_subterms_or_exprs_of_needs ho with h | h
  · exact List.mem_flatMap.2 ⟨v, hv, Term.subterms_subset hu h⟩
  · exact mem_pool (List.mem_append_left _ h)

end Beamline.Plain.Deck
