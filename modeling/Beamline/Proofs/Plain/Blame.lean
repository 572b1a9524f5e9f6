import Beamline.Proofs.Plain.Lowered
import Beamline.Proofs.Plain.Meaning

/-!
# What is to blame for a text

Lowering lets neither a text nor the name of a text constant stand where a number is needed. So a
text that an evaluation finds there has come by a name: by that of a constant that was a number when
the formula was lowered, or by that of a variable or of an element, for these are looked up when
they are needed.

* `Expr.Term.Apt`: what lowering comes to.
* `Deck.exists_blamed_of_run_evaluate`: what is to blame when an evaluation fails.
-/

namespace Beamline

open Source (Position)
open Beamline.Expr (Formula Term)

namespace Expr.Term

/-- No text and no name of a text constant stands where a number is needed, be it in parentheses or
not. The flag says whether the term itself stands at such a place. -/
def Apt (arithmetic : Bool) : Term → Prop
  | .number _ | .numberConstant _ | .variable _ | .lengthOf _ => True
  | .text _ | .textConstant _ => arithmetic = false
  | .parens inner => inner.Apt arithmetic
  | .signed _ operand => operand.Apt true
  | .binary _ left right => left.Apt true ∧ right.Apt true
  | .call _ argument => argument.Apt true

variable {t u : Term} {arithmetic : Bool}

/-- What may stand where a number is needed may stand anywhere. -/
theorem Apt.anywhere (h : t.Apt arithmetic) : t.Apt false := by
  induction t with
  | number | numberConstant | «variable» | lengthOf => trivial
  | text | textConstant => rfl
  | parens _ ih => exact ih h
  | signed | binary | call => exact h

theorem Apt.of_mem_subterms (ht : t.Apt arithmetic) (h : u ∈ t.subterms) : u.Apt false :=
  Term.of_mem_subterms (P := Apt false) (fun _ h => h) (fun _ _ h => Apt.anywhere h)
    (fun _ _ _ h => ⟨Apt.anywhere h.1, Apt.anywhere h.2⟩) (fun _ _ h => Apt.anywhere h)
    ht.anywhere h

theorem apt_ofValue (v : Value) : (ofValue v).Apt false := by
  cases v with
  | number x => trivial
  | text content => rfl

end Expr.Term

namespace Plain

/-! ## Lowering -/

/-- A term that a formula is lowered to is apt, and all constants that it takes for numbers are
numbers. -/
theorem LoweringScope.admits_apt (scope : LoweringScope) (formula : Formula) :
    scope.Admits formula
      (fun arithmetic t => t.Apt arithmetic ∧
        ∀ name, .numberConstant name ∈ t.subterms → ∃ x, scope.constant? name = some (.number x))
      fun _ => True where
  number _ _ := ⟨trivial, fun _ h => nomatch List.mem_singleton.1 h⟩
  text _ _ := ⟨rfl, fun _ h => nomatch List.mem_singleton.1 h⟩
  refusedText _ _ := trivial
  numberConstant _ name x hx := by
    refine ⟨trivial, fun other h => ?_⟩
    cases List.mem_singleton.1 h
    exact ⟨x, hx⟩
  textConstant _ _ _ := ⟨rfl, fun _ h => nomatch List.mem_singleton.1 h⟩
  refusedConstant _ _ _ := trivial
  otherName _ _ _ _ := ⟨trivial, fun _ h => nomatch List.mem_singleton.1 h⟩
  lengthOf _ _ _ := ⟨trivial, fun _ h => nomatch List.mem_singleton.1 h⟩
  parens _ _ h := ⟨h.1, fun name hmem => h.2 name ((List.mem_cons.1 hmem).resolve_left nofun)⟩
  signed _ _ _ h := ⟨h.1, fun name hmem => h.2 name ((List.mem_cons.1 hmem).resolve_left nofun)⟩
  binary _ _ _ _ hleft hright := by
    refine ⟨⟨hleft.1, hright.1⟩, fun name hmem => ?_⟩
    rcases List.mem_append.1 ((List.mem_cons.1 hmem).resolve_left nofun) with hmem | hmem
    · exact hleft.2 name hmem
    · exact hright.2 name hmem
  call _ _ _ h := ⟨h.1, fun name hmem => h.2 name ((List.mem_cons.1 hmem).resolve_left nofun)⟩

/-! ## Texts -/

namespace EvaluationScope

variable {scope : EvaluationScope} {t u : Term} {levels top : Nat} {content : String}

/-- What has the effect of a step that leaves an evaluation alone. -/
theorem run_visit_of_tripped (levels : Nat) (t : Term) {p : Progress} (hp : p.tripped = true) :
    (scope.visit levels t).run p = (.ok .zero, p) := by
  cases levels with
  | zero => exact scope.run_exhausted_of_tripped hp
  | succ levels => exact run_unlessTripped_of_tripped _ hp

/-- A text that a term comes to is what the term means, and the levels are enough for it, if the
evaluation was not cut short. -/
theorem finishes_and_means_of_text {p p' : Progress} (hp' : p'.tripped = false)
    (h : (scope.visit levels t).run p = (.ok (.text content), p')) :
    scope.Finishes levels t ∧ scope.Means t (some (.text content)) := by
  have hp : p.tripped = false := by
    cases hp : p.tripped with
    | true => cases h.symm.trans (run_visit_of_tripped levels t hp)
    | false => rfl
  have hcomplete : Complete ((scope.visit levels t).run p) := by
    rw [h]
    exact ⟨nofun, hp'⟩
  obtain ⟨o, hmeans, hgives⟩ := exists_means_of_complete hp hcomplete
  rw [h] at hgives
  cases hgives
  exact ⟨finishes_of_complete hp hcomplete, hmeans⟩

/-- The name is that of a variable or of an element, and stands for the term. -/
def Refers (scope : EvaluationScope) (name : Name) (t : Term) : Prop :=
  scope.expr? name = some t ∨ scope.length? name = some (some t)

/-- What is enough for a term is enough for the one that it hands over to. -/
theorem Finishes.of_node (h : scope.Finishes levels t) (hnode : ∀ v, scope.node v t = v u) :
    scope.Finishes levels u := by
  cases levels with
  | zero => exact absurd h (not_finishes_zero t)
  | succ levels =>
    refine Finishes.mono (fun p hp => ?_) (Nat.le_succ levels)
    have hcomplete := h p hp
    rwa [run_visit_succ levels t hp, hnode] at hcomplete

/-- A text where a number is needed has come by the name of a variable or of an element, and that
name is to blame. -/
theorem exists_refers_of_text (ht : t.Apt true) (hmeans : scope.Means t (some (.text content)))
    (hfinishes : scope.Finishes levels t) :
    ∃ name u, t.blame content = name.text ∧ scope.Refers name u ∧
      scope.Means u (some (.text content)) ∧ scope.Finishes levels u := by
  -- by induction on the derivation, which only parentheses carry on: a name ends it
  generalize ho : some (Value.text content) = o at hmeans
  induction hmeans with
  | number | undefined | unset | refused => cases ho
  | text | textConstant => cases ht
  | numberConstant name => exact absurd ho.symm (Value.map_number_ne_text (f := id))
  | «variable» hexpr hu =>
    subst ho
    refine ⟨_, _, rfl, .inl hexpr, hu, hfinishes.of_node fun v => ?_⟩
    rw [node, hexpr]
  | lengthOf hlength hu =>
    subst ho
    refine ⟨_, _, rfl, .inr hlength, hu, hfinishes.of_node fun v => ?_⟩
    rw [node, hlength]
  | parens _ ih => exact ih ht (hfinishes.of_node fun _ => rfl) ho
  | signed | binary | call => exact absurd ho.symm Value.map_number_ne_text

/-! ## Blame -/

/-- The name is to blame for a text that is met from the term on. -/
inductive Blamed (scope : EvaluationScope) (top : Nat) (root : Term) (name : Name) : Prop where
  /-- A constant is a text and was taken for a number. -/
  | constant (content : String) (text : scope.constant? name = some (.text content))
      (reached : Relation.ReflTransGen scope.Leads root (.numberConstant name))
  /-- What a variable or a length refers to is a text. -/
  | reference {u : Term} {content : String} (refers : scope.Refers name u)
      (means : scope.Means u (some (.text content))) (finishes : scope.Finishes top u)

/-- The evaluation is endless, or a text stands where a number is needed and the error names what is
to blame. -/
def Blames (scope : EvaluationScope) (top : Nat) (root : Term) (e : Error) : Prop :=
  e = .endless ∨
    ∃ (name : Name) (pos : Position), e = .textInArithmetic name.text pos ∧
      scope.Blamed top root name

/-- An evaluation that comes to a text was not cut short. -/
def Whole (v : Value) (p : Progress) : Prop :=
  v.isText = true → p.tripped = false

theorem whole_number (x : Float) (p : Progress) : Whole (.number x) p :=
  nofun

section

variable {root : Term} {P : Progress → Prop}

/-- What a step of an evaluation comes to, be it a value or an error. -/
abbrev Faithful (scope : EvaluationScope) (top : Nat) (root : Term) (P : Progress → Prop)
    (a : Step Value) : Prop :=
  Ensures P a Whole fun e _ => scope.Blames top root e

theorem faithful_undefined (condition : Diagnostic.Condition) :
    scope.Faithful top root P (do
      scope.raise condition
      return Value.zero) :=
  Ensures.bind (R := fun _ _ => True) (Ensures.of_modify fun _ _ => trivial)
    fun _ => Ensures.of_pure fun p _ => whole_number _ p

theorem faithful_constant (name : Name) :
    scope.Faithful top root (fun p => p.tripped = false) (scope.constant name) := by
  unfold constant
  cases scope.constant? name with
  | some value => exact Ensures.of_pure fun _ hp _ => hp
  | none => exact faithful_undefined _

theorem faithful_numberConstant {v : Term → Step Value} {name : Name}
    (hreached : Relation.ReflTransGen scope.Leads root (.numberConstant name)) :
    scope.Faithful top root P (scope.node v (.numberConstant name)) := by
  rw [node, constant]
  cases hconstant : scope.constant? name with
  | none =>
    exact Ensures.bind (R := fun x _ => x = .zero)
      (Ensures.bind (R := fun _ _ => True) (Ensures.of_modify fun _ _ => trivial)
        fun _ => Ensures.of_pure fun _ _ => rfl)
      fun x => by
        intro p hx
        subst hx
        exact .inl ⟨_, p, rfl, whole_number _ p⟩
  | some value =>
    cases value with
    | number x => exact fun p _ => .inl ⟨_, p, rfl, whole_number _ p⟩
    | text content =>
      exact fun p _ =>
        .inr ⟨_, p, rfl, .inr ⟨name, scope.pos, rfl, .constant content hconstant hreached⟩⟩

/-- An operand that is no number. -/
theorem ensures_number (hle : levels ≤ top) (ht : t.Apt true)
    (h : scope.Faithful top root (fun _ => True) (scope.visit levels t)) :
    Ensures (fun _ => True) (scope.number (scope.visit levels) t) (fun _ _ => True)
      fun e _ => scope.Blames top root e := by
  intro p _
  unfold number
  rcases hrun : (scope.visit levels t).run p with ⟨e | v, p'⟩
  · exact .inr ⟨e, p', run_bind_of_error hrun _, h.of_run_error trivial hrun⟩
  · rw [run_bind_of_ok hrun]
    cases v with
    | number x => exact .inl ⟨x, p', rfl, trivial⟩
    | text content =>
      obtain ⟨hfinishes, hmeans⟩ :=
        finishes_and_means_of_text (h.of_run_ok trivial hrun rfl) hrun
      obtain ⟨name, u, hname, hrefers, hu, hlevels⟩ := exists_refers_of_text ht hmeans hfinishes
      refine .inr ⟨_, p', rfl, .inr ⟨name, scope.pos, ?_, .reference hrefers hu (hlevels.mono hle)⟩⟩
      rw [hname]

theorem faithful_node (hle : levels ≤ top) (hapt : t.Apt false)
    (hreached : Relation.ReflTransGen scope.Leads root t)
    (h : ∀ u, scope.Leads t u → scope.Faithful top root (fun _ => True) (scope.visit levels u)) :
    scope.Faithful top root (fun p => p.tripped = false) (scope.node (scope.visit levels) t) := by
  have hvisit (u : Term) (hu : scope.Leads t u) :
      scope.Faithful top root (fun p => p.tripped = false) (scope.visit levels u) :=
    (h u hu).imp (fun _ _ => trivial) (fun _ _ => id) fun _ _ => id
  have hnumber (u : Term) (hu : scope.Leads t u) (hu' : u.Apt true) :
      Ensures (fun _ => True) (scope.number (scope.visit levels) u) (fun _ _ => True)
        fun e _ => scope.Blames top root e :=
    ensures_number hle hu' (h u hu)
  have hreturn (f : Float → Float) (x : Float) :
      scope.Faithful top root (fun _ => True) (pure (.number (f x))) :=
    Ensures.of_pure fun p _ => whole_number _ p
  cases t with
  | number x => exact Ensures.of_pure fun p _ => whole_number _ p
  | text content => exact Ensures.of_pure fun _ hp _ => hp
  | numberConstant name => exact faithful_numberConstant hreached
  | textConstant name => exact faithful_constant name
  | «variable» name =>
    rw [node]
    cases hexpr : scope.expr? name with
    | some u => exact hvisit u (Option.mem_toList.2 hexpr)
    | none => exact faithful_undefined _
  | lengthOf name =>
    rw [node]
    cases hlength : scope.length? name with
    | none => exact faithful_undefined _
    | some length =>
      cases length with
      | some u => exact hvisit u (Option.mem_toList.2 (congrArg Option.join hlength))
      | none => exact Ensures.of_pure fun p _ => whole_number _ p
  | parens inner => exact hvisit inner List.mem_cons_self
  | signed sign operand =>
    have hoperand := hnumber operand List.mem_cons_self hapt
    exact fun p _ => (hoperand.bind (hreturn sign.apply)) p trivial
  | binary op left right =>
    have hleft := hnumber left List.mem_cons_self hapt.1
    have hright := hnumber right (List.mem_cons_of_mem _ List.mem_cons_self) hapt.2
    exact fun p _ => (hleft.bind fun x => hright.bind (hreturn (op.apply x))) p trivial
  | call f argument =>
    have hargument := hnumber argument List.mem_cons_self hapt
    exact fun p _ => (hargument.bind (hreturn f.apply)) p trivial

/-- Where all terms that are reached are apt, an evaluation that comes to a text was not cut short,
and one that fails for a text blames a name that is to blame. -/
theorem faithful_visit (hapt : ∀ u, Relation.ReflTransGen scope.Leads root u → u.Apt false)
    (hreached : Relation.ReflTransGen scope.Leads root t) (hle : levels ≤ top) :
    scope.Faithful top root (fun _ => True) (scope.visit levels t) := by
  induction levels generalizing t with
  | zero =>
    intro p _
    rw [visit]
    cases hp : p.tripped with
    | true => exact .inl ⟨_, _, scope.run_exhausted_of_tripped hp, whole_number _ p⟩
    | false =>
      by_cases hlimit : scope.limit = 0
      · exact .inr ⟨_, _, scope.run_exhausted_of_unlimited hp hlimit, .inl rfl⟩
      · exact .inl ⟨_, _, scope.run_exhausted_of_limited hp hlimit, whole_number _ _⟩
  | succ levels ih =>
    intro p _
    cases hp : p.tripped with
    | true => exact .inl ⟨_, _, run_visit_of_tripped _ t hp, whole_number _ p⟩
    | false =>
      rw [run_visit_succ levels t hp]
      have hle' : levels ≤ top := Nat.le_of_succ_le hle
      exact faithful_node hle' (hapt t hreached) hreached
        (fun u hu => ih (hreached.tail hu) hle') p hp

end

end EvaluationScope

/-! ## Decks -/

namespace Deck

variable {d : Deck Term} {t u : Term}

/-- What a term leads to lies below the term or below that of a record, which it leads to, too. -/
theorem exists_root_of_reached (h : Relation.ReflTransGen d.scope.Leads t u) :
    ∃ root, (root = t ∨ root ∈ d.symbols.exprs) ∧
      Relation.ReflTransGen d.scope.Leads t root ∧ u ∈ root.subterms := by
  induction h with
  | refl => exact ⟨t, .inl rfl, .refl, t.mem_subterms_self⟩
  | tail hu hleads ih =>
    rename_i u w
    obtain ⟨root, hroot, hreached, hbelow⟩ := ih
    rcases mem_subterms_or_exprs_of_needs hleads with h | h
    · exact ⟨root, hroot, hreached, Term.subterms_subset hbelow h⟩
    · exact ⟨w, .inr h, hu.tail hleads, w.mem_subterms_self⟩

/-- As many levels as another evaluation had left are enough at the start. -/
theorem finishes_levels (h : d.scope.Finishes (d.levels t) u) (hu : u ∈ d.symbols.exprs) :
    d.scope.Finishes (d.levels u) u := by
  by_cases hlimit : d.limits.evalDepth = 0
  · -- without a limit all terms of the records are provided for
    have hpool := h.of_closed (d.closed_pool []) (mem_pool (List.mem_append_left _ hu))
    rw [length_pool] at hpool
    refine hpool.mono ?_
    rw [levels, if_pos hlimit]
    exact Nat.add_le_add_left (Nat.zero_le _) _
  · rwa [levels, if_neg hlimit] at h ⊢

/-- A term is evaluated to what it means if the levels are enough. -/
theorem run_evaluate_of_means {v : Value} (hmeans : d.scope.Means t (some v))
    (hfinishes : d.scope.Finishes (d.levels t) t) (raised : Array Diagnostic) :
    ((evaluate t).run ⟨d, raised⟩).1 = .ok v := by
  have hcomplete := hfinishes ⟨false, raised⟩ rfl
  have hgives := (EvaluationScope.means_iff_of_complete rfl hcomplete _).1 hmeans
  rw [run_evaluate]
  generalize (d.scope.visit (d.levels t) t).run ⟨false, raised⟩ = run at hgives
  cases hgives
  rfl

/-- If all terms that the records hold are apt, an evaluation that comes to a text was not cut
short, and one that fails is endless or blames a name that is to blame. -/
theorem faithful_visit (hrecords : ∀ u ∈ d.symbols.exprs, u.Apt false) (ht : t.Apt false) :
    d.scope.Faithful (d.levels t) t (fun _ => True) (d.scope.visit (d.levels t) t) := by
  refine EvaluationScope.faithful_visit (fun u hu => ?_) .refl (Nat.le_refl _)
  obtain ⟨root, hroot, -, hbelow⟩ := exists_root_of_reached hu
  rcases hroot with rfl | hroot
  · exact ht.of_mem_subterms hbelow
  · exact (hrecords root hroot).of_mem_subterms hbelow

theorem exists_blamed_of_run_evaluate (hrecords : ∀ u ∈ d.symbols.exprs, u.Apt false)
    (ht : t.Apt false) {raised : Array Diagnostic} {symbol : String} {pos : Position}
    (h : ((evaluate t).run ⟨d, raised⟩).1 = .error (.textInArithmetic symbol pos)) :
    ∃ name : Name, symbol = name.text ∧ d.scope.Blamed (d.levels t) t name := by
  rw [run_evaluate] at h
  rcases hrun : (d.scope.visit (d.levels t) t).run ⟨false, raised⟩ with ⟨e | v, p⟩
  · rw [hrun] at h
    obtain rfl : e = .textInArithmetic symbol pos := Except.error.inj h
    rcases (faithful_visit hrecords ht).of_run_error trivial hrun with hend | ⟨name, _, he, hname⟩
    · cases hend
    · cases he
      exact ⟨name, rfl, hname⟩
  · rw [hrun] at h
    cases h

theorem run_slotValue_of_means {v : Value} (hmeans : d.scope.Means t (some v))
    (hfinishes : d.scope.Finishes (d.levels t) t) (raised : Array Diagnostic) :
    ((slotValue (some (some t))).run ⟨d, raised⟩).1 = .ok (some v) := by
  have hvalue := run_evaluate_of_means hmeans hfinishes raised
  rw [slotValue, map_eq_pure_bind]
  rcases hrun : (evaluate t).run ⟨d, raised⟩ with ⟨e | x, w⟩
  · rw [hrun] at hvalue
    cases hvalue
  · rw [hrun] at hvalue
    rw [run_bind_of_ok hrun]
    exact congrArg (fun x => Except.ok (some x)) (Except.ok.inj hvalue)

/-- The value of the variable or the length of the element that a name stands for. -/
theorem run_query_of_refers {name : Name} {v : Value} (h : d.scope.Refers name u)
    (hmeans : d.scope.Means u (some v)) (hfinishes : d.scope.Finishes (d.levels t) u)
    (raised : Array Diagnostic) :
    ((variableValue name.text).run ⟨d, raised⟩).1 = .ok (some v) ∨
      ((elementLength name.text).run ⟨d, raised⟩).1 = .ok (some v) := by
  rcases h with hexpr | hlength
  · have hu := mem_exprs_of_expr? hexpr
    have hslot := run_slotValue_of_means hmeans (finishes_levels hfinishes hu) raised
    obtain ⟨record, hrecord, rfl⟩ := Option.map_eq_some_iff.1 hexpr
    left
    rw [← hslot, variableValue]
    change ((slotValue ((d.symbols.vars.get? (Name.ofText name.text)).map _)).run _).1 = _
    rw [Name.ofText_text, hrecord]
    rfl
  · have hu := mem_exprs_of_length? (congrArg Option.join hlength)
    have hslot := run_slotValue_of_means hmeans (finishes_levels hfinishes hu) raised
    obtain ⟨record, hrecord, hset⟩ := Option.map_eq_some_iff.1 hlength
    right
    rw [← hslot, elementLength, ← hset]
    change ((slotValue ((d.symbols.elements.get? (Name.ofText name.text)).map _)).run _).1 = _
    rw [Name.ofText_text, hrecord]
    rfl

end Deck

end Plain

end Beamline
