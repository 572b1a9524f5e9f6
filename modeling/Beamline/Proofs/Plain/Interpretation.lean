import Beamline.Proofs.Plain.Meaning

/-!
# What formulas mean

The meaning of a formula read as it stands, without lowering it first: identifiers are told apart
when they are met, and every operator asks for numbers. Lowering refuses a formula early if a text
stands where a number is needed, and can do so only for texts that are in sight: those in quotes
and those of constants. What it lets pass has the meaning of the formula; what it refuses has no
value.

* `EvaluationScope.Denotes`: the meaning of a formula.
* `Formula.textOperands`: the texts in sight that stand where a number is needed.
* `LoweringScope.lowers`: what lowering does.
* `EvaluationScope.Denotes.textOperands_eq_nil`: a formula with a value has no text among its
  operands.
-/

namespace Beamline

open Beamline.Expr (Formula Operator Term)

/-- The texts that stand where a number is needed, left to right: those in quotes, and the names
of text constants. `operand` says that the formula itself stands there; parentheses pass it on. -/
def Expr.Formula.textOperands (constant? : Name → Option Value) :
    Formula → (operand : Bool) → List String
  | .number _, _ => []
  | .text content, operand => if operand then [Value.quote content] else []
  | .name raw, operand =>
    match constant? (Name.ofText raw) with
    | some (.text _) => if operand then [(Name.ofText raw).text] else []
    | _ => []
  | .lengthOf _, _ => []
  | .parens inner, operand => inner.textOperands constant? operand
  | .signed _ operand, _ => operand.textOperands constant? true
  | .binary _ left right, _ =>
    left.textOperands constant? true ++ right.textOperands constant? true
  | .call _ argument, _ => argument.textOperands constant? true

namespace Plain

namespace EvaluationScope

variable {scope : EvaluationScope} {formula : Formula}

/-- What a formula means: a value, or none where a text stands in place of a number. An identifier
stands for the value of a constant, or else for what the term of a variable means, or else for
zero. -/
def Denotes (scope : EvaluationScope) : Formula → Option Value → Prop
  | .number x, o => o = some (.number x)
  | .text content, o => o = some (.text content)
  | .name raw, o =>
    match scope.constant? (Name.ofText raw), scope.expr? (Name.ofText raw) with
    | some value, _ => o = some value
    | none, some t => scope.Means t o
    | none, none => o = some .zero
  | .lengthOf raw, o =>
    match (scope.length? (Name.ofText raw)).join with
    | some t => scope.Means t o
    | none => o = some .zero
  | .parens inner, o => scope.Denotes inner o
  | .signed sign operand, o =>
    ∃ x, scope.Denotes operand x ∧
      o = (x.bind Value.number?).map fun a => .number (sign.apply a)
  | .binary op left right, o =>
    ∃ x, scope.Denotes left x ∧
      match x.bind Value.number? with
      | none => o = none
      | some a =>
        ∃ y, scope.Denotes right y ∧
          o = (y.bind Value.number?).map fun b => .number (op.apply a b)
  | .call f argument, o =>
    ∃ x, scope.Denotes argument x ∧ o = (x.bind Value.number?).map fun a => .number (f.apply a)

/-- The terms that the names and lengths of a formula refer to. -/
def references (scope : EvaluationScope) : Formula → List Term
  | .number _ | .text _ => []
  | .name raw =>
    match scope.constant? (Name.ofText raw) with
    | some _ => []
    | none => (scope.expr? (Name.ofText raw)).toList
  | .lengthOf raw => (scope.length? (Name.ofText raw)).join.toList
  | .parens inner => scope.references inner
  | .signed _ operand => scope.references operand
  | .binary _ left right => scope.references left ++ scope.references right
  | .call _ argument => scope.references argument

/-- A formula has a meaning if all that it refers to has one. -/
theorem exists_denotes (h : ∀ t ∈ scope.references formula, ∃ o, scope.Means t o) :
    ∃ o, scope.Denotes formula o := by
  induction formula with
  | number x => exact ⟨_, rfl⟩
  | text content => exact ⟨_, rfl⟩
  | name raw =>
    unfold references at h
    unfold Denotes
    cases hconstant : scope.constant? (Name.ofText raw) with
    | some value => exact ⟨some value, rfl⟩
    | none =>
      rw [hconstant] at h
      cases hterm : scope.expr? (Name.ofText raw) with
      | none => exact ⟨some .zero, rfl⟩
      | some t => exact h t (by simp [hterm])
  | lengthOf raw =>
    unfold references at h
    unfold Denotes
    cases hterm : (scope.length? (Name.ofText raw)).join with
    | none => exact ⟨some .zero, rfl⟩
    | some t => exact h t (by simp [hterm])
  | parens inner ih => exact ih h
  | signed sign operand ih =>
    obtain ⟨x, hx⟩ := ih h
    exact ⟨_, x, hx, rfl⟩
  | binary op left right ihl ihr =>
    obtain ⟨x, hx⟩ := ihl fun t ht => h t (List.mem_append_left _ ht)
    obtain ⟨y, hy⟩ := ihr fun t ht => h t (List.mem_append_right _ ht)
    unfold Denotes
    cases hnumber : x.bind Value.number? with
    | none => exact ⟨none, x, hx, by rw [hnumber]⟩
    | some a => exact ⟨_, x, hx, by rw [hnumber]; exact ⟨y, hy, rfl⟩⟩
  | call f argument ih =>
    obtain ⟨x, hx⟩ := ih h
    exact ⟨_, x, hx, rfl⟩

/-- With a value, a formula has no text among its operands; where it is an operand itself, it may
be a text behind parentheses. -/
theorem Denotes.textOperands_eq_nil {v : Value} (h : scope.Denotes formula (some v))
    {operand : Bool} (hv : operand = true → v.number?.isSome) :
    formula.textOperands scope.constant? operand = [] := by
  -- where the result is a value, the operand came to a number
  have hnumber {u : Option Value} {f : Float → Value} {v : Value}
      (h : some v = (u.bind Value.number?).map f) :
      ∃ w, u = some w ∧ (true = true → w.number?.isSome) := by
    obtain ⟨x, hx, -⟩ := Option.map_eq_some_iff.1 h.symm
    obtain ⟨w, hw, hx⟩ := Option.bind_eq_some_iff.1 hx
    exact ⟨w, hw, fun _ => by rw [hx]; rfl⟩
  induction formula generalizing v operand with
  | number x => rfl
  | text content =>
    cases operand with
    | false => rfl
    | true =>
      -- the formula would be a text, which is no number
      obtain rfl : v = .text content := Option.some.inj h
      cases hv rfl
  | name raw =>
    unfold Denotes at h
    unfold Formula.textOperands
    cases hconstant : scope.constant? (Name.ofText raw) with
    | none => rfl
    | some value =>
      rw [hconstant] at h
      obtain rfl : v = value := Option.some.inj h
      cases v with
      | number x => rfl
      | text content =>
        cases operand with
        | false => rfl
        | true => cases hv rfl
  | lengthOf raw => rfl
  | parens inner ih => exact ih h hv
  | signed sign operand ih | call f operand ih =>
    obtain ⟨x, hx, hmap⟩ := h
    obtain ⟨w, rfl, hw⟩ := hnumber hmap
    exact ih hx hw
  | binary op left right ihl ihr =>
    obtain ⟨x, hx, hrest⟩ := h
    cases ha : x.bind Value.number? with
    | none =>
      rw [ha] at hrest
      cases hrest
    | some a =>
      rw [ha] at hrest
      obtain ⟨y, hy, hmap⟩ := hrest
      obtain ⟨w, rfl, hw⟩ := Option.bind_eq_some_iff.1 ha
      obtain ⟨u, rfl, hu⟩ := hnumber hmap
      unfold Formula.textOperands
      rw [ihl hx fun _ => by rw [hw]; rfl, ihr hy hu, List.append_nil]

end EvaluationScope

/-! ## Lowering -/

namespace LoweringScope

variable {scope : LoweringScope} {raised : Array Diagnostic}

/-- What lowering makes of a formula: a term that means what the formula means or, if there are
texts among the operands, an error that blames the first. -/
def Lowers (scope : LoweringScope) (formula : Formula) (operand : Bool)
    (run : Except Error Term × Array Diagnostic) : Prop :=
  (formula.textOperands scope.constant? operand = [] ∧ ∃ t, run.1 = .ok t ∧
      ∀ e : EvaluationScope, e.constant? = scope.constant? →
        ∀ o, e.Means t o ↔ e.Denotes formula o) ∨
    ∃ symbol rest, formula.textOperands scope.constant? operand = symbol :: rest ∧
      run.1 = .error (.textInArithmetic symbol scope.pos)

/-- A formula whose term is put together from that of one operand. -/
theorem Lowers.of_operand {formula inner : Formula} {operand innerOperand : Bool}
    {f : Term → Term}
    (htexts : formula.textOperands scope.constant? operand =
      inner.textOperands scope.constant? innerOperand)
    (hmeans : ∀ (e : EvaluationScope) t, (∀ o, e.Means t o ↔ e.Denotes inner o) →
      ∀ o, e.Means (f t) o ↔ e.Denotes formula o)
    (h : scope.Lowers inner innerOperand ((scope.lower inner innerOperand).run raised)) :
    scope.Lowers formula operand
      ((scope.lower inner innerOperand >>= fun t => pure (f t)).run raised) := by
  -- the term is wrapped, an error is passed on
  rcases hrun : (scope.lower inner innerOperand).run raised with ⟨outcome, raised'⟩
  rw [hrun] at h
  rcases h with ⟨hnil, t, rfl, ht⟩ | ⟨symbol, rest, hcons, rfl⟩
  · refine .inl ⟨htexts.trans hnil, f t, ?_, fun e he => hmeans e t (ht e he)⟩
    rw [run_bind_of_ok hrun]
    rfl
  · refine .inr ⟨symbol, rest, htexts.trans hcons, ?_⟩
    rw [run_bind_of_error hrun]

theorem lowers_name (hall : scope.constantsOnly = false) (raw : String) (operand : Bool) :
    scope.Lowers (.name raw) operand ((scope.lower (.name raw) operand).run raised) := by
  rw [lower, classify]
  unfold Lowers Formula.textOperands EvaluationScope.Denotes
  generalize Name.ofText raw = name
  cases hconstant : scope.constant? name with
  | none =>
    -- a variable, with a warning if there is none of the name
    refine .inl ⟨rfl, .variable name, ?_, fun e he o => ?_⟩
    · rw [hall]
      cases scope.isVariable name <;> rfl
    · rw [he, hconstant, EvaluationScope.means_variable_iff]
      cases e.expr? name <;> rfl
  | some value =>
    have hvalue (e : EvaluationScope) (he : e.constant? = scope.constant?) :
        e.constantValue name = value := by
      rw [EvaluationScope.constantValue, he, hconstant, Option.getD_some]
    cases value with
    | number x =>
      refine .inl ⟨rfl, .numberConstant name, rfl, fun e he o => ?_⟩
      rw [EvaluationScope.means_numberConstant_iff, hvalue e he, he, hconstant]
      rfl
    | text content =>
      cases operand with
      | true => exact .inr ⟨_, [], rfl, rfl⟩
      | false =>
        refine .inl ⟨rfl, .textConstant name, rfl, fun e he o => ?_⟩
        rw [EvaluationScope.means_textConstant_iff, hvalue e he, he, hconstant]

theorem lowers_binary {op : Operator} {left right : Formula} {operand : Bool}
    (hl : scope.Lowers left true ((scope.lower left true).run raised))
    (hr : ∀ raised, scope.Lowers right true ((scope.lower right true).run raised)) :
    scope.Lowers (.binary op left right) operand
      ((scope.lower (.binary op left right) operand).run raised) := by
  rw [lower]
  unfold Lowers Formula.textOperands
  rcases hleft : (scope.lower left true).run raised with ⟨outcome, raised'⟩
  rw [hleft] at hl
  rcases hl with ⟨hnil, t, rfl, ht⟩ | ⟨symbol, rest, hcons, rfl⟩
  · -- without a text on the left, the first one is the first on the right
    rw [run_bind_of_ok hleft, hnil, List.nil_append]
    have hr := hr raised'
    rcases hright : (scope.lower right true).run raised' with ⟨outcome, raised''⟩
    rw [hright] at hr
    rcases hr with ⟨hnil', u, rfl, hu⟩ | ⟨symbol, rest, hcons, rfl⟩
    · rw [run_bind_of_ok hright]
      refine .inl ⟨hnil', .binary op t u, rfl, fun e he o => ?_⟩
      rw [EvaluationScope.means_binary_iff, EvaluationScope.Denotes]
      refine exists_congr fun x => and_congr (ht e he x) ?_
      cases x.bind Value.number? with
      | none => rfl
      | some a => exact exists_congr fun y => and_congr (hu e he y) Iff.rfl
    · rw [run_bind_of_error hright]
      exact .inr ⟨symbol, rest, hcons, rfl⟩
  · -- the first text is on the left, and the right operand is not looked at
    rw [run_bind_of_error hleft, hcons]
    exact .inr ⟨symbol, rest ++ right.textOperands scope.constant? true, rfl, rfl⟩

/-- Lowering comes to a term that means what the formula means, unless a text in sight stands where
a number is needed; then it blames the first of these. -/
theorem lowers (hall : scope.constantsOnly = false) (formula : Formula) (operand : Bool)
    (raised : Array Diagnostic) :
    scope.Lowers formula operand ((scope.lower formula operand).run raised) := by
  induction formula generalizing operand raised with
  | number x =>
    exact .inl ⟨rfl, .number x, rfl, fun e _ o => EvaluationScope.means_number_iff⟩
  | text content =>
    cases operand with
    | true => exact .inr ⟨_, [], rfl, rfl⟩
    | false =>
      exact .inl ⟨rfl, .text content, rfl, fun e _ o => EvaluationScope.means_text_iff⟩
  | name raw => exact lowers_name hall raw operand
  | lengthOf raw =>
    refine .inl ⟨rfl, .lengthOf (Name.ofText raw), ?_,
      fun e _ o => EvaluationScope.means_lengthOf_iff⟩
    rw [lower]
    cases scope.isElement (Name.ofText raw) <;> rfl
  | parens inner ih =>
    exact (ih operand raised).of_operand rfl fun e t ht o =>
      EvaluationScope.means_parens_iff.trans (ht o)
  | signed sign inner ih =>
    exact (ih true raised).of_operand rfl fun e t ht o =>
      EvaluationScope.means_signed_iff.trans (exists_congr fun x => and_congr (ht x) Iff.rfl)
  | binary op left right ihl ihr => exact lowers_binary (ihl true raised) (ihr true)
  | call f argument ih =>
    exact (ih true raised).of_operand rfl fun e t ht o =>
      EvaluationScope.means_call_iff.trans (exists_congr fun x => and_congr (ht x) Iff.rfl)

end LoweringScope

end Plain

end Beamline
