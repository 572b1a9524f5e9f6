/-!
# Steps that mirror each other

Actions on decks, lowering, evaluation and layout are steps over a state that can end in an error
and keep the state as it was when the error was met. `Mirrors P a b Q E` says of two such steps,
with states and errors of their own, that from states related by `P` they come out alike: either
both end in a result, and results and states are related by `Q`, or both end in an error, and
errors and states are related by `E`.

The rules follow the way in which steps are put together, so that a proof that two programs mirror
each other has the shape of the programs.
-/

namespace Beamline

variable {ε δ σ τ α β γ η : Type}

/-! ## Running a step -/

theorem run_bind_of_ok {a : ExceptT ε (StateM σ) α} {s s' : σ} {x : α}
    (h : a.run s = (.ok x, s')) (f : α → ExceptT ε (StateM σ) β) :
    (a >>= f).run s = (f x).run s' := by
  -- the continuation is handed the outcome of `a`, which `h` names
  change ExceptT.bindCont f (a.run s).1 (a.run s).2 = _
  rw [h]
  rfl

theorem run_bind_of_error {a : ExceptT ε (StateM σ) α} {s s' : σ} {e : ε}
    (h : a.run s = (.error e, s')) (f : α → ExceptT ε (StateM σ) β) :
    (a >>= f).run s = (.error e, s') := by
  change ExceptT.bindCont f (a.run s).1 (a.run s).2 = _
  rw [h]
  rfl

/-- Of steps one after the other that come to a result, the first does so as well. -/
theorem exists_of_run_bind {a : ExceptT ε (StateM σ) α} {f : α → ExceptT ε (StateM σ) β} {s t : σ}
    {y : β} (h : (a >>= f).run s = (.ok y, t)) :
    ∃ x s', a.run s = (.ok x, s') ∧ (f x).run s' = (.ok y, t) := by
  rcases ha : a.run s with ⟨e | x, s'⟩
  · rw [run_bind_of_error ha] at h
    cases h
  · rw [run_bind_of_ok ha] at h
    exact ⟨x, s', rfl, h⟩

theorem run_map (f : α → β) (a : ExceptT ε (StateM σ) α) (s : σ) :
    (f <$> a).run s = ((a.run s).1.map f, (a.run s).2) := by
  rw [map_eq_pure_bind]
  rcases h : a.run s with ⟨x | x, s'⟩
  · rw [run_bind_of_error h]
    rfl
  · rw [run_bind_of_ok h]
    rfl

/-! ## Mirroring -/

/-- From states related by `P`, the steps `a` and `b` come out alike: with results and states
related by `Q`, or with errors and states related by `E`. -/
def Mirrors (P : σ → τ → Prop) (a : ExceptT ε (StateM σ) α) (b : ExceptT δ (StateM τ) β)
    (Q : α → β → σ → τ → Prop) (E : ε → δ → σ → τ → Prop) : Prop :=
  ∀ s t, P s t →
    (∃ x y s' t', a.run s = (.ok x, s') ∧ b.run t = (.ok y, t') ∧ Q x y s' t') ∨
      (∃ e d s' t', a.run s = (.error e, s') ∧ b.run t = (.error d, t') ∧ E e d s' t')

namespace Mirrors

variable {P P' : σ → τ → Prop} {a : ExceptT ε (StateM σ) α} {b : ExceptT δ (StateM τ) β}
  {Q Q' : α → β → σ → τ → Prop} {E E' : ε → δ → σ → τ → Prop}

/-- What is known before may be strengthened and what is known after be weakened. -/
theorem imp (h : Mirrors P a b Q E) (hP : ∀ s t, P' s t → P s t)
    (hQ : ∀ x y s t, Q x y s t → Q' x y s t) (hE : ∀ e d s t, E e d s t → E' e d s t) :
    Mirrors P' a b Q' E' := by
  intro s t hs
  rcases h s t (hP s t hs) with ⟨x, y, s', t', ha, hb, hq⟩ | ⟨e, d, s', t', ha, hb, he⟩
  · exact .inl ⟨x, y, s', t', ha, hb, hQ x y s' t' hq⟩
  · exact .inr ⟨e, d, s', t', ha, hb, hE e d s' t' he⟩

/-- More may be known before. -/
theorem imp_before (h : Mirrors P a b Q E) (hP : ∀ s t, P' s t → P s t) : Mirrors P' a b Q E :=
  h.imp hP (fun _ _ _ _ => id) fun _ _ _ _ => id

/-- A fact known before may be used to prove that the steps mirror each other. -/
theorem of_and {p : Prop} (h : p → Mirrors P a b Q E) :
    Mirrors (fun s t => p ∧ P s t) a b Q E :=
  fun s t hs => h hs.1 s t hs.2

/-- What is known to exist before may be given a name. -/
theorem of_exists {ι : Type} {P : ι → σ → τ → Prop} (h : ∀ i, Mirrors (P i) a b Q E) :
    Mirrors (fun s t => ∃ i, P i s t) a b Q E :=
  fun s t ⟨i, hs⟩ => h i s t hs

/-- What is known of the first step alone may be used after both. -/
theorem and_run {R : α → σ → Prop} (h : Mirrors P a b Q E)
    (hR : ∀ s t, P s t → ∀ x s', a.run s = (.ok x, s') → R x s') :
    Mirrors P a b (fun x y s t => Q x y s t ∧ R x s) E := by
  intro s t hs
  rcases h s t hs with ⟨x, y, s', t', ha, hb, hq⟩ | herror
  · exact .inl ⟨x, y, s', t', ha, hb, hq, hR s t hs x s' ha⟩
  · exact .inr herror

theorem of_pure {x : α} {y : β} (h : ∀ s t, P s t → Q x y s t) :
    Mirrors P (pure x : ExceptT ε (StateM σ) α) (pure y : ExceptT δ (StateM τ) β) Q E :=
  fun s t hs => .inl ⟨x, y, s, t, rfl, rfl, h s t hs⟩

theorem of_throw {e : ε} {d : δ} (h : ∀ s t, P s t → E e d s t) :
    Mirrors P (throw e : ExceptT ε (StateM σ) α)
      (throw d : ExceptT δ (StateM τ) β) Q E :=
  fun s t hs => .inr ⟨e, d, s, t, rfl, rfl, h s t hs⟩

/-- Two changes of the state mirror each other if they keep the states related. -/
theorem of_modify {f : σ → σ} {g : τ → τ} {Q : PUnit → PUnit → σ → τ → Prop}
    (h : ∀ s t, P s t → Q ⟨⟩ ⟨⟩ (f s) (g t)) :
    Mirrors P (modify f : ExceptT ε (StateM σ) PUnit)
      (modify g : ExceptT δ (StateM τ) PUnit) Q E :=
  fun s t hs => .inl ⟨⟨⟩, ⟨⟩, f s, g t, rfl, rfl, h s t hs⟩

/-- Steps one after the other mirror each other if the first do, and the second do on whatever the
first come to. -/
theorem bind {R : α → β → σ → τ → Prop} {f : α → ExceptT ε (StateM σ) γ}
    {g : β → ExceptT δ (StateM τ) η} {Q : γ → η → σ → τ → Prop}
    (h : Mirrors P a b R E) (hf : ∀ x y, Mirrors (R x y) (f x) (g y) Q E) :
    Mirrors P (a >>= f) (b >>= g) Q E := by
  intro s t hs
  rcases h s t hs with ⟨x, y, s', t', ha, hb, hr⟩ | ⟨e, d, s', t', ha, hb, he⟩
  · rw [run_bind_of_ok ha, run_bind_of_ok hb]
    exact hf x y s' t' hr
  · exact .inr ⟨e, d, s', t', run_bind_of_error ha f, run_bind_of_error hb g, he⟩

/-- If the first steps come to the same result, the second are compared on that. -/
theorem bind_eq {b : ExceptT δ (StateM τ) α} {R : σ → τ → Prop} {f : α → ExceptT ε (StateM σ) γ}
    {g : α → ExceptT δ (StateM τ) η} {Q : γ → η → σ → τ → Prop}
    (h : Mirrors P a b (fun x y s t => x = y ∧ R s t) E)
    (hf : ∀ x, Mirrors R (f x) (g x) Q E) : Mirrors P (a >>= f) (b >>= g) Q E := by
  refine h.bind fun x y => of_and fun hxy => ?_
  subst hxy
  exact hf x

/-- If the results are two views of one thing, the steps are compared on the things. -/
theorem of_view {ι : Type} {v : ι → α} {w : ι → β} {R : ι → σ → τ → Prop}
    {f : α → ExceptT ε (StateM σ) γ} {g : β → ExceptT δ (StateM τ) η} {Q : γ → η → σ → τ → Prop}
    (hf : ∀ i, Mirrors (R i) (f (v i)) (g (w i)) Q E) (x : α) (y : β) :
    Mirrors (fun s t => ∃ i, v i = x ∧ w i = y ∧ R i s t) (f x) (g y) Q E := by
  refine of_exists fun i => of_and fun hx => of_and fun hy => ?_
  subst hx hy
  exact hf i

/-- If the first steps come to two views of one thing, the second are compared on the things. -/
theorem bind_view {ι : Type} {v : ι → α} {w : ι → β} {R : ι → σ → τ → Prop}
    {f : α → ExceptT ε (StateM σ) γ} {g : β → ExceptT δ (StateM τ) η} {Q : γ → η → σ → τ → Prop}
    (h : Mirrors P a b (fun x y s t => ∃ i, v i = x ∧ w i = y ∧ R i s t) E)
    (hf : ∀ i, Mirrors (R i) (f (v i)) (g (w i)) Q E) : Mirrors P (a >>= f) (b >>= g) Q E :=
  h.bind (of_view hf)

/-- A step that nothing on the other side answers to. -/
theorem bind_left {R : α → σ → τ → Prop} {f : α → ExceptT ε (StateM σ) γ}
    {b : ExceptT δ (StateM τ) η} {Q : γ → η → σ → τ → Prop}
    (h : Mirrors P a (pure () : ExceptT δ (StateM τ) Unit) (fun x _ => R x) E)
    (hf : ∀ x, Mirrors (R x) (f x) b Q E) : Mirrors P (a >>= f) b Q E := by
  -- give the other side a step that does nothing
  rw [← pure_bind () fun _ => b]
  exact h.bind fun x _ => hf x

/-- A step whose result does not matter. -/
theorem discarded {b : ExceptT δ (StateM τ) PUnit} {Q : PUnit → PUnit → σ → τ → Prop}
    (h : Mirrors P a b (fun _ y => Q ⟨⟩ y) E) : Mirrors P (discard a) b Q E := by
  -- `discard` is a bind, so that `a` can be run first
  have hdiscard : discard a = a >>= fun _ => pure PUnit.unit := by
    rw [← map_eq_pure_bind]
    rfl
  rw [hdiscard]
  intro s t hs
  rcases h s t hs with ⟨x, y, s', t', ha, hb, hq⟩ | ⟨e, d, s', t', ha, hb, he⟩
  · exact .inl ⟨⟨⟩, y, s', t', run_bind_of_ok ha _, hb, hq⟩
  · exact .inr ⟨e, d, s', t', run_bind_of_error ha _, hb, he⟩

/-- A function of the result of a step. -/
theorem map {f : α → γ} {g : β → η} {Q : γ → η → σ → τ → Prop}
    (h : Mirrors P a b (fun x y => Q (f x) (g y)) E) :
    Mirrors P (f <$> a) (g <$> b) Q E := by
  rw [map_eq_pure_bind, map_eq_pure_bind]
  exact h.bind fun x y => of_pure fun _ _ hq => hq

/-- A condition that both steps decide alike. -/
theorem ite {c d : Prop} [Decidable c] [Decidable d] {a' : ExceptT ε (StateM σ) α}
    {b' : ExceptT δ (StateM τ) β} (hc : c ↔ d) (ht : c → Mirrors P a b Q E)
    (hf : ¬c → Mirrors P a' b' Q E) :
    Mirrors P (if c then a else a') (if d then b else b') Q E := by
  by_cases h : c
  · rw [if_pos h, if_pos (hc.1 h)]
    exact ht h
  · rw [if_neg h, if_neg (mt hc.2 h)]
    exact hf h

/-- Two folds over one list mirror each other if the steps do. -/
theorem foldlM {ι : Type} {f : α → ι → ExceptT ε (StateM σ) α}
    {g : β → ι → ExceptT δ (StateM τ) β} {R : α → β → σ → τ → Prop}
    (h : ∀ x y i, Mirrors (R x y) (f x i) (g y i) R E) (items : List ι) (x : α) (y : β) :
    Mirrors (R x y) (items.foldlM f x) (items.foldlM g y) R E := by
  -- `R` is what every turn starts from and what it leaves
  induction items generalizing x y with
  | nil => exact of_pure fun _ _ hr => hr
  | cons item items ih =>
    rw [List.foldlM_cons, List.foldlM_cons]
    exact (h x y item).bind ih

end Mirrors

end Beamline
