import Beamline.Proofs.Mirror

/-!
# What a step ensures

The steps of `Mirror`, one at a time. `Ensures P a Q E` says of a step that from states with `P` it
comes to a result and a state with `Q`, or ends in an error and in a state with `E`. As an error
keeps the state as it was when the error was met, `E` is what a failure leaves behind.

The rules follow the way in which steps are put together.
-/

namespace Beamline

variable {ε σ α β : Type}

/-- From states with `P`, the step comes to a result and a state with `Q`, or ends in an error and
in a state with `E`. -/
def Ensures (P : σ → Prop) (a : ExceptT ε (StateM σ) α) (Q : α → σ → Prop) (E : ε → σ → Prop) :
    Prop :=
  ∀ s, P s →
    (∃ x s', a.run s = (.ok x, s') ∧ Q x s') ∨ (∃ e s', a.run s = (.error e, s') ∧ E e s')

/-- The step keeps what holds of a state, be it that it comes to a result or to an error. -/
abbrev Preserves (I : σ → Prop) (a : ExceptT ε (StateM σ) α) : Prop :=
  Ensures I a (fun _ => I) fun _ => I

namespace Ensures

variable {P P' I : σ → Prop} {a a' : ExceptT ε (StateM σ) α} {Q Q' : α → σ → Prop}
  {E E' : ε → σ → Prop}

/-- What a step has come to. -/
theorem of_run_ok (h : Ensures P a Q E) {s s' : σ} {x : α} (hs : P s)
    (hrun : a.run s = (.ok x, s')) : Q x s' := by
  rcases h s hs with ⟨y, t, ha, hq⟩ | ⟨e, t, ha, -⟩ <;> rw [hrun] at ha <;> cases ha
  exact hq

/-- What a failure has left behind. -/
theorem of_run_error (h : Ensures P a Q E) {s s' : σ} {e : ε} (hs : P s)
    (hrun : a.run s = (.error e, s')) : E e s' := by
  rcases h s hs with ⟨y, t, ha, -⟩ | ⟨e', t, ha, he⟩ <;> rw [hrun] at ha <;> cases ha
  exact he

/-- What is kept holds after the step, whatever it has come to. -/
theorem run (h : Preserves I a) {s : σ} (hs : I s) : I (a.run s).2 := by
  rcases h s hs with ⟨x, s', ha, hI⟩ | ⟨e, s', ha, hI⟩ <;> rw [ha] <;> exact hI

/-- What is known before may be strengthened and what is known after be weakened. -/
theorem imp (h : Ensures P a Q E) (hP : ∀ s, P' s → P s) (hQ : ∀ x s, Q x s → Q' x s)
    (hE : ∀ e s, E e s → E' e s) : Ensures P' a Q' E' := by
  intro s hs
  rcases h s (hP s hs) with ⟨x, s', ha, hq⟩ | ⟨e, s', ha, he⟩
  · exact .inl ⟨x, s', ha, hQ x s' hq⟩
  · exact .inr ⟨e, s', ha, hE e s' he⟩

/-- Less may be said of a failure. -/
theorem imp_error (h : Ensures P a Q E) (hE : ∀ e s, E e s → E' e s) : Ensures P a Q E' :=
  h.imp (fun _ => id) (fun _ _ => id) hE

/-- Nothing may be said at all. -/
theorem of_true (P : σ → Prop) (a : ExceptT ε (StateM σ) α) :
    Ensures P a (fun _ _ => True) fun _ _ => True := by
  intro s _
  rcases h : a.run s with ⟨e | x, s'⟩
  · exact .inr ⟨e, s', rfl, trivial⟩
  · exact .inl ⟨x, s', rfl, trivial⟩

/-- What is known of the results and what is known of the states may be put together. -/
theorem and {P' : σ → Prop} {Q' : α → σ → Prop} {E' : ε → σ → Prop} (h : Ensures P a Q E)
    (h' : Ensures P' a Q' E') :
    Ensures (fun s => P s ∧ P' s) a (fun x s => Q x s ∧ Q' x s) fun e s => E e s ∧ E' e s := by
  intro s ⟨hs, hs'⟩
  rcases hrun : a.run s with ⟨e | x, t⟩
  · exact .inr ⟨e, t, rfl, h.of_run_error hs hrun, h'.of_run_error hs' hrun⟩
  · exact .inl ⟨x, t, rfl, h.of_run_ok hs hrun, h'.of_run_ok hs' hrun⟩

/-- A fact about the results so far may be used. -/
theorem of_and {p : Prop} (h : p → Ensures P a Q E) : Ensures (fun s => p ∧ P s) a Q E :=
  fun s ⟨hp, hs⟩ => h hp s hs

/-- Such a fact may be all that is known. -/
theorem of_fact {p : Prop} (h : p → Ensures (fun _ => True) a Q E) : Ensures (fun _ => p) a Q E :=
  fun s hp => h hp s trivial

theorem of_pure {x : α} (h : ∀ s, P s → Q x s) :
    Ensures P (pure x : ExceptT ε (StateM σ) α) Q E :=
  fun s hs => .inl ⟨x, s, rfl, h s hs⟩

theorem of_throw {e : ε} (h : ∀ s, P s → E e s) :
    Ensures P (throw e : ExceptT ε (StateM σ) α) Q E :=
  fun s hs => .inr ⟨e, s, rfl, h s hs⟩

theorem of_modify {f : σ → σ} {Q : PUnit → σ → Prop} (h : ∀ s, P s → Q ⟨⟩ (f s)) :
    Ensures P (modify f : ExceptT ε (StateM σ) PUnit) Q E :=
  fun s hs => .inl ⟨⟨⟩, f s, rfl, h s hs⟩

/-- Steps one after the other: the second starts from whatever the first comes to. -/
theorem bind {R : α → σ → Prop} {f : α → ExceptT ε (StateM σ) β} {Q : β → σ → Prop}
    (h : Ensures P a R E) (hf : ∀ x, Ensures (R x) (f x) Q E) : Ensures P (a >>= f) Q E := by
  intro s hs
  rcases h s hs with ⟨x, s', ha, hr⟩ | ⟨e, s', ha, he⟩
  · rw [run_bind_of_ok ha]
    exact hf x s' hr
  · exact .inr ⟨e, s', run_bind_of_error ha f, he⟩

/-- A function of the result of a step. -/
theorem map {f : α → β} {Q : β → σ → Prop} (h : Ensures P a (fun x => Q (f x)) E) :
    Ensures P (f <$> a) Q E := by
  rw [map_eq_pure_bind]
  exact h.bind fun x => of_pure fun _ hq => hq

/-- A step whose result does not matter. -/
theorem discarded {Q : PUnit → σ → Prop} (h : Ensures P a (fun _ => Q ⟨⟩) E) :
    Ensures P (discard a) Q E := by
  -- `discard` forgets the result by a map
  rw [show discard a = (fun _ => PUnit.unit) <$> a from rfl]
  exact h.map

theorem ite {c : Prop} [Decidable c] (ht : c → Ensures P a Q E) (hf : ¬c → Ensures P a' Q E) :
    Ensures P (if c then a else a') Q E := by
  by_cases h : c
  · rw [if_pos h]
    exact ht h
  · rw [if_neg h]
    exact hf h

/-- A fold keeps what every turn keeps. -/
theorem foldlM {ι : Type} {f : α → ι → ExceptT ε (StateM σ) α} {R : α → σ → Prop}
    {items : List ι} (h : ∀ i ∈ items, ∀ x, Ensures (R x) (f x i) R E) (x : α) :
    Ensures (R x) (items.foldlM f x) R E := by
  induction items generalizing x with
  | nil => exact of_pure fun _ hr => hr
  | cons item items ih =>
    rw [List.foldlM_cons]
    exact (h item List.mem_cons_self x).bind (ih fun i hi => h i (List.mem_cons_of_mem _ hi))

end Ensures

end Beamline
