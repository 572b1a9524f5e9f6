import Beamline.Evaluation
import Beamline.Pool.Lemmas

/-!
# The walk to what is to blame

For a text where a number is needed the name behind the parentheses is blamed, and parentheses may
hold each other in a circle. `Blames` is the walk without any bound on its length: it has an answer
only if it comes to an end. An evaluation asks for what to blame only where it has come to a text
itself, so that the walk ends; and as it passes no node twice, the bound that `blame` is given in an
evaluation is large enough.

* `Blames.blame_eq`: where the walk ends, `blame` answers as the walk does.
* `exists_blames_of_text`: the walk ends wherever an evaluation comes to a text.
-/

namespace Beamline.Evaluation

open Beamline.Expr (Forest Node NodeId)

/-- What is blamed for a text if the handle is not one of parentheses. -/
def symbolOf (forest : Forest) (content : String) (id : NodeId) : String :=
  (((forest.get? id).bind Node.name?).map Name.text).getD (Value.quote content)

/-- The walk from a handle passes `count` nodes in parentheses and comes to what is to blame for
a text. -/
inductive Blames (forest : Forest) (content : String) : (count : Nat) → NodeId → String → Prop
  /-- The walk ends at the first node that is not in parentheses, or at a stale handle. -/
  | found {id : NodeId} (h : ∀ inner, forest.get? id ≠ some (.parens inner)) :
    Blames forest content 0 id (symbolOf forest content id)
  /-- The walk goes on into parentheses. -/
  | inner {count : Nat} {id inner : NodeId} {symbol : String}
    (h : forest.get? id = some (.parens inner))
    (hinner : Blames forest content count inner symbol) :
    Blames forest content (count + 1) id symbol

namespace Blames

variable {forest : Forest} {content : String} {count other : Nat} {id : NodeId}
  {symbol symbol' : String}

/-- The walks from one handle are equally long. -/
theorem count_eq (h : Blames forest content count id symbol)
    (h' : Blames forest content other id symbol') : count = other := by
  -- the node behind the handle decides for both walks whether they go on
  induction h generalizing other with
  | found h =>
    cases h' with
    | found _ => rfl
    | inner hget _ => exact absurd hget (h _)
  | inner hget _ ih =>
    cases h' with
    | found h => exact absurd hget (h _)
    | inner hget' hinner' =>
      cases hget.symm.trans hget'
      rw [ih hinner']

/-- A walk does not come back to a handle further up, so that the node there is not needed. -/
theorem erase {top : NodeId} (h : Blames forest content count id symbol)
    (htop : Blames forest content other top symbol') (hlt : count < other) :
    ∃ symbol, Blames (forest.erase top) content count id symbol := by
  induction h with
  | @found id h =>
    refine ⟨_, .found fun inner hget => h inner ?_⟩
    rw [Pool.get?_erase] at hget
    split at hget
    · cases hget
    · exact hget
  | @inner count id inner symbol hget hinner ih =>
    -- walks from one handle are equally long, and this one is shorter than that from the top
    have hne : id ≠ top := by
      rintro rfl
      exact absurd ((Blames.inner hget hinner).count_eq htop) (Nat.ne_of_lt hlt)
    obtain ⟨symbol, hsymbol⟩ := ih (by omega)
    exact ⟨symbol, .inner (by rw [Pool.get?_erase, if_neg hne, hget]) hsymbol⟩

/-- A walk passes at most all nodes. -/
theorem count_le_size (h : Blames forest content count id symbol) : count ≤ forest.size := by
  -- by induction on the length, without the node passed first
  induction count generalizing forest id symbol with
  | zero => exact Nat.zero_le _
  | succ count ih =>
    have htop := h
    cases h with
    | inner hget hinner =>
      obtain ⟨symbol, hsymbol⟩ := hinner.erase htop (Nat.lt_succ_self _)
      have hsize := Pool.size_erase_of_get? hget
      have hcount := ih hsymbol
      omega

/-- Where the walk is short enough, `blame` answers as the walk does. -/
theorem blame_eq_of_lt (h : Blames forest content count id symbol) {levels : Nat}
    (hlt : count < levels) : blame forest content levels id = symbol := by
  induction h generalizing levels with
  | @found id h =>
    obtain ⟨levels, rfl⟩ : ∃ n, levels = n + 1 := ⟨levels - 1, by omega⟩
    rw [blame, symbolOf]
    cases hget : forest.get? id with
    | none => rfl
    | some node =>
      cases node with
      | parens inner => exact absurd hget (h inner)
      | _ => rfl
  | @inner count id inner symbol hget hinner ih =>
    obtain ⟨levels, rfl⟩ : ∃ n, levels = n + 1 := ⟨levels - 1, by omega⟩
    rw [blame, hget]
    exact ih (by omega)

/-- Where the walk ends, `blame` answers as the walk does. -/
theorem blame_eq (h : Blames forest content count id symbol) :
    blame forest content (forest.size + 1) id = symbol :=
  h.blame_eq_of_lt (Nat.lt_succ_of_le h.count_le_size)

end Blames

/-- The walk ends wherever an evaluation comes to a text. -/
theorem exists_blames_of_text {scope : Scope} {levels : Nat} {id : NodeId} {e : Evaluation}
    {content : String} (h : ((visitWithin scope levels id).run e).1 = .ok (.text content)) :
    ∃ count, Blames scope.forest content count id
      (blame scope.forest content (scope.forest.size + 1) id) := by
  have hends : ∃ count symbol, Blames scope.forest content count id symbol := by
    -- by induction on the levels left: parentheses have the value of what they hold
    induction levels generalizing id e with
    | zero => cases h
    | succ levels ih =>
      rw [visitWithin, run_deeper] at h
      split at h
      · cases h
      · split at h
        · cases h
        · by_cases hparens : ∃ inner, scope.forest.get? id = some (.parens inner)
          · obtain ⟨inner, hget⟩ := hparens
            simp only [hget] at h
            obtain ⟨count, symbol, hinner⟩ := ih h
            exact ⟨count + 1, symbol, .inner hget hinner⟩
          · exact ⟨0, _, .found (not_exists.1 hparens)⟩
  obtain ⟨count, symbol, hblames⟩ := hends
  rw [hblames.blame_eq]
  exact ⟨count, hblames⟩

end Beamline.Evaluation
