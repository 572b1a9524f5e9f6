import Mathlib.Algebra.Order.BigOperators.Group.List
import Mathlib.Data.List.Flatten
import Beamline.Proofs.Ensures
import Beamline.Proofs.Plain.Effect

/-!
# The lengths of lines

The bound on repetitions is no bound on lines: a body joins as many pieces as are written, and a
piece may be a whole line that is spliced in. So a line can be as long as the longest line, or the
bound, times the number of its pieces, but not longer.

* `Line.Body.pieces`: the pieces that a body joins.
* `LayoutScope.ensures_length`: the length of what a body is laid out to.
* `Deck.Effect.linesWithin`: a clause lengthens the lines by at most the pieces of its body.
-/

namespace Beamline

open Beamline.Expr (Term)

/-! ## Pieces -/

namespace Line.Body

mutual

/-- The pieces that a body joins. A repetition is one piece, however often it is repeated. -/
def pieces : Body → Nat
  | .member _ | .repetition .. => 1
  | .sequence items => piecesAll items
  | .reflection body => body.pieces

/-- The pieces that bodies join one after the other. -/
def piecesAll : List Body → Nat
  | [] => 0
  | item :: items => item.pieces + piecesAll items

end

/-- How many times longer the lines can get by definitions with the given bodies, one after the
other. -/
def growth (bodies : List Body) : Nat :=
  (bodies.map fun body => max 1 body.pieces).prod

theorem one_le_growth (bodies : List Body) : 1 ≤ growth bodies :=
  List.one_le_prod_of_one_le (by simp)

theorem growth_append (bodies more : List Body) :
    growth (bodies ++ more) = growth bodies * growth more := by
  simp [growth]

/-- Definitions that are left out lengthen no line. -/
theorem growth_le_of_sublist {bodies more : List Body} (h : bodies.Sublist more) :
    growth bodies ≤ growth more :=
  (h.map _).prod_le_prod' (by simp)

/-- Bodies of one piece each lengthen no line. -/
theorem growth_eq_one {bodies : List Body} (h : ∀ body ∈ bodies, body.pieces ≤ 1) :
    growth bodies = 1 := by
  refine List.prod_eq_one fun factor hfactor => ?_
  obtain ⟨body, hbody, rfl⟩ := List.mem_map.1 hfactor
  exact max_eq_left (h body hbody)

end Line.Body

/-- A repetition is no longer than its bound. -/
theorem Line.length_of_repeat? {count : String} {entries result : List Line.Entry} {limit : Nat}
    (h : Line.repeat? count entries limit = .ok result) : result.length ≤ Line.bound limit := by
  obtain ⟨hbound, rfl⟩ := Line.repeat?_eq_ok_iff.1 h
  simpa [Nat.mul_comm] using hbound

namespace Plain

open Line (Entry Body)

/-! ## Layouts -/

namespace LayoutScope

variable {scope : LayoutScope} {n : Nat}

mutual

/-- If names stand for no more than so many entries and repetitions have no more, then a body is
laid out to no more for each of its pieces. -/
theorem ensures_length (hnames : ∀ name, (scope.entriesOf name).1.length ≤ n)
    (hlimit : Line.bound scope.limit ≤ n) (body : Body) :
    Ensures (fun _ => True) (scope.layout body) (fun entries _ => entries.length ≤ body.pieces * n)
      fun _ _ => True := by
  match body with
  | .member raw =>
    unfold layout
    have hlength := hnames (Name.ofText raw)
    rw [Body.pieces, Nat.one_mul]
    refine Ensures.ite (fun _ => Ensures.of_pure fun _ _ => hlength) fun _ => ?_
    exact (Ensures.of_true _ _).bind fun _ => Ensures.of_pure fun _ _ => hlength
  | .sequence items => exact ensures_lengthAll hnames hlimit items
  | .repetition count body =>
    unfold layout
    -- how long the body is does not matter, as the repetition has a bound of its own
    refine Ensures.bind (Ensures.of_true _ _) fun entries => ?_
    cases hrepeat : Line.repeat? count entries scope.limit with
    | ok result =>
      refine Ensures.of_pure fun _ _ => ?_
      rw [Body.pieces, Nat.one_mul]
      exact (Line.length_of_repeat? hrepeat).trans hlimit
    | error overflow => exact Ensures.of_throw fun _ _ => trivial
  | .reflection body =>
    unfold layout
    refine (ensures_length hnames hlimit body).bind fun entries => Ensures.of_pure fun _ h => ?_
    rwa [Line.length_reflect]

theorem ensures_lengthAll (hnames : ∀ name, (scope.entriesOf name).1.length ≤ n)
    (hlimit : Line.bound scope.limit ≤ n) (items : List Body) :
    Ensures (fun _ => True) (scope.layoutAll items)
      (fun entries _ => entries.length ≤ Body.piecesAll items * n) fun _ _ => True := by
  match items with
  | [] => exact Ensures.of_pure fun _ _ => Nat.zero_le _
  | item :: items =>
    unfold layoutAll
    refine (ensures_length hnames hlimit item).bind fun entries => ?_
    refine Ensures.of_fact fun hentries => ?_
    refine (ensures_lengthAll hnames hlimit items).bind fun rest => ?_
    refine Ensures.of_pure fun _ hrest => ?_
    rw [List.length_append, Body.piecesAll, Nat.add_mul]
    omega

end

end LayoutScope

/-! ## Decks -/

/-- No line has more entries than given. -/
def Symbols.LinesWithin {ε : Type} (n : Nat) (symbols : Symbols ε) : Prop :=
  ∀ line ∈ symbols.lines, line.entries.length ≤ n

theorem Symbols.LinesWithin.mono {ε : Type} {symbols : Symbols ε} {n m : Nat}
    (h : symbols.LinesWithin n) (hle : n ≤ m) : symbols.LinesWithin m :=
  fun line hline => (h line hline).trans hle

theorem Symbols.length_entriesOf_le {ε : Type} {symbols : Symbols ε} {n : Nat}
    (h : symbols.LinesWithin n) (hn : 1 ≤ n) (name : Name) :
    (symbols.entriesOf name).1.length ≤ n := by
  unfold entriesOf
  split
  · exact hn
  · split
    · rename_i line hline
      exact h line (Table.mem_of_get? hline)
    · exact hn

namespace Deck

variable {d : Deck Term} {n : Nat}

/-- A body is laid out to no more entries for each of its pieces than the longest line has. -/
theorem length_le_of_entriesOf (h : d.symbols.LinesWithin n) (hn : 1 ≤ n)
    (hlimit : Line.bound d.limits.lineEntries ≤ n) {body : Body} {entries : List Entry}
    (hentries : d.entriesOf body = .ok entries) : entries.length ≤ body.pieces * n := by
  let scope : LayoutScope :=
    { entriesOf := d.symbols.entriesOf, pos := d.pos, limit := d.limits.lineEntries }
  have hlayout : ((scope.layout body).run #[]).1 = .ok entries := hentries
  have hensures : Ensures (fun _ => True) (scope.layout body)
      (fun entries _ => entries.length ≤ body.pieces * n) fun _ _ => True :=
    LayoutScope.ensures_length (Symbols.length_entriesOf_le h hn) hlimit body
  exact hensures.of_run_ok trivial (Prod.ext hlayout rfl)

/-- A clause lengthens the lines by at most the pieces of its body. -/
theorem Effect.linesWithin {clause : Clause} {outcome : Except Error Unit} {after : Symbols Term}
    (heffect : d.Effect clause outcome after) (h : d.symbols.LinesWithin n) (hn : 1 ≤ n)
    (hlimit : Line.bound d.limits.lineEntries ≤ n) :
    after.LinesWithin (n * Body.growth clause.bodies) := by
  -- the lines that stay are within the old bound, and so within the new one
  have hmono : n ≤ n * Body.growth clause.bodies :=
    Nat.le_mul_of_pos_right n (Body.one_le_growth _)
  cases heffect with
  | kept => exact h.mono hmono
  | lost => exact h.mono hmono
  | @stored _ record _ hdefines =>
    cases record with
    | line record =>
      obtain ⟨raw, body, rfl, hentries⟩ := hdefines.exists_line
      have hgrowth : Body.growth (Clause.line raw body).bodies = max 1 body.pieces := by
        simp [Body.growth, Clause.bodies]
      have hlength := length_le_of_entriesOf h hn hlimit hentries
      intro line hline
      rcases List.mem_cons.1 hline with rfl | hline
      · rw [hgrowth, Nat.mul_comm]
        exact hlength.trans (Nat.mul_le_mul_right n (Nat.le_max_right 1 _))
      · exact (h line (List.mem_of_mem_filter hline)).trans hmono
    | constant | «variable» | element => exact h.mono hmono

end Deck

end Plain

end Beamline
