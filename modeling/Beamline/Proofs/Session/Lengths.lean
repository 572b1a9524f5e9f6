import Beamline.Proofs.Plain.Lengths
import Beamline.Proofs.Session.Snapshot

/-!
# The lengths of stored lines

The limit on entries bounds repetitions, and through them all lines whose bodies join no two pieces.
Where pieces are joined the limit is exceeded: a line that names another line twice has twice its
entries. How far it can be exceeded depends on the bodies alone.

* `Session.Alike.linesWithin_after`: how long lines are after any number of requests.
* `Session.length_entries_le`: the same, for every session.
* `Session.exists_length_entries_gt`: the limit itself is no bound on lines.
-/

namespace Beamline

open Source (Position)
open Line (Body)

/-! ## Bodies of definitions -/

/-- The bodies of the lines that a request defines. -/
def Request.definedBodies : Request → List Body
  | .run statements => statements.flatMap fun statement => statement.clause.bodies
  | request => (request.statement?.map fun statement => statement.clause.bodies).getD []

theorem Request.definedBodies_of_statement? {request : Request} {statement : Statement}
    (h : request.statement? = some statement) :
    request.definedBodies = statement.clause.bodies := by
  cases request with
  | apply | defineConstant | defineVariable | defineElement | defineLine =>
    cases h
    rfl
  | _ => cases h

namespace Session

theorem definedBodies_unroll (s : Session) (request : Request) :
    ((s.unroll request).flatMap Request.definedBodies).Sublist request.definedBodies := by
  cases request with
  | run statements =>
    have hsame : (s.unroll (.run statements)).flatMap Request.definedBodies =
        (s.applied statements).flatMap fun statement => statement.clause.bodies :=
      List.flatMap_map ..
    rw [hsame]
    exact (applied_sublist s statements).flatMap _
  | _ => simp [unroll]

/-- Unrolled requests define no further lines. -/
theorem definedBodies_unrolled (s : Session) (requests : List Request) :
    ((s.unrolled requests).flatMap Request.definedBodies).Sublist
      (requests.flatMap Request.definedBodies) := by
  induction requests generalizing s with
  | nil => exact .slnil
  | cons request requests ih =>
    rw [unrolled, List.flatMap_append, List.flatMap_cons]
    exact (definedBodies_unroll s request).append (ih _)

/-! ## Requests -/

variable {limits : Limits} {stray : Nat} {same : Prop} {s : Session} {p : Plain.Session} {n : Nat}

/-- A single request lengthens the lines by at most the pieces of its body. -/
theorem Alike.linesWithin_step (hs : Alike limits stray same s p) {request : Request}
    (hsingle : request.IsSingle) (h : p.interpreter.deck.symbols.LinesWithin n) (hn : 1 ≤ n)
    (hlimit : Line.bound limits.lineEntries ≤ n) :
    (p.step request).2.interpreter.deck.symbols.LinesWithin
      (n * Body.growth request.definedBodies) := by
  rcases p.step_cases hsingle with ⟨statement, outcome, hstatement, -, -, heffect⟩ | ⟨-, hsame⟩
  · rw [← hs.limits_eq] at hlimit
    rw [Request.definedBodies_of_statement? hstatement]
    exact heffect.linesWithin h hn hlimit
  · rw [hsame]
    exact h.mono (Nat.le_mul_of_pos_right n (Body.one_le_growth _))

theorem Alike.linesWithin_after (hs : Alike limits stray same s p) {requests : List Request}
    (hsingle : ∀ request ∈ requests, request.IsSingle)
    (h : p.interpreter.deck.symbols.LinesWithin n) (hn : 1 ≤ n)
    (hlimit : Line.bound limits.lineEntries ≤ n) :
    (p.after requests).interpreter.deck.symbols.LinesWithin
      (n * Body.growth (requests.flatMap Request.definedBodies)) := by
  -- each request multiplies what the requests before have come to
  induction requests generalizing n stray same s p with
  | nil => exact h.mono (Nat.le_mul_of_pos_right n (Body.one_le_growth _))
  | cons request requests ih =>
    obtain ⟨hfirst, hrest⟩ := List.forall_mem_cons.1 hsingle
    have hgrowth : n ≤ n * Body.growth request.definedBodies :=
      Nat.le_mul_of_pos_right n (Body.one_le_growth _)
    obtain ⟨_, _, hs', -⟩ := alike_after [request] hs
    rw [List.flatMap_cons, Body.growth_append, ← Nat.mul_assoc]
    exact ih hs' hrest (hs.linesWithin_step hfirst h hn hlimit) (hn.trans hgrowth)
      (hlimit.trans hgrowth)

theorem Alike.lines_eq (hs : Alike limits stray same s p) :
    s.interpreter.deck.symbols.lines.toList = p.interpreter.deck.symbols.lines :=
  congrArg Plain.Symbols.lines hs.reading_eq

/-- Under a limit on entries, a stored line has at most that many entries, times the pieces that the
bodies of the definitions so far have joined. So no line exceeds the limit as long as no body joins
two pieces; members, repetitions of anything and their reflections do not. -/
theorem length_entries_le (config : Config) (requests : List Request)
    (hlimit : 0 < config.limits.lineEntries) :
    let s := (ofConfig config).after requests
    let bodies := requests.flatMap Request.definedBodies
    ∀ line ∈ s.interpreter.deck.symbols.lines.toList,
      line.entries.length ≤ config.limits.lineEntries * Body.growth bodies ∧
        ((∀ body ∈ bodies, body.pieces ≤ 1) →
          line.entries.length ≤ config.limits.lineEntries) := by
  intro s bodies line hline
  have hbound : Line.bound config.limits.lineEntries ≤ config.limits.lineEntries := by
    rw [Line.bound, if_neg hlimit.ne']
    exact Nat.min_le_left _ _
  -- the bound is known of single requests, and a run defines at most the lines of its statements
  have hsingles : ∀ request ∈ (ofConfig config).unrolled requests, request.IsSingle :=
    fun request hrequest => (isSingle_of_mem_unrolled hrequest).1
  have hwithin := (alike_ofConfig config).linesWithin_after hsingles
    (fun line hline => nomatch hline) hlimit hbound
  obtain ⟨_, _, hs⟩ := alike_unrolled config requests
  rw [hs.lines_eq] at hline
  have hlength : line.entries.length ≤ config.limits.lineEntries * Body.growth bodies :=
    (hwithin line hline).trans
      (Nat.mul_le_mul_left _ (Body.growth_le_of_sublist (definedBodies_unrolled _ requests)))
  refine ⟨hlength, fun hpieces => ?_⟩
  rwa [Body.growth_eq_one hpieces, Nat.mul_one] at hlength

/-- Two elements repeated twice are as many entries as there may be, and so are they in reverse. -/
theorem length_entries_le_of_repetition :
    let config : Config := { limits := { lineEntries := 4 } }
    let pos := Position.unread
    let requests : List Request :=
      [.defineLine "A" (.repetition "2" (.members ["Q1", "Q2"])) pos,
        .run [⟨.line "B" (.reflection (.member "A")), pos⟩]]
    let lines := ((ofConfig config).after requests).interpreter.deck.symbols.lines.toList
    0 < config.limits.lineEntries ∧ lines.map (fun line => line.entries.length) = [4, 4] ∧
      ∀ line ∈ lines, line.entries.length ≤ config.limits.lineEntries := by
  intro config pos requests lines
  have hlimit : 0 < config.limits.lineEntries := by decide
  have hlengths : lines.map (fun line => line.entries.length) = [4, 4] := by decide +kernel
  have hpieces : ∀ body ∈ requests.flatMap Request.definedBodies, body.pieces ≤ 1 := by
    simp [requests, Request.definedBodies, Request.statement?, Clause.bodies, Body.pieces]
  refine ⟨hlimit, hlengths, fun line hline => ?_⟩
  exact (length_entries_le config requests hlimit line hline).2 hpieces

/-- Not every line keeps within the limit: one entry is allowed, and a line that joins two members
has two. -/
theorem exists_length_entries_gt :
    ∃ (config : Config) (requests : List Request), 0 < config.limits.lineEntries ∧
      ∃ line ∈ ((ofConfig config).after requests).interpreter.deck.symbols.lines.toList,
        config.limits.lineEntries < line.entries.length := by
  let config : Config := { limits := { lineEntries := 1 } }
  let requests : List Request :=
    [.defineElement "Q1" .marker [] (Position.inBuffer 1),
      .defineLine "S" (.members ["Q1", "Q1"]) (Position.inBuffer 2)]
  have hlines : ∃ line ∈ ((ofConfig config).after requests).interpreter.deck.symbols.lines.toList,
      config.limits.lineEntries < line.entries.length := by
    decide +kernel
  exact ⟨config, requests, by decide, hlines⟩

end Session

end Beamline
