import Mathlib.Logic.Relation
import Beamline.Proofs.Grove.Basic
import Beamline.Proofs.Pool.Listing

/-!
# Releasing what a handle leads to

A release follows the operands of a handle in any forest, whatever its nodes refer to: operands may
be shared, stale, or lead back to where they came from. Each turn frees a node, so that the turns
come to an end. They end without a fault exactly if the nodes that are reached form a tree, and then
this tree is what was freed.

* `releaseWithin_eq`: the release ends within one turn for each node and one more.
* `exists_freed`: what is freed are nodes that are reached, each once.
* `exists_trees_of_releaseAll`: a release without a fault has found trees that share no node.
* `release_exact`: what a release of any handle does.
-/

namespace Beamline.Expr

/-! ## What a handle leads to -/

namespace Forest

/-- The second handle is that of an operand of the node behind the first. -/
def Leads (forest : Forest) (id operand : NodeId) : Prop :=
  ∃ node, forest.get? id = some node ∧ operand ∈ node.operands

/-- The second handle is reached from the first by way of operands. -/
def Reaches (forest : Forest) : NodeId → NodeId → Prop :=
  Relation.ReflTransGen forest.Leads

/-- The nodes that are reached from a handle form the tree: none is stale, and none is reached
twice. -/
structure Spans (forest : Forest) (id : NodeId) (t : Tree) : Prop where
  /-- The handle is that of the root. -/
  root_eq : t.root = id
  /-- Every node of the tree lies behind its handle. -/
  stands : forest.Stands t
  /-- No handle occurs twice. -/
  nodup_ids : t.ids.Nodup

variable {forest : Forest} {id h : NodeId} {t : Tree}

/-- Without a node fewer handles are reached. -/
theorem Reaches.of_erase {freed : NodeId} (hr : Reaches (forest.erase freed) id h) :
    forest.Reaches id h := by
  refine Relation.ReflTransGen.mono ?_ id h hr
  rintro a b ⟨node, hget, hmem⟩
  rw [Pool.get?_erase] at hget
  split at hget
  · cases hget
  · exact ⟨node, hget, hmem⟩

end Forest

/-- The operands of a node of a tree are in the tree. -/
theorem Tree.mem_ids_of_mem_operands {t : Tree} {cell : NodeId × Node} (hcell : cell ∈ t.cells)
    {operand : NodeId} (ho : operand ∈ cell.2.operands) : operand ∈ t.ids := by
  induction t using Tree.induction_on_operands with
  | h t ih =>
    have hids : t.ids = t.root :: t.operands.flatMap Tree.ids := by
      have := Tree.flatMap_ids_cons t []
      rwa [List.flatMap_singleton, List.append_nil] at this
    rw [hids]
    refine List.mem_cons_of_mem _ (List.mem_flatMap.2 ?_)
    rw [Tree.cells_eq] at hcell
    rcases List.mem_cons.1 hcell with rfl | hcell
    · -- the operands of the root are the roots of the trees below
      rw [Tree.operands_node] at ho
      obtain ⟨o, hmem, rfl⟩ := List.mem_map.1 ho
      refine ⟨o, hmem, List.mem_map.2 ⟨(o.root, o.node), ?_, rfl⟩⟩
      rw [Tree.cells_eq]
      exact List.mem_cons_self
    · obtain ⟨o, hmem, hcell⟩ := List.mem_flatMap.1 hcell
      exact ⟨o, hmem, ih o hmem hcell⟩

/-- A node with trees for its operands is a tree. -/
theorem Tree.exists_of_operands (id : NodeId) {node : Node} {os : List Tree}
    (h : os.map Tree.root = node.operands) :
    ∃ t : Tree, t.root = id ∧ t.node = node ∧ t.operands = os := by
  cases node with
  | number x =>
    obtain rfl := List.map_eq_nil_iff.1 h
    exact ⟨.number id x, rfl, rfl, rfl⟩
  | text content =>
    obtain rfl := List.map_eq_nil_iff.1 h
    exact ⟨.text id content, rfl, rfl, rfl⟩
  | numberConstant name =>
    obtain rfl := List.map_eq_nil_iff.1 h
    exact ⟨.numberConstant id name, rfl, rfl, rfl⟩
  | textConstant name =>
    obtain rfl := List.map_eq_nil_iff.1 h
    exact ⟨.textConstant id name, rfl, rfl, rfl⟩
  | «variable» name =>
    obtain rfl := List.map_eq_nil_iff.1 h
    exact ⟨.variable id name, rfl, rfl, rfl⟩
  | lengthOf name =>
    obtain rfl := List.map_eq_nil_iff.1 h
    exact ⟨.lengthOf id name, rfl, rfl, rfl⟩
  | parens inner =>
    obtain ⟨o, rfl, rfl⟩ := List.map_eq_singleton_iff.1 h
    exact ⟨.parens id o, rfl, rfl, rfl⟩
  | signed sign operand =>
    obtain ⟨o, rfl, rfl⟩ := List.map_eq_singleton_iff.1 h
    exact ⟨.signed id sign o, rfl, rfl, rfl⟩
  | binary op left right =>
    obtain ⟨l, rest, rfl, rfl, hrest⟩ := List.map_eq_cons_iff.1 h
    obtain ⟨r, rfl, rfl⟩ := List.map_eq_singleton_iff.1 hrest
    exact ⟨.binary id op l r, rfl, rfl, rfl⟩
  | call f argument =>
    obtain ⟨o, rfl, rfl⟩ := List.map_eq_singleton_iff.1 h
    exact ⟨.call id f o, rfl, rfl, rfl⟩

namespace Forest

variable {forest left : Forest} {id h : NodeId} {t : Tree}

/-- A tree that stands holds exactly the handles that are reached from its root. -/
theorem Stands.mem_ids_iff (hstands : forest.Stands t) : h ∈ t.ids ↔ forest.Reaches t.root h := by
  constructor
  · intro hmem
    induction t using Tree.induction_on_operands with
    | h t ih =>
      obtain ⟨cell, hcell, rfl⟩ := List.mem_map.1 hmem
      rw [Tree.cells_eq] at hcell
      rcases List.mem_cons.1 hcell with rfl | hcell
      · exact .refl
      · obtain ⟨o, ho, hcell⟩ := List.mem_flatMap.1 hcell
        have hleads : forest.Leads t.root o.root := by
          refine ⟨t.node, hstands.get?_root, ?_⟩
          rw [Tree.operands_node]
          exact List.mem_map.2 ⟨o, ho, rfl⟩
        have hid : cell.1 ∈ o.ids := List.mem_map.2 ⟨cell, hcell, rfl⟩
        exact .head hleads (ih o ho (hstands.of_mem_operands ho) hid)
  · intro hreaches
    induction hreaches with
    | refl =>
      rw [Tree.ids, Tree.cells_eq]
      exact List.mem_cons_self
    | tail _ hleads ih =>
      obtain ⟨node, hget, hoperand⟩ := hleads
      obtain ⟨cell, hcell, rfl⟩ := List.mem_map.1 ih
      rw [hstands cell hcell, Option.some_inj] at hget
      exact Tree.mem_ids_of_mem_operands hcell (hget ▸ hoperand)

/-! ## Turns -/

/-- A release that is stopped after so many turns; `none` if it has not ended by then. -/
def releaseWithin : (turns : Nat) → List NodeId → Forest → Option (Except Fault Nat × Forest)
  | _, [], forest => some (.ok 0, forest)
  | 0, _ :: _, _ => none
  | turns + 1, id :: rest, forest =>
    match forest.get? id with
    | none => some (.error (.stale id), forest)
    | some node =>
      (releaseWithin turns (node.operands.reverse ++ rest) (forest.erase id)).map
        fun (outcome, left) => (outcome.map (· + 1), left)

/-- Every turn but the last frees a node. -/
theorem releaseWithin_eq {pending : List NodeId} {turns : Nat} (hturns : forest.size < turns) :
    releaseWithin turns pending forest = some (forest.releaseAll pending) := by
  induction turns generalizing pending forest with
  | zero => exact absurd hturns (Nat.not_lt_zero _)
  | succ turns ih =>
    cases pending with
    | nil => rw [releaseWithin, releaseAll]
    | cons id rest =>
      rw [releaseWithin, releaseAll]
      cases hget : forest.get? id with
      | none => rfl
      | some node =>
        have hsize := Pool.size_erase_of_get? hget
        simp only [ih (show (forest.erase id).size < turns by omega), Option.map_some]

/-! ## What is freed -/

theorem get?_foldl_erase (freed : List NodeId) (forest : Forest) (h : NodeId) :
    (freed.foldl (fun rest id => rest.erase id) forest).get? h =
      if h ∈ freed then none else forest.get? h := by
  induction freed generalizing forest with
  | nil => rfl
  | cons id freed ih =>
    rw [List.foldl_cons, ih, Pool.get?_erase]
    by_cases hid : h = id <;> by_cases hmem : h ∈ freed <;> simp [hid, hmem]

/-- The handles were freed in this order: nodes lay behind them, and they were reached from the
pending ones. -/
structure Freed (forest : Forest) (pending freed : List NodeId) (left : Forest) : Prop where
  /-- Each was freed once. -/
  nodup : freed.Nodup
  /-- No handle was stale. -/
  contains : ∀ h ∈ freed, forest.contains h = true
  /-- All were reached. -/
  reaches : ∀ h ∈ freed, ∃ id ∈ pending, forest.Reaches id h
  /-- Nothing else has changed. -/
  left_eq : left = freed.foldl (fun rest id => rest.erase id) forest
  /-- Each turn freed a node. -/
  size_add : left.size + freed.length = forest.size

namespace Freed

variable {pending rest freed : List NodeId}

theorem nil (forest : Forest) (pending : List NodeId) : Freed forest pending [] forest where
  nodup := .nil
  contains := by simp
  reaches := by simp
  left_eq := rfl
  size_add := rfl

/-- What is reached when a node is gone and its operands are pending was reached before. -/
theorem reaches_of_pending {node : Node} (hget : forest.get? id = some node)
    (hr : ∃ o ∈ node.operands.reverse ++ rest, Reaches (forest.erase id) o h) :
    ∃ o ∈ id :: rest, forest.Reaches o h := by
  obtain ⟨o, ho, hr⟩ := hr
  rcases List.mem_append.1 ho with ho | ho
  · have hleads : forest.Leads id o := ⟨node, hget, List.mem_reverse.1 ho⟩
    exact ⟨id, List.mem_cons_self, .head hleads hr.of_erase⟩
  · exact ⟨o, List.mem_cons_of_mem _ ho, hr.of_erase⟩

theorem cons {node : Node} (hget : forest.get? id = some node)
    (hfreed : Freed (forest.erase id) (node.operands.reverse ++ rest) freed left) :
    Freed forest (id :: rest) (id :: freed) left where
  nodup := by
    refine List.nodup_cons.2 ⟨fun hmem => ?_, hfreed.nodup⟩
    -- the node is gone, so that its handle cannot be freed again
    have := hfreed.contains id hmem
    rw [Pool.contains, Pool.get?_erase, if_pos rfl] at this
    cases this
  contains h hmem := by
    rcases List.mem_cons.1 hmem with rfl | hmem
    · rw [Pool.contains, hget, Option.isSome_some]
    · have := hfreed.contains h hmem
      rw [Pool.contains, Pool.get?_erase] at this
      split at this
      · cases this
      · exact this
  reaches h hmem := by
    rcases List.mem_cons.1 hmem with rfl | hmem
    · exact ⟨h, List.mem_cons_self, .refl⟩
    · exact reaches_of_pending hget (hfreed.reaches h hmem)
  left_eq := hfreed.left_eq
  size_add := by
    have hsize := Pool.size_erase_of_get? hget
    have := hfreed.size_add
    rw [List.length_cons]
    omega

theorem get?_left (hfreed : Freed forest pending freed left) (h : NodeId) :
    left.get? h = if h ∈ freed then none else forest.get? h := by
  rw [hfreed.left_eq, get?_foldl_erase]

end Freed

/-- A release frees nodes that are reached. It counts them, or else it comes upon a handle that is
stale. -/
theorem exists_freed (pending : List NodeId) (forest : Forest) :
    ∃ freed, Freed forest pending freed (forest.releaseAll pending).2 ∧
      ((forest.releaseAll pending).1 = .ok freed.length ∨
        ∃ h, (forest.releaseAll pending).1 = .error (.stale h) ∧
          (∃ id ∈ pending, forest.Reaches id h) ∧
          (forest.releaseAll pending).2.get? h = none) := by
  fun_induction releaseAll pending forest with
  | case1 forest => exact ⟨[], .nil forest [], .inl rfl⟩
  | case2 forest id rest hget =>
    exact ⟨[], .nil forest _, .inr ⟨id, rfl, ⟨id, List.mem_cons_self, .refl⟩, hget⟩⟩
  | case3 forest id rest node hget outcome left hrun ih =>
    rw [hrun] at ih
    obtain ⟨freed, hfreed, hcases⟩ := ih
    refine ⟨id :: freed, hfreed.cons hget, ?_⟩
    rcases hcases with hok | ⟨h, herror, hreaches, hstale⟩
    · exact .inl (by rw [show outcome = .ok freed.length from hok]; rfl)
    · exact .inr ⟨h, by rw [show outcome = .error (.stale h) from herror]; rfl,
        Freed.reaches_of_pending hget hreaches, hstale⟩

/-! ## Trees that are found -/

/-- A tree that stands without a node stands with it, and does not have that node. -/
theorem Stands.of_erase (hstands : Stands (forest.erase id) t) :
    forest.Stands t ∧ id ∉ t.ids := by
  refine ⟨fun cell hcell => ?_, fun hmem => ?_⟩
  · have := hstands cell hcell
    rw [Pool.get?_erase] at this
    split at this
    · cases this
    · exact this
  · obtain ⟨cell, hcell, rfl⟩ := List.mem_map.1 hmem
    have := hstands cell hcell
    rw [Pool.get?_erase, if_pos rfl] at this
    cases this

/-- If a release ends without a fault, then trees stand behind the pending handles that share no
node. -/
theorem exists_trees_of_releaseAll {pending : List NodeId} {n : Nat}
    (hrun : forest.releaseAll pending = (.ok n, left)) :
    ∃ ts : List Tree, ts.map Tree.root = pending ∧ (∀ t ∈ ts, forest.Stands t) ∧
      (ts.flatMap Tree.ids).Nodup ∧ (ts.map Tree.size).sum = n := by
  fun_induction releaseAll pending forest generalizing n left with
  | case1 forest =>
    cases hrun
    exact ⟨[], rfl, by simp, .nil, rfl⟩
  | case2 forest id rest => cases hrun
  | case3 forest id rest node hget outcome left' hrest ih =>
    cases outcome with
    | error fault => cases hrun
    | ok count =>
      cases hrun
      obtain ⟨found, hroots, hstands, hnodup, hsum⟩ := ih hrest
      -- the first trees found are those of the operands, the right one before the left
      obtain ⟨os, ts, rfl, hos, hts⟩ := List.map_eq_append_iff.1 hroots
      have hrev : os.reverse.map Tree.root = node.operands := by
        rw [List.map_reverse, hos, List.reverse_reverse]
      obtain ⟨t, rfl, rfl, ht⟩ := Tree.exists_of_operands id hrev
      have hmem (u : Tree) (hu : u ∈ t.operands ++ ts) :
          forest.Stands u ∧ t.root ∉ u.ids := by
        refine (hstands u ?_).of_erase
        rwa [ht, List.mem_append, List.mem_reverse, ← List.mem_append] at hu
      have hperm : (os ++ ts).Perm (t.operands ++ ts) := by
        rw [ht]
        exact (List.reverse_perm os).symm.append_right ts
      refine ⟨t :: ts, by rw [List.map_cons, hts], ?_, ?_, ?_⟩
      · intro u hu
        rcases List.mem_cons.1 hu with rfl | hu
        · intro cell hcell
          rw [Tree.cells_eq] at hcell
          rcases List.mem_cons.1 hcell with rfl | hcell
          · exact hget
          · obtain ⟨o, ho, hcell⟩ := List.mem_flatMap.1 hcell
            exact (hmem o (List.mem_append_left _ ho)).1 cell hcell
        · exact (hmem u (List.mem_append_right _ hu)).1
      · rw [Tree.flatMap_ids_cons]
        refine List.nodup_cons.2 ⟨fun hroot => ?_, ?_⟩
        · obtain ⟨u, hu, hid⟩ := List.mem_flatMap.1 hroot
          exact (hmem u hu).2 hid
        · exact (hperm.flatMap_right Tree.ids).nodup_iff.1 hnodup
      · rw [Tree.sum_size_cons, ← (hperm.map Tree.size).sum_nat, hsum]

/-- A tree that is spanned can be released. -/
theorem Spans.release (hspans : forest.Spans id t) : (forest.release id).1 = .ok t.size := by
  have hlive : ∀ h ∈ t.ids, forest.contains h = true := by
    intro h hmem
    obtain ⟨cell, hcell, rfl⟩ := List.mem_map.1 hmem
    rw [Pool.contains, hspans.stands cell hcell, Option.isSome_some]
  have hle : t.size ≤ forest.size := by
    have := Pool.length_le_size hspans.nodup_ids hlive
    rwa [Tree.ids, List.length_map] at this
  -- all other nodes are strays
  have hgrove : Grove forest [t] (forest.size - t.size) := {
    nodup_ids := by
      rw [List.flatMap_singleton]
      exact hspans.nodup_ids
    stands := by
      intro u hu
      rw [List.mem_singleton.1 hu]
      exact hspans.stands
    size_eq := by
      rw [List.map_singleton, List.sum_singleton]
      omega }
  obtain ⟨_, hrelease, -⟩ := hgrove.release
  rw [← hspans.root_eq, hrelease]

/-! ## A release -/

/-- What a release does: it ends, it succeeds exactly on a tree, and it frees nothing but what is
reached. -/
structure Releases (forest : Forest) (id : NodeId) (outcome : Except Fault Nat) (left : Forest) :
    Prop where
  /-- It ends, after no more turns than there are nodes and one. -/
  ends : releaseWithin (forest.size + 1) [id] forest = some (outcome, left)
  /-- It succeeds exactly if the nodes that are reached form a tree, and counts the nodes. -/
  ok_iff : ∀ n, outcome = .ok n ↔ ∃ t, forest.Spans id t ∧ t.size = n
  /-- The nodes of the tree are those that are reached. They are freed, and no others. -/
  of_spans : ∀ t, forest.Spans id t → ∀ h, (h ∈ t.ids ↔ forest.Reaches id h) ∧
    left.get? h = if h ∈ t.ids then none else forest.get? h
  /-- Otherwise the fault is a stale handle that was reached. -/
  of_error : ∀ fault, outcome = .error fault →
    ∃ h, fault = .stale h ∧ forest.Reaches id h ∧ left.get? h = none
  /-- The nodes that were freed were reached, and each was freed once. -/
  exists_freed : ∃ freed, Freed forest [id] freed left
  /-- What is not reached stays as it is. -/
  get?_of_not_reaches : ∀ h, ¬ forest.Reaches id h → left.get? h = forest.get? h

/-- Whatever the nodes of a forest refer to, and whichever handle is released. -/
theorem release_exact (forest : Forest) (id : NodeId) :
    forest.Releases id (forest.release id).1 (forest.release id).2 := by
  obtain ⟨freed, hfreed, hcases⟩ := exists_freed [id] forest
  change Freed forest [id] freed (forest.release id).2 at hfreed
  change (forest.release id).1 = .ok freed.length ∨ ∃ h, (forest.release id).1 = .error (.stale h) ∧
    (∃ o ∈ [id], forest.Reaches o h) ∧ (forest.release id).2.get? h = none at hcases
  have hreaches {h : NodeId} (hmem : h ∈ freed) : forest.Reaches id h := by
    obtain ⟨o, ho, hr⟩ := hfreed.reaches h hmem
    rwa [List.mem_singleton.1 ho] at hr
  exact {
    ends := releaseWithin_eq (Nat.lt_succ_self _)
    ok_iff := by
      intro n
      constructor
      · intro hok
        obtain ⟨ts, hroots, hstands, hnodup, hsum⟩ :=
          exists_trees_of_releaseAll (show forest.releaseAll [id] = (.ok n, _) from
            Prod.ext hok rfl)
        obtain ⟨t, rfl, hroot⟩ := List.map_eq_singleton_iff.1 hroots
        refine ⟨t, ⟨hroot, hstands t List.mem_cons_self, ?_⟩, ?_⟩
        · rwa [List.flatMap_singleton] at hnodup
        · rwa [List.map_singleton, List.sum_singleton] at hsum
      · rintro ⟨t, hspans, rfl⟩
        exact hspans.release
    of_spans := by
      intro t hspans h
      have hids (h : NodeId) : h ∈ t.ids ↔ forest.Reaches id h := by
        rw [hspans.stands.mem_ids_iff, hspans.root_eq]
      refine ⟨hids h, ?_⟩
      -- as many handles were freed as the tree has, and all of them are its own
      have hlength : freed.length = t.ids.length := by
        rw [Tree.ids, List.length_map]
        rcases hcases with hok | ⟨_, herror, -⟩
        · exact Except.ok.inj (hok.symm.trans hspans.release)
        · rw [hspans.release] at herror
          cases herror
      have hsub : freed ⊆ t.ids := fun k hk => (hids k).2 (hreaches hk)
      have hperm : freed.Perm t.ids :=
        (List.subperm_of_subset hfreed.nodup hsub).perm_of_length_le (Nat.le_of_eq hlength.symm)
      rw [hfreed.get?_left]
      exact if_congr hperm.mem_iff rfl rfl
    of_error := by
      intro fault herror
      rcases hcases with hok | ⟨h, hstale, ⟨o, ho, hr⟩, hnone⟩
      · rw [herror] at hok
        cases hok
      · rw [List.mem_singleton.1 ho] at hr
        exact ⟨h, Except.error.inj (herror.symm.trans hstale), hr, hnone⟩
    exists_freed := ⟨freed, hfreed⟩
    get?_of_not_reaches := by
      intro h hnot
      rw [hfreed.get?_left, if_neg fun hmem => hnot (hreaches hmem)] }

end Forest

end Beamline.Expr
