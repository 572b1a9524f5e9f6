import Beamline.Proofs.Grove.Tree

/-!
# Groves

A tree stands in a forest if the forest holds all of its cells. A grove is a forest in which given
trees stand that share no node, so that each can be released without harm to the others. Nodes of
the forest that belong to none of the trees are strays.

* `Grove.alloc`: storing a node makes a tree of the trees that it refers to.
* `Grove.release`, `Grove.releaseEach`: a tree can be released; all others stay as they are.
* `Grove.abandon`: a tree that is given up leaves its nodes behind as strays.
* `Grove.read`: a tree that stands in a grove is read back as its term.
-/

namespace Beamline.Expr

/-- The tree stands in the forest: each of its nodes lies behind its handle. -/
def Forest.Stands (forest : Forest) (t : Tree) : Prop :=
  ∀ cell ∈ t.cells, forest.get? cell.1 = some cell.2

theorem Forest.Stands.get?_root {forest : Forest} {t : Tree} (h : forest.Stands t) :
    forest.get? t.root = some t.node :=
  h (t.root, t.node) (by rw [Tree.cells_eq]; exact List.mem_cons_self)

/-- With a tree its operands stand. -/
theorem Forest.Stands.of_mem_operands {forest : Forest} {t o : Tree} (h : forest.Stands t)
    (ho : o ∈ t.operands) : forest.Stands o := by
  intro cell hcell
  refine h cell ?_
  rw [Tree.cells_eq]
  exact List.mem_cons_of_mem _ (List.mem_flatMap.2 ⟨o, ho, hcell⟩)

/-- The trees stand in the forest and share no node; `stray` counts the nodes of the forest that
belong to none of them. -/
structure Grove (forest : Forest) (trees : List Tree) (stray : Nat) : Prop where
  /-- No handle occurs twice. -/
  nodup_ids : (trees.flatMap Tree.ids).Nodup
  /-- Each tree stands in the forest. -/
  stands : ∀ t ∈ trees, forest.Stands t
  /-- There are no further nodes but the strays. -/
  size_eq : forest.size = (trees.map Tree.size).sum + stray

namespace Grove

variable {forest : Forest} {t : Tree} {ts us : List Tree} {stray : Nat}

/-- The forest without nodes. -/
theorem empty : Grove Pool.empty [] 0 where
  nodup_ids := .nil
  stands _ h := nomatch h
  size_eq := rfl

/-- The order of the trees does not matter. -/
theorem perm (h : Grove forest ts stray) (hp : ts.Perm us) : Grove forest us stray where
  nodup_ids := (hp.flatMap_right Tree.ids).nodup_iff.1 h.nodup_ids
  stands t ht := h.stands t (hp.mem_iff.2 ht)
  size_eq := by rw [h.size_eq, (hp.map Tree.size).sum_nat]

/-- Trees that are given up leave their nodes behind as strays. -/
theorem abandon (h : Grove forest (ts ++ us) stray) :
    Grove forest us ((ts.map Tree.size).sum + stray) where
  nodup_ids := by
    have := h.nodup_ids
    rw [List.flatMap_append] at this
    exact (List.nodup_append.1 this).2.1
  stands t ht := h.stands t (List.mem_append_right _ ht)
  size_eq := by
    rw [h.size_eq, List.map_append, List.sum_append_nat]
    omega

/-- The roots of the trees are distinct. -/
theorem nodup_roots (h : Grove forest ts stray) : (ts.map Tree.root).Nodup := by
  -- each tree lists the handle of its root among its own
  refine h.nodup_ids.sublist ?_
  rw [← List.flatMap_singleton' (ts.map Tree.root), List.flatMap_map]
  clear h
  induction ts with
  | nil => exact .slnil
  | cons t ts ih =>
    rw [List.flatMap_cons, List.flatMap_cons]
    refine List.Sublist.append ?_ ih
    rw [Tree.ids, Tree.cells_eq, List.map_cons]
    exact List.singleton_sublist.2 List.mem_cons_self

/-- No tree of a grove has more nodes than the forest. -/
theorem size_le (h : Grove forest ts stray) (ht : t ∈ ts) : t.size ≤ forest.size := by
  obtain ⟨before, behind, rfl⟩ := List.append_of_mem ht
  rw [h.size_eq, List.map_append, List.sum_append_nat, List.map_cons, List.sum_cons]
  omega

/-! ## Storing a node -/

/-- Storing a node makes a tree of the trees that the node refers to. -/
theorem alloc (h : Grove forest (t.operands ++ ts) stray)
    (hroot : t.root = (forest.alloc t.node).1) :
    Grove (forest.alloc t.node).2 (t :: ts) stray := by
  -- the new handle was not in use, so that no tree has it
  have hfresh : ∀ o ∈ t.operands ++ ts, ∀ cell ∈ o.cells, cell.1 ≠ t.root := by
    intro o ho cell hcell heq
    have := h.stands o ho cell hcell
    rw [heq, hroot, Forest.alloc, Pool.get?_fst_insert] at this
    cases this
  have hkeep : ∀ o ∈ t.operands ++ ts, (forest.alloc t.node).2.Stands o := fun o ho cell hcell =>
    Pool.get?_insert_of_get? (h.stands o ho cell hcell)
  refine ⟨?_, ?_, ?_⟩
  · rw [Tree.flatMap_ids_cons]
    refine List.nodup_cons.2 ⟨fun hmem => ?_, h.nodup_ids⟩
    obtain ⟨o, ho, hid⟩ := List.mem_flatMap.1 hmem
    obtain ⟨cell, hcell, heq⟩ := List.mem_map.1 hid
    exact hfresh o ho cell hcell heq
  · intro o ho
    rcases List.mem_cons.1 ho with rfl | ho
    · -- the root is the node just stored, and what lies below stood before
      intro cell hcell
      rw [Tree.cells_eq] at hcell
      rcases List.mem_cons.1 hcell with rfl | hcell
      · change (forest.alloc o.node).2.get? o.root = some o.node
        rw [hroot]
        exact Pool.get?_insert_self o.node forest
      · obtain ⟨p, hp, hcell⟩ := List.mem_flatMap.1 hcell
        exact hkeep p (List.mem_append_left _ hp) cell hcell
    · exact hkeep o (List.mem_append_right _ ho)
  · rw [Forest.alloc, Pool.size_insert, h.size_eq, Tree.sum_size_cons]
    omega

/-! ## Releasing trees -/

/-- Freeing the root of a tree leaves its operands. -/
theorem erase_root (h : Grove forest (t :: ts) stray) :
    Grove (forest.erase t.root) (t.operands ++ ts) stray := by
  have hnodup := h.nodup_ids
  rw [Tree.flatMap_ids_cons] at hnodup
  obtain ⟨hroot, hrest⟩ := List.nodup_cons.1 hnodup
  refine ⟨hrest, ?_, ?_⟩
  · intro o ho cell hcell
    have hstands : forest.Stands o := by
      rcases List.mem_append.1 ho with ho | ho
      · exact (h.stands t List.mem_cons_self).of_mem_operands ho
      · exact h.stands o (List.mem_cons_of_mem _ ho)
    -- freeing the root leaves every other handle as it is, and the root occurs only once
    rw [Pool.get?_erase, if_neg, hstands cell hcell]
    intro heq
    exact hroot (List.mem_flatMap.2 ⟨o, ho, List.mem_map.2 ⟨cell, hcell, heq⟩⟩)
  · have hget := (h.stands t List.mem_cons_self).get?_root
    have hsize := Pool.size_erase_of_get? hget
    have hsum := h.size_eq
    rw [Tree.sum_size_cons] at hsum
    omega

/-- Trees can be released together: as many nodes are freed as they have, and all other trees stay
as they are. -/
theorem releaseAll (h : Grove forest (ts ++ us) stray) :
    ∃ left, forest.releaseAll (ts.map Tree.root) = (.ok (ts.map Tree.size).sum, left) ∧
      Grove left us stray := by
  -- by induction on the number of nodes to free, as each step replaces a tree by its operands
  induction hn : (ts.map Tree.size).sum using Nat.strongRecOn generalizing forest ts with
  | ind n ih =>
    cases ts with
    | nil =>
      subst hn
      exact ⟨forest, by rw [List.map_nil, Forest.releaseAll]; rfl, h⟩
    | cons t ts =>
      have hget := (h.stands t List.mem_cons_self).get?_root
      rw [List.map_cons, List.sum_cons] at hn
      -- the operands go first, the right one before the left
      have hperm : (t.operands ++ (ts ++ us)).Perm (t.operands.reverse ++ ts ++ us) := by
        rw [List.append_assoc]
        exact (List.reverse_perm _).symm.append_right _
      have hsum : ((t.operands.reverse ++ ts).map Tree.size).sum + 1 = n := by
        rw [List.map_append, List.sum_append_nat, List.map_reverse, List.sum_reverse, ← hn,
          t.size_eq]
        omega
      obtain ⟨left, hleft, hgrove⟩ := ih _ (by omega) (h.erase_root.perm hperm) rfl
      refine ⟨left, ?_, hgrove⟩
      have hroots : t.node.operands.reverse ++ ts.map Tree.root =
          (t.operands.reverse ++ ts).map Tree.root := by
        rw [Tree.operands_node, List.map_append, List.map_reverse]
      -- only the branch in which the root is found can be taken
      rw [List.map_cons, Forest.releaseAll]
      split
      · rename_i hnone
        rw [hget] at hnone
        cases hnone
      · rename_i node hsome
        rw [hget] at hsome
        cases hsome
        rw [hroots, hleft, ← hsum]
        rfl

/-- A tree can be released, and all others stay as they are. -/
theorem release (h : Grove forest (t :: us) stray) :
    ∃ left, forest.release t.root = (.ok t.size, left) ∧ Grove left us stray := by
  have := releaseAll (show Grove forest ([t] ++ us) stray from h)
  rwa [List.map_singleton, List.map_singleton, List.sum_singleton] at this

/-- Trees can be released one after the other, and all others stay as they are. -/
theorem releaseEach (h : Grove forest (ts ++ us) stray) :
    ∃ left, Forest.releaseEach (ts.map Tree.root) forest = (.ok (), left) ∧
      Grove left us stray := by
  induction ts generalizing forest with
  | nil => exact ⟨forest, rfl, h⟩
  | cons t ts ih =>
    obtain ⟨next, hnext, hgrove⟩ := release h
    obtain ⟨left, hleft, hrest⟩ := ih hgrove
    refine ⟨left, ?_, hrest⟩
    rw [List.map_cons, Forest.releaseEach, hnext]
    exact hleft

end Grove

/-! ## Reading -/

/-- If the operands of a tree are read back, so is the tree. -/
theorem Forest.Stands.readWithin_succ {forest : Forest} {t : Tree} (h : forest.Stands t)
    {levels : Nat}
    (ho : ∀ o ∈ t.operands, forest.readWithin levels o.root = .ok o.term) :
    forest.readWithin (levels + 1) t.root = .ok t.term := by
  rw [Forest.readWithin, Forest.node, h.get?_root]
  -- each node but a leaf reads its operands, left to right, by `ho`
  cases t with
  | number | text | numberConstant | textConstant | «variable» | lengthOf => rfl
  | parens id inner =>
    change (do return Term.parens (← forest.readWithin levels inner.root)) = _
    rw [ho inner (by simp [Tree.operands])]
    rfl
  | signed id sign operand =>
    change (do return Term.signed sign (← forest.readWithin levels operand.root)) = _
    rw [ho operand (by simp [Tree.operands])]
    rfl
  | binary id op left right =>
    change (do
      let l ← forest.readWithin levels left.root
      let r ← forest.readWithin levels right.root
      return Term.binary op l r) = _
    rw [ho left (by simp [Tree.operands]), ho right (by simp [Tree.operands])]
    rfl
  | call id f argument =>
    change (do return Term.call f (← forest.readWithin levels argument.root)) = _
    rw [ho argument (by simp [Tree.operands])]
    rfl

/-- A tree that stands in a forest is read back as its term, if as many levels are looked at as
the tree has nodes. -/
theorem Forest.Stands.readWithin {forest : Forest} {t : Tree} (h : forest.Stands t)
    {levels : Nat} (hl : t.size ≤ levels) : forest.readWithin levels t.root = .ok t.term := by
  induction t using Tree.induction_on_operands generalizing levels with
  | h t ih =>
    cases levels with
    | zero =>
      -- a tree has at least its root
      rw [Tree.size_eq] at hl
      cases hl
    | succ levels =>
      refine h.readWithin_succ fun o ho => ih o ho (h.of_mem_operands ho) ?_
      have := Tree.size_lt_of_mem_operands ho
      omega

/-- A tree of a grove is read back as its term. -/
theorem Grove.read {forest : Forest} {t : Tree} {ts : List Tree} {stray : Nat}
    (h : Grove forest ts stray) (ht : t ∈ ts) : forest.read t.root = .ok t.term :=
  (h.stands t ht).readWithin (Nat.le_succ_of_le (h.size_le ht))

end Beamline.Expr
