import Mathlib.Data.List.Nodup

/-!
# Lists sorted by a number

A stable sort by a number leaves the entries that share a number in the order in which they came,
and nothing else is a sorted list with the same entries under each number. In a sorted list the
entries below a number come first, so that a search by halving finds where they end.

* `partitionPoint_append`, `exists_split`: a search by halving finds the border between the entries
  that satisfy a condition and the others, where there is one.
* `filter_mergeSort`, `pairwise_mergeSort_of_pairwise`: a stable sort keeps the entries of each
  number in their order.
* `mergeSort_eq_of_perm`: sorting by two numbers does not depend on the order of the entries.
* `eq_of_filter_eq`: sorted lists with the same entries under each number are equal.
-/

namespace Beamline.Sorting

variable {α : Type}

/-! ## Binary search -/

section Search

variable {p : α → Bool}

/-- The place at which the entries that satisfy `p` end, found by halving: the entry in the middle
decides in which half the search goes on. -/
def partitionPoint (p : α → Bool) (l : List α) : Nat :=
  if h : l = [] then
    0
  else
    have : l.length / 2 < l.length := by
      have := List.length_pos_iff.2 h
      omega
    if p l[l.length / 2] then
      l.length / 2 + 1 + partitionPoint p (l.drop (l.length / 2 + 1))
    else
      partitionPoint p (l.take (l.length / 2))
termination_by l.length
decreasing_by all_goals simp only [List.length_drop, List.length_take]; omega

/-- Where entries that satisfy `p` are followed by entries that do not, the search finds the
border. -/
theorem partitionPoint_append {front back : List α} (hfront : ∀ a ∈ front, p a = true)
    (hback : ∀ a ∈ back, p a = false) : partitionPoint p (front ++ back) = front.length := by
  induction hn : (front ++ back).length using Nat.strongRecOn generalizing front back with
  | ind n ih =>
    rw [partitionPoint]
    split
    · rename_i hnil
      simp [List.append_eq_nil_iff.1 hnil]
    · rename_i hne
      have hpos := List.length_pos_iff.2 hne
      rw [hn] at hpos
      simp only [hn]
      -- the middle lies before the border or behind it, and so does what is left out
      by_cases hmid : n / 2 < front.length
      · rw [List.getElem_append_left hmid, if_pos (hfront _ (List.getElem_mem hmid)),
          List.drop_append_of_le_length hmid,
          ih (n - (n / 2 + 1)) (by omega) (fun a ha => hfront a (List.mem_of_mem_drop ha)) hback
            (by rw [← List.drop_append_of_le_length hmid, List.length_drop, hn]),
          List.length_drop]
        omega
      · have hle : front.length ≤ n / 2 := by omega
        rw [List.getElem_append_right hle, hback _ (List.getElem_mem _), if_neg Bool.false_ne_true,
          List.take_append, List.take_of_length_le hle]
        exact ih (n / 2) (by omega) hfront (fun a ha => hback a (List.mem_of_mem_take ha))
          (by rw [List.length_append, List.length_take]; rw [List.length_append] at hn; omega)

/-- If no entry that satisfies `p` comes after one that does not, the list falls in two. -/
theorem exists_split {l : List α} (h : l.Pairwise fun a b => p b = true → p a = true) :
    ∃ front back, l = front ++ back ∧ (∀ a ∈ front, p a = true) ∧ ∀ a ∈ back, p a = false := by
  induction l with
  | nil => exact ⟨[], [], by simp⟩
  | cons a l ih =>
    obtain ⟨ha, hl⟩ := List.pairwise_cons.1 h
    by_cases hp : p a = true
    · obtain ⟨front, back, rfl, hfront, hback⟩ := ih hl
      exact ⟨a :: front, back, by simp, by simpa [hp] using hfront, hback⟩
    · -- nothing behind `a` satisfies `p` either
      refine ⟨[], a :: l, by simp, by simp, ?_⟩
      intro b hb
      rcases List.mem_cons.1 hb with rfl | hb
      · simpa using hp
      · simpa using mt (ha b hb) hp

end Search

/-! ## Stable sorting -/

section Stable

variable (key : α → Nat)

/-- A sort by a number leaves a list sorted by it. -/
theorem pairwise_mergeSort (l : List α) :
    (l.mergeSort fun a b => key a ≤ key b).Pairwise fun a b => key a ≤ key b := by
  have := @List.pairwise_mergeSort _ (fun a b => decide (key a ≤ key b))
    (fun a b c => by simpa using Nat.le_trans) (fun a b => by simpa using Nat.le_total _ _) l
  simpa using this

/-- A stable sort keeps the entries of each number in their order. -/
theorem filter_mergeSort (l : List α) (k : Nat) :
    (l.mergeSort fun a b => key a ≤ key b).filter (fun a => key a = k) =
      l.filter fun a => key a = k := by
  -- entries that share a number are in order already, so that the sort leaves them a sublist
  have htied : (l.filter fun a => key a = k).Pairwise fun a b =>
      decide (key a ≤ key b) = true := by
    refine List.pairwise_iff_forall_sublist.2 fun {a b} hab => ?_
    have ha := (List.mem_filter.1 (hab.subset (by simp : a ∈ [a, b]))).2
    have hb := (List.mem_filter.1 (hab.subset (by simp : b ∈ [a, b]))).2
    simp only [decide_eq_true_eq] at ha hb ⊢
    omega
  have hsub := List.sublist_mergeSort (fun a b c => by simpa using Nat.le_trans)
    (fun a b => by simpa using Nat.le_total _ _) htied List.filter_sublist
  have hsub := hsub.filter fun a => key a = k
  rw [List.filter_filter] at hsub
  simp only [Bool.and_self] at hsub
  exact (hsub.eq_of_length ((List.mergeSort_perm ..).filter _).length_eq.symm).symm

variable {key}

/-- What holds of any two entries in a list, one before the other, still does of two that share a
number after the sort. -/
theorem pairwise_mergeSort_of_pairwise {R : α → α → Prop} {l : List α} (h : l.Pairwise R) :
    (l.mergeSort fun a b => key a ≤ key b).Pairwise fun a b =>
      key a < key b ∨ key a = key b ∧ R a b := by
  refine List.pairwise_iff_forall_sublist.2 fun {a b} hab => ?_
  rcases Nat.lt_or_eq_of_le (List.pairwise_iff_forall_sublist.1 (pairwise_mergeSort key l) hab)
    with hlt | heq
  · exact .inl hlt
  · -- the two are entries of one number, which come in the order of the list
    have htied := hab.filter fun c => key c = key b
    rw [filter_mergeSort, List.filter_eq_self.2 (by simp [heq])] at htied
    exact .inr ⟨heq, List.pairwise_iff_forall_sublist.1 h (htied.trans List.filter_sublist)⟩

/-- A sort by two numbers gives what a stable sort by the first makes of the list arranged by the
second, whatever the order of the entries was. -/
theorem mergeSort_eq_of_perm {tie : α → Nat} {l m : List α} (hperm : l.Perm m)
    (hm : m.Pairwise fun a b => tie a < tie b) :
    (l.mergeSort fun a b => key a < key b ∨ key a = key b ∧ tie a ≤ tie b) =
      m.mergeSort fun a b => key a ≤ key b := by
  have hl := @List.pairwise_mergeSort _
    (fun a b => decide (key a < key b ∨ key a = key b ∧ tie a ≤ tie b))
    (fun a b c => by simp only [decide_eq_true_eq]; omega)
    (fun a b => by simp only [Bool.or_eq_true, decide_eq_true_eq]; omega) l
  simp only [decide_eq_true_eq] at hl
  have hsorted : (m.mergeSort fun a b => key a ≤ key b).Pairwise fun a b =>
      key a < key b ∨ key a = key b ∧ tie a ≤ tie b :=
    (pairwise_mergeSort_of_pairwise hm).imp fun h => by omega
  refine List.Perm.eq_of_pairwise ?_ hl hsorted
    (((List.mergeSort_perm ..).trans hperm).trans (List.mergeSort_perm ..).symm)
  -- entries that come before each other agree in the second number, which tells them apart
  intro a b ha hb hab hba
  have hnodup : (m.map tie).Nodup := List.pairwise_map.2 (hm.imp Nat.ne_of_lt)
  exact List.inj_on_of_nodup_map hnodup (hperm.mem_iff.1 (List.mem_mergeSort.1 ha))
    (List.mem_mergeSort.1 hb) (by omega)

/-- A sorted list with an entry under a number starts with a number that is no greater. -/
theorem le_of_filter_ne_nil {a : α} {l : List α}
    (h : (a :: l).Pairwise fun a b => key a ≤ key b) {k : Nat}
    (hk : ((a :: l).filter fun b => key b = k) ≠ []) : key a ≤ k := by
  obtain ⟨b, hb⟩ := List.exists_mem_of_ne_nil _ hk
  obtain ⟨hmem, hkey⟩ := List.mem_filter.1 hb
  simp only [decide_eq_true_eq] at hkey
  rcases List.mem_cons.1 hmem with rfl | hmem
  · exact Nat.le_of_eq hkey
  · exact hkey ▸ (List.pairwise_cons.1 h).1 b hmem

/-- Sorted lists with the same entries under each number are equal. -/
theorem eq_of_filter_eq {l m : List α} (hl : l.Pairwise fun a b => key a ≤ key b)
    (hm : m.Pairwise fun a b => key a ≤ key b)
    (h : ∀ k, (l.filter fun a => key a = k) = m.filter fun a => key a = k) : l = m := by
  induction l generalizing m with
  | nil =>
    refine (List.eq_nil_iff_forall_not_mem.2 fun b hb => ?_).symm
    have hmem : b ∈ m.filter fun a => key a = key b := by simpa using hb
    simp [← h] at hmem
  | cons a l ih =>
    match m with
    | [] => simpa using h (key a)
    | b :: m =>
      -- each list starts with its smallest number, and the first entries under it are the same
      have hab : key a ≤ key b := le_of_filter_ne_nil hl (by simp [h])
      have hba : key b ≤ key a := le_of_filter_ne_nil hm (by simp [← h])
      have hkey : key b = key a := Nat.le_antisymm hba hab
      obtain ⟨rfl, -⟩ : a = b ∧ _ := by simpa [hkey] using h (key a)
      congr 1
      refine ih hl.of_cons hm.of_cons fun k => ?_
      have hk := h k
      rw [List.filter_cons, List.filter_cons] at hk
      split at hk
      · exact (List.cons.inj hk).2
      · exact hk

/-- A list is the stable sort of another if it is sorted and holds the same entries under each
number. -/
theorem eq_mergeSort {l m : List α} (hl : l.Pairwise fun a b => key a ≤ key b)
    (h : ∀ k, (l.filter fun a => key a = k) = m.filter fun a => key a = k) :
    l = m.mergeSort fun a b => key a ≤ key b :=
  eq_of_filter_eq hl (pairwise_mergeSort key m) fun k => (h k).trans (filter_mergeSort key m k).symm

end Stable

end Beamline.Sorting
