import Mathlib.Algebra.Group.Nat.Defs
import Mathlib.Data.List.Infix
import Mathlib.Order.Bounds.Basic
import Beamline.Proofs.Pool.Listing

/-!
# Pools and their history

What a pool holds can be told from its history: the values that were stored with the handles issued
for them, the handles whose values were taken out, and the changes in place. The slots and the
generations have no part in it, but for one thing: the generations of a slot begin again after
`2 ^ 32` releases, and only then can a handle be taken for one that was issued later.

* `get?_after`: a handle leads to its value until that is taken out.
* `Follows.perform`, `follows_after`: the pool holds what its history says, and the generation of a
  slot counts its releases.
* `Follows.get?_isSome_iff`: when a handle is accepted after its value was taken out.
* `slotCount_perform`: a slot is added only where no other is vacant.
* `keeps_after`: every pool keeps the values of its history.
-/

namespace Beamline.Pool

variable {α : Type}

/-! ## Actions and events -/

/-- What is done with a pool. -/
inductive Action (α : Type) where
  /-- A value is stored. -/
  | insert (value : α)
  /-- The value behind a handle is taken out. -/
  | remove (h : Handle)
  /-- The value behind a handle is changed in place. -/
  | update (h : Handle) (f : α → α)

/-- What has happened to a pool. -/
inductive Event (α : Type) where
  /-- A value was stored, and a handle issued for it. -/
  | inserted (h : Handle) (value : α)
  /-- A value was taken out. -/
  | removed (h : Handle) (value : α)
  /-- No value was taken out, as the handle was stale. -/
  | refused (h : Handle)
  /-- The value behind a handle was changed, if there was one. -/
  | updated (h : Handle) (f : α → α)

/-- Does an action. Returns what has happened. -/
def perform (p : Pool α) (action : Action α) : Event α × Pool α :=
  match action with
  | .insert value => (.inserted (p.insert value).1 value, (p.insert value).2)
  | .remove h =>
    match p.remove? h with
    | some (value, rest) => (.removed h value, rest)
    | none => (.refused h, p)
  | .update h f => (.updated h f, p.modify h f)

/-- The pool after actions. -/
def after (p : Pool α) (actions : List (Action α)) : Pool α :=
  actions.foldl (fun p action => (p.perform action).2) p

/-- What has happened to a pool, the oldest first. -/
abbrev History (α : Type) := List (Event α)

/-- What happens to a pool in actions. -/
def history (p : Pool α) : List (Action α) → History α
  | [] => []
  | action :: actions => (p.perform action).1 :: (p.perform action).2.history actions

section

variable (p : Pool α)

@[simp]
theorem after_nil : p.after [] = p :=
  rfl

@[simp]
theorem after_cons (action : Action α) (actions : List (Action α)) :
    p.after (action :: actions) = (p.perform action).2.after actions :=
  rfl

theorem after_append (actions more : List (Action α)) :
    p.after (actions ++ more) = (p.after actions).after more := by
  simp [after]

/-- Where a history is split, the actions can be split. -/
theorem exists_split {p : Pool α} {actions : List (Action α)} {before behind : History α}
    {e : Event α} (h : p.history actions = before ++ e :: behind) :
    ∃ early action late, actions = early ++ action :: late ∧ p.history early = before ∧
      ((p.after early).perform action).1 = e ∧
      ((p.after early).perform action).2.history late = behind := by
  induction before generalizing p actions with
  | nil =>
    cases actions with
    | nil => cases h
    | cons action late =>
      obtain ⟨he, hbehind⟩ := List.cons.inj h
      exact ⟨[], action, late, rfl, rfl, he, hbehind⟩
  | cons first before ih =>
    cases actions with
    | nil => cases h
    | cons action actions =>
      obtain ⟨hfirst, hrest⟩ := List.cons.inj h
      obtain ⟨early, other, late, rfl, hbefore, he, hbehind⟩ := ih hrest
      exact ⟨action :: early, other, late, rfl, by rw [history, hfirst, hbefore], he, hbehind⟩

end

/-! ## What a history tells -/

namespace Event

/-- The entries, handles with their values, that an event makes of others. -/
def entries : Event α → List (Handle × α) → List (Handle × α)
  | .inserted h value, entries => entries ++ [(h, value)]
  | .removed h _, entries => entries.filter fun entry => entry.1 ≠ h
  | .refused _, entries => entries
  | .updated h f, entries =>
    entries.map fun entry => if entry.1 = h then (entry.1, f entry.2) else entry

/-- What an event makes of the value behind a handle that stays in use. -/
def value (h : Handle) : Event α → α → α
  | .updated k f, value => if k = h then f value else value
  | .inserted .., value | .removed .., value | .refused _, value => value

/-- Whether the slot was released. -/
def releases (i : Nat) : Event α → Bool
  | .removed h _ => h.index = i
  | .inserted .. | .refused _ | .updated .. => false

end Event

namespace History

variable (events : History α)

/-- The handles in use with their values, in the order in which they were issued. -/
def live : List (Handle × α) :=
  events.foldl (fun entries e => e.entries entries) []

/-- What has become of the value behind a handle. -/
def value (h : Handle) (value : α) : α :=
  events.foldl (fun value e => e.value h value) value

/-- How often a slot was released. -/
def releases (i : Nat) : Nat :=
  events.countP (Event.releases i)

@[simp]
theorem live_concat (e : Event α) : live (events ++ [e]) = e.entries (live events) := by
  simp [live]

@[simp]
theorem releases_concat (i : Nat) (e : Event α) :
    releases (events ++ [e]) i = releases events i + if e.releases i then 1 else 0 := by
  simp [releases, List.countP_append, List.countP_singleton]

theorem releases_append (more : History α) (i : Nat) :
    releases (events ++ more) i = releases events i + releases more i :=
  List.countP_append

end History

open History (live releases)

/-! ## One action -/

section

variable {p : Pool α} {h : Handle} {value : α} {i : Nat}

theorem perform_remove_of_get? (hget : p.get? h = some value) :
    p.perform (.remove h) = (.removed h value, p.erase h) := by
  simp [perform, remove?, hget]

theorem perform_remove_of_get?_eq_none (hget : p.get? h = none) :
    p.perform (.remove h) = (.refused h, p) := by
  simp [perform, remove?, hget]

/-- A handle leads to its value until that is taken out. -/
theorem get?_perform (hget : p.get? h = some value) (action : Action α)
    (hkept : ∀ last, (p.perform action).1 ≠ .removed h last) :
    (p.perform action).2.get? h = some ((p.perform action).1.value h value) := by
  cases action with
  | insert other => exact get?_insert_of_get? hget
  | remove k =>
    cases hk : p.get? k with
    | none =>
      rw [perform_remove_of_get?_eq_none hk]
      exact hget
    | some last =>
      rw [perform_remove_of_get? hk] at hkept ⊢
      have hne : h ≠ k := by
        rintro rfl
        exact hkept last rfl
      change (p.erase k).get? h = some value
      rw [get?_erase, if_neg hne, hget]
  | update k f =>
    change (p.modify k f).get? h = some (if k = h then f value else value)
    rw [get?_modify]
    by_cases hk : k = h
    · subst hk
      rw [if_pos rfl, if_pos rfl, hget, Option.map_some]
    · rw [if_neg (Ne.symm hk), if_neg hk, hget]

theorem get?_after (hget : p.get? h = some value) (actions : List (Action α))
    (hkept : ∀ last, .removed h last ∉ p.history actions) :
    (p.after actions).get? h = some (History.value (p.history actions) h value) := by
  induction actions generalizing p value with
  | nil => exact hget
  | cons action actions ih =>
    have hfirst := get?_perform hget action fun last heq =>
      hkept last (List.mem_cons.2 (.inl heq.symm))
    exact ih hfirst fun last hmem => hkept last (List.mem_cons_of_mem _ hmem)

/-! ## Generations -/

/-- The generation of a slot. -/
def generation? (p : Pool α) (i : Nat) : Option UInt32 :=
  p.slots[i]?.map Slot.generation

theorem generation?_of_get? (hget : p.get? h = some value) :
    p.generation? h.index = some h.generation := by
  rw [generation?, get?_eq_some_iff.1 hget, Option.map_some]

/-- A value in the slot that the handle names lies behind the handle if the generation is that of
the handle. -/
theorem get?_isSome_iff :
    (p.get? h).isSome = true ↔ p.Occupied h.index ∧ p.generation? h.index = some h.generation := by
  rw [occupied_iff_exists_slot, Option.isSome_iff_exists]
  constructor
  · rintro ⟨value, hget⟩
    exact ⟨⟨h.generation, value, get?_eq_some_iff.1 hget⟩, generation?_of_get? hget⟩
  · rintro ⟨⟨generation, value, hslot⟩, hgeneration⟩
    rw [generation?, hslot, Option.map_some, Option.some_inj] at hgeneration
    exact ⟨value, get?_eq_some_iff.2 (hgeneration ▸ hslot)⟩

/-- A new slot has the first generation, and no other generation changes. -/
theorem generation?_insert (value : α) (p : Pool α) (i : Nat) :
    (p.insert value).2.generation? i = p.generation? i ∨
      p.slotCount ≤ i ∧ (p.insert value).2.generation? i = some 0 := by
  unfold generation? slotCount
  cases hv : p.vacant with
  | nil =>
    rw [(insert_of_vacant_nil hv value).2.1, Array.getElem?_push]
    by_cases hi : i = p.slots.size
    · exact .inr ⟨hi.ge, by rw [if_pos hi, Option.map_some]⟩
    · exact .inl (by rw [if_neg hi])
  | cons j rest =>
    rw [(insert_of_vacant_cons hv value).2.1, Array.getElem?_modify]
    refine .inl ?_
    split
    · cases p.slots[i]? <;> rfl
    · rfl

theorem generation?_erase (hget : p.get? h = some value) (i : Nat) :
    (p.erase h).generation? i =
      if i = h.index then some (h.generation + 1) else p.generation? i := by
  have hlt := (Array.getElem?_eq_some_iff.1 (get?_eq_some_iff.1 hget)).1
  unfold generation?
  rw [(erase_of_get? hget).1, Array.getElem?_setIfInBounds]
  by_cases hi : h.index = i
  · rw [if_pos hi, if_pos hi.symm, if_pos hlt, Option.map_some]
  · rw [if_neg hi, if_neg (Ne.symm hi)]

theorem generation?_modify (h : Handle) (f : α → α) (p : Pool α) (i : Nat) :
    (p.modify h f).generation? i = p.generation? i := by
  unfold generation? modify
  rw [Array.getElem?_modify]
  split
  · cases p.slots[i]? with
    | none => rfl
    | some slot =>
      rw [Option.map_some, Option.map_some, Option.map_some]
      split <;> rfl
  · rfl

/-! ## Slots -/

/-- A slot is added only if as many values are stored as there were slots. -/
theorem slotCount_perform (p : Pool α) (action : Action α) :
    (p.perform action).2.slotCount = max p.slotCount (p.perform action).2.size := by
  have hle (q : Pool α) : q.size ≤ q.slotCount := Nat.le.intro q.size_add_vacant
  cases action with
  | insert value =>
    change (p.insert value).2.slotCount = max p.slotCount (p.insert value).2.size
    rw [size_insert]
    cases hv : p.vacant with
    | nil =>
      have hsize : p.size = p.slotCount := by
        have hcount := p.size_add_vacant
        rwa [hv] at hcount
      rw [slotCount, (insert_of_vacant_nil hv value).2.1, Array.size_push, hsize]
      exact (Nat.max_eq_right (Nat.le_succ _)).symm
    | cons i rest =>
      have hsize : p.size + 1 ≤ p.slotCount := by
        have hcount := p.size_add_vacant
        rw [hv, List.length_cons] at hcount
        rw [slotCount]
        omega
      rw [slotCount, (insert_of_vacant_cons hv value).2.1, Array.size_modify]
      exact (Nat.max_eq_left hsize).symm
  | remove h =>
    cases hget : p.get? h with
    | none =>
      rw [perform_remove_of_get?_eq_none hget]
      exact (Nat.max_eq_left (hle p)).symm
    | some value =>
      have hcount : (p.erase h).slotCount = p.slotCount := by
        rw [slotCount, (erase_of_get? hget).1, Array.size_setIfInBounds, slotCount]
      rw [perform_remove_of_get? hget, hcount, ← hcount]
      exact (Nat.max_eq_left (hle _)).symm
  | update h f =>
    have hcount : (p.modify h f).slotCount = p.slotCount := Array.size_modify
    change (p.modify h f).slotCount = max p.slotCount (p.modify h f).size
    rw [size_modify, hcount]
    exact (Nat.max_eq_left (hle p)).symm

end

/-! ## The pool and its history -/

/-- The pool holds what its history says, and the generation of a slot counts its releases. -/
structure Follows (p : Pool α) (events : History α) : Prop where
  /-- The values are those in use. -/
  get?_iff : ∀ h value, p.get? h = some value ↔ (h, value) ∈ live events
  /-- No handle is in use twice. -/
  nodup_handles : ((live events).map Prod.fst).Nodup
  /-- A generation counts releases, up to its width. -/
  generation : ∀ i generation,
    p.generation? i = some generation → generation = .ofNat (releases events i)
  /-- A slot that does not exist yet was never released. -/
  unreleased : ∀ i, p.slotCount ≤ i → releases events i = 0

theorem follows_empty : (empty : Pool α).Follows [] where
  get?_iff := by simp [live]
  nodup_handles := .nil
  generation := by simp [generation?, empty]
  unreleased _ _ := rfl

namespace Follows

variable {p : Pool α} {events : History α} {h : Handle} {value : α}

theorem insert (hp : p.Follows events) (value : α) :
    (p.insert value).2.Follows (events ++ [.inserted (p.insert value).1 value]) where
  get?_iff k other := by
    rw [get?_insert, History.live_concat, Event.entries, List.mem_append, List.mem_singleton,
      Prod.mk.injEq, ← hp.get?_iff]
    by_cases hk : k = (p.insert value).1
    · subst hk
      simp [eq_comm]
    · simp [hk]
  nodup_handles := by
    rw [History.live_concat, Event.entries, List.map_append, List.nodup_append]
    refine ⟨hp.nodup_handles, List.nodup_singleton _, ?_⟩
    rintro _ hmem _ hnew rfl
    -- the handle that is issued has no value yet, and so is not in use
    obtain ⟨⟨k, other⟩, hentry, rfl⟩ := List.mem_map.1 hmem
    have hother := (hp.get?_iff k other).2 hentry
    rw [show k = (p.insert value).1 by simpa using hnew, get?_fst_insert] at hother
    cases hother
  generation i generation hi := by
    rw [History.releases_concat, Event.releases, if_neg Bool.false_ne_true, Nat.add_zero]
    rcases generation?_insert value p i with hold | ⟨hcount, hnew⟩
    · exact hp.generation i generation (hold.symm.trans hi)
    · rw [hp.unreleased i hcount]
      exact Option.some_inj.1 (hi.symm.trans hnew)
  unreleased i hi := by
    rw [History.releases_concat, Event.releases, if_neg Bool.false_ne_true, Nat.add_zero]
    have hcount : (p.insert value).2.slotCount = max p.slotCount (p.insert value).2.size :=
      slotCount_perform p (.insert value)
    exact hp.unreleased i ((Nat.le_max_left _ _).trans (hcount ▸ hi))

theorem erase (hp : p.Follows events) (hget : p.get? h = some value) :
    (p.erase h).Follows (events ++ [.removed h value]) where
  get?_iff k other := by
    rw [get?_erase, History.live_concat, Event.entries, List.mem_filter, ← hp.get?_iff]
    by_cases hk : k = h <;> simp [hk]
  nodup_handles := by
    rw [History.live_concat, Event.entries]
    exact hp.nodup_handles.sublist (List.filter_sublist.map _)
  generation i generation hi := by
    rw [History.releases_concat, Event.releases]
    rw [generation?_erase hget] at hi
    by_cases hindex : i = h.index
    · -- the slot is released once more
      subst hindex
      rw [if_pos rfl, Option.some_inj] at hi
      rw [decide_eq_true rfl, if_pos rfl, UInt32.ofNat_add, ← hi,
        hp.generation _ _ (generation?_of_get? hget)]
      rfl
    · rw [if_neg hindex] at hi
      rw [decide_eq_false (Ne.symm hindex), if_neg Bool.false_ne_true, Nat.add_zero]
      exact hp.generation i generation hi
  unreleased i hi := by
    rw [slotCount, (erase_of_get? hget).1, Array.size_setIfInBounds] at hi
    have hlt := (Array.getElem?_eq_some_iff.1 (get?_eq_some_iff.1 hget)).1
    rw [History.releases_concat, Event.releases, decide_eq_false (by omega),
      if_neg Bool.false_ne_true, Nat.add_zero]
    exact hp.unreleased i hi

theorem refuse (hp : p.Follows events) (h : Handle) : p.Follows (events ++ [.refused h]) where
  get?_iff := by simpa [Event.entries] using hp.get?_iff
  nodup_handles := by simpa [Event.entries] using hp.nodup_handles
  generation := by simpa [Event.releases] using hp.generation
  unreleased := by simpa [Event.releases] using hp.unreleased

theorem modify (hp : p.Follows events) (h : Handle) (f : α → α) :
    (p.modify h f).Follows (events ++ [.updated h f]) where
  get?_iff k other := by
    rw [get?_modify, History.live_concat, Event.entries, List.mem_map]
    by_cases hk : k = h
    · subst hk
      rw [if_pos rfl, Option.map_eq_some_iff]
      constructor
      · rintro ⟨old, hold, rfl⟩
        exact ⟨(k, old), (hp.get?_iff k old).1 hold, if_pos rfl⟩
      · rintro ⟨⟨j, old⟩, hmem, heq⟩
        by_cases hj : j = k
        · subst hj
          rw [if_pos rfl, Prod.mk.injEq] at heq
          exact ⟨old, (hp.get?_iff j old).2 hmem, heq.2⟩
        · rw [if_neg hj, Prod.mk.injEq] at heq
          exact absurd heq.1 hj
    · rw [if_neg hk, hp.get?_iff]
      constructor
      · exact fun hmem => ⟨(k, other), hmem, if_neg hk⟩
      · rintro ⟨⟨j, old⟩, hmem, heq⟩
        by_cases hj : j = h
        · rw [if_pos hj, Prod.mk.injEq] at heq
          exact absurd (heq.1.symm.trans hj) hk
        · rw [if_neg hj] at heq
          exact heq ▸ hmem
  nodup_handles := by
    have hsame : (live (events ++ [.updated h f])).map Prod.fst = (live events).map Prod.fst := by
      rw [History.live_concat, Event.entries, List.map_map]
      refine List.map_congr_left fun entry _ => ?_
      rw [Function.comp_apply]
      split <;> rfl
    rw [hsame]
    exact hp.nodup_handles
  generation i generation hi := by
    rw [History.releases_concat, Event.releases, if_neg Bool.false_ne_true, Nat.add_zero]
    exact hp.generation i generation (generation?_modify h f p i ▸ hi)
  unreleased i hi := by
    rw [History.releases_concat, Event.releases, if_neg Bool.false_ne_true, Nat.add_zero]
    exact hp.unreleased i (by rwa [slotCount, Pool.modify, Array.size_modify] at hi)

/-- One more action. -/
theorem perform (hp : p.Follows events) (action : Action α) :
    (p.perform action).2.Follows (events ++ [(p.perform action).1]) := by
  cases action with
  | insert value => exact hp.insert value
  | remove h =>
    cases hget : p.get? h with
    | none =>
      rw [perform_remove_of_get?_eq_none hget]
      exact hp.refuse h
    | some value =>
      rw [perform_remove_of_get? hget]
      exact hp.erase hget
  | update h f => exact hp.modify h f

theorem after (hp : p.Follows events) (actions : List (Action α)) :
    (p.after actions).Follows (events ++ p.history actions) := by
  induction actions generalizing p events with
  | nil =>
    rw [history, List.append_nil]
    exact hp
  | cons action actions ih =>
    have := ih (hp.perform action)
    rwa [List.append_assoc] at this

/-- The list of the pool holds the entries in use. -/
theorem toList_perm (hp : p.Follows events) : p.toList.Perm (live events) :=
  (List.perm_ext_iff_of_nodup p.nodup_toList (hp.nodup_handles.of_map _)).2 fun entry =>
    mem_toList.trans (hp.get?_iff entry.1 entry.2)

theorem size_eq (hp : p.Follows events) : p.size = (live events).length := by
  rw [← length_toList, hp.toList_perm.length_eq]

theorem occupied_iff (hp : p.Follows events) (i : Nat) :
    p.Occupied i ↔ ∃ entry ∈ live events, entry.1.index = i := by
  simp [Pool.occupied_iff, hp.toList_perm.mem_iff]

/-- Whatever happens after a handle was issued, it is accepted if its slot is occupied and was
released a multiple of `2 ^ 32` times since. -/
theorem get?_isSome_iff (hp : p.Follows events) (value : α) (late : List (Action α)) :
    let q := (p.insert value).2
    let h := (p.insert value).1
    ((q.after late).get? h).isSome = true ↔
      (q.after late).Occupied h.index ∧ 2 ^ 32 ∣ releases (q.history late) h.index := by
  intro q h
  have hq : q.Follows (events ++ [.inserted h value]) := hp.insert value
  have hissued : h.generation = .ofNat (releases (events ++ [.inserted h value]) h.index) :=
    hq.generation _ _ (generation?_of_get? (get?_insert_self value p))
  have hlate := (hq.after late).generation h.index
  rw [History.releases_append] at hlate
  rw [Pool.get?_isSome_iff, and_congr_right_iff]
  intro hoccupied
  obtain ⟨generation, _, hslot⟩ := occupied_iff_exists_slot.1 hoccupied
  have hgeneration : (q.after late).generation? h.index = some generation := by
    rw [generation?, hslot, Option.map_some]
  rw [hgeneration, Option.some_inj, hlate _ hgeneration, hissued, ← UInt32.toNat_inj,
    UInt32.toNat_ofNat', UInt32.toNat_ofNat']
  omega

end Follows

/-! ## The most values at once -/

/-- The count is the greatest number of values that were ever in use at once. -/
def History.IsPeak (events : History α) (count : Nat) : Prop :=
  IsGreatest {n | ∃ earlier, earlier <+: events ∧ (live earlier).length = n} count

theorem History.isPeak_nil : IsPeak ([] : History α) 0 := by
  refine ⟨⟨[], List.prefix_rfl, rfl⟩, ?_⟩
  rintro _ ⟨earlier, hearlier, rfl⟩
  rw [List.prefix_nil.1 hearlier]
  exact Nat.le_refl _

theorem History.IsPeak.concat {events : History α} {count : Nat} (h : IsPeak events count)
    (e : Event α) :
    IsPeak (events ++ [e]) (max count (live (events ++ [e])).length) := by
  obtain ⟨⟨earlier, hearlier, hlength⟩, hle⟩ := h
  constructor
  · rcases Nat.le_total count (live (events ++ [e])).length with hless | hless
    · exact ⟨events ++ [e], List.prefix_rfl, (Nat.max_eq_right hless).symm⟩
    · rw [Nat.max_eq_left hless]
      exact ⟨earlier, hearlier.trans (List.prefix_append _ _), hlength⟩
  · rintro _ ⟨other, hother, rfl⟩
    rcases List.prefix_concat_iff.1 hother with rfl | hother
    · exact Nat.le_max_right _ _
    · exact (hle ⟨other, hother, rfl⟩).trans (Nat.le_max_left _ _)

/-- There are as many slots as there were ever values at once. -/
theorem Follows.isPeak_after {p : Pool α} {events : History α} (hp : p.Follows events)
    (hpeak : events.IsPeak p.slotCount) (actions : List (Action α)) :
    (events ++ p.history actions).IsPeak (p.after actions).slotCount := by
  induction actions generalizing p events with
  | nil =>
    rw [history, List.append_nil]
    exact hpeak
  | cons action actions ih =>
    have hnext := hp.perform action
    have hpeak := hpeak.concat (p.perform action).1
    rw [← hnext.size_eq, ← slotCount_perform] at hpeak
    have := ih hnext hpeak
    rwa [List.append_assoc] at this

/-! ## What a pool keeps -/

/-- The pool keeps the values of its history. A handle that was issued leads to its value until that
is taken out. -/
structure Keeps (p : Pool α) (events : History α) : Prop where
  /-- The handles in use lead to their values, and no others lead anywhere. -/
  get?_iff : ∀ h value, p.get? h = some value ↔ (h, value) ∈ live events
  /-- A value that was stored and not taken out since lies behind its handle, with the changes made
  in place. -/
  get?_of_inserted : ∀ before h value behind, events = before ++ .inserted h value :: behind →
    (∀ last, .removed h last ∉ behind) → p.get? h = some (History.value behind h value)
  /-- The handle issued next is not in use. -/
  fst_insert_not_live : ∀ value other, ((p.insert value).1, other) ∉ live events
  /-- A removal takes out the value behind a handle in use. -/
  perform_remove : ∀ h value, (h, value) ∈ live events →
    p.perform (.remove h) = (.removed h value, p.erase h)
  /-- A handle that is not in use is refused, and nothing changes. -/
  perform_remove_stale : ∀ h, (∀ value, (h, value) ∉ live events) →
    p.perform (.remove h) = (.refused h, p)
  /-- After its value was taken out, a handle is accepted only if its slot is occupied and was
  released `2 ^ 32` times, or a multiple of it, since it was issued. -/
  accepts_iff : ∀ before h value behind, events = before ++ .inserted h value :: behind →
    (∃ last, .removed h last ∈ behind) →
      ((p.get? h).isSome = true ↔ (∃ entry ∈ live events, entry.1.index = h.index) ∧
        ∃ count > 0, releases behind h.index = count * 2 ^ 32) ∧
      (p.remove? h).isSome = (p.get? h).isSome
  /-- As long as its slot was released less often, it is refused. -/
  refuses : ∀ before h value behind, events = before ++ .inserted h value :: behind →
    (∃ last, .removed h last ∈ behind) → releases events h.index < 2 ^ 32 →
      p.get? h = none ∧ p.remove? h = none
  /-- Each vacant slot is listed once. -/
  count_vacant : ∀ i, p.vacant.count i =
    if i < p.slotCount ∧ ∀ entry ∈ live events, entry.1.index ≠ i then 1 else 0
  /-- The size counts the handles in use. -/
  size_eq : p.size = (live events).length
  /-- The slots are as many as the most handles that were ever in use at once. -/
  isPeak_slotCount : events.IsPeak p.slotCount
  /-- The list holds each handle in use once, with its value. -/
  toList_perm : p.toList.Perm (live events)
  /-- The list goes up from slot to slot. -/
  pairwise_toList : p.toList.Pairwise fun a b => a.1.index < b.1.index

/-- Where a handle was issued, the pool had followed the history up to there. -/
theorem exists_insert_of_history {actions : List (Action α)} {before behind : History α}
    {h : Handle} {value : α}
    (hevents : (empty : Pool α).history actions = before ++ .inserted h value :: behind) :
    ∃ (p : Pool α) (late : List (Action α)), p.Follows before ∧ (p.insert value).1 = h ∧
      (p.insert value).2.history late = behind ∧
      (empty : Pool α).after actions = (p.insert value).2.after late := by
  obtain ⟨early, action, late, rfl, hbefore, he, hbehind⟩ := exists_split hevents
  have hfollows := follows_empty.after (α := α) early
  rw [List.nil_append, hbefore] at hfollows
  refine ⟨_, late, hfollows, ?_⟩
  rw [after_append, after_cons]
  cases action with
  | insert other =>
    cases he
    exact ⟨rfl, hbehind, rfl⟩
  | remove k =>
    -- a removal issues no handle
    cases hget : ((empty : Pool α).after early).get? k with
    | none =>
      rw [perform_remove_of_get?_eq_none hget] at he
      cases he
    | some last =>
      rw [perform_remove_of_get? hget] at he
      cases he
  | update k f => cases he

theorem isSome_remove? (p : Pool α) (h : Handle) : (p.remove? h).isSome = (p.get? h).isSome := by
  rw [remove?, Option.isSome_map]

/-- A slot whose value was taken out was released. -/
theorem History.releases_pos {events : History α} {h : Handle}
    (hremoved : ∃ last, .removed h last ∈ events) : 0 < releases events h.index := by
  obtain ⟨last, hmem⟩ := hremoved
  exact List.countP_pos_iff.2 ⟨_, hmem, decide_eq_true rfl⟩

/-- Whatever is done with a pool that was empty at first: it keeps the values of its history. -/
theorem keeps_after (actions : List (Action α)) :
    (empty.after actions).Keeps ((empty : Pool α).history actions) := by
  have hp := follows_empty.after (α := α) actions
  rw [List.nil_append] at hp
  have hpeak : ((empty : Pool α).history actions).IsPeak (empty.after actions).slotCount :=
    follows_empty.isPeak_after History.isPeak_nil actions
  have haccepts (before : History α) (h : Handle) (value : α) (behind : History α)
      (hevents : empty.history actions = before ++ .inserted h value :: behind) :
      ((empty.after actions).get? h).isSome = true ↔
        (empty.after actions).Occupied h.index ∧ 2 ^ 32 ∣ releases behind h.index := by
    obtain ⟨p, late, hbefore, rfl, rfl, hafter⟩ := exists_insert_of_history hevents
    rw [hafter]
    exact hbefore.get?_isSome_iff value late
  exact {
    get?_iff := hp.get?_iff
    get?_of_inserted := by
      intro before h value behind hevents hkept
      obtain ⟨p, late, -, rfl, rfl, hafter⟩ := exists_insert_of_history hevents
      rw [hafter]
      exact get?_after (get?_insert_self value p) late hkept
    fst_insert_not_live := by
      intro value other hlive
      have hother := (hp.get?_iff _ other).2 hlive
      rw [get?_fst_insert] at hother
      cases hother
    perform_remove := fun h value hlive => perform_remove_of_get? ((hp.get?_iff h value).2 hlive)
    perform_remove_stale := by
      intro h hstale
      refine perform_remove_of_get?_eq_none (Option.eq_none_iff_forall_ne_some.2 ?_)
      exact fun value hget => hstale value ((hp.get?_iff h value).1 hget)
    accepts_iff := by
      intro before h value behind hevents hremoved
      refine ⟨?_, isSome_remove? _ h⟩
      have hpos := History.releases_pos hremoved
      rw [haccepts before h value behind hevents, hp.occupied_iff]
      refine and_congr_right fun _ => ⟨?_, ?_⟩
      · rintro ⟨count, hcount⟩
        exact ⟨count, by omega, by omega⟩
      · rintro ⟨count, -, hcount⟩
        exact ⟨count, by omega⟩
    refuses := by
      intro before h value behind hevents hremoved hfew
      have hpos := History.releases_pos hremoved
      rw [hevents, History.releases_append] at hfew
      have hle : releases behind h.index ≤ releases (.inserted h value :: behind) h.index :=
        (List.sublist_cons_self _ behind).countP_le
      have hnone : (empty.after actions).get? h = none := by
        rw [← Option.not_isSome_iff_eq_none, haccepts before h value behind hevents]
        rintro ⟨-, count, hcount⟩
        omega
      exact ⟨hnone, remove?_eq_none_iff.2 hnone⟩
    count_vacant := by
      intro i
      have hmem : i ∈ (empty.after actions).vacant ↔
          i < (empty.after actions).slotCount ∧
            ∀ entry ∈ live (empty.history actions), entry.1.index ≠ i := by
        rw [mem_vacant_iff_not_occupied, hp.occupied_iff]
        simp only [not_exists, not_and, ne_eq]
      rw [(empty.after actions).nodup_vacant.count, if_congr hmem rfl rfl]
    size_eq := hp.size_eq
    isPeak_slotCount := hpeak
    toList_perm := hp.toList_perm
    pairwise_toList := (empty.after actions).pairwise_toList }

end Beamline.Pool
