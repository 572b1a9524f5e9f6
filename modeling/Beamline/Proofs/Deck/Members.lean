import Beamline.Proofs.Deck.Limits
import Beamline.Proofs.Deck.Failure

/-!
# The members of lines

The entries of a line are the names of elements, or names that stood for nothing when the line was
laid out, and then there was a warning. This lasts: an element that is defined anew is there again
when its definition is done, and what a line is made of is copied with its entries, which have been
accounted for before.

* `Deck.Accounted`: each entry of each line is the name of an element, or there was a warning.
* `Deck.accounted_apply`: statements that are done keep this.
-/

namespace Beamline

open Source (Position)
open Diagnostic (Condition)
open Beamline.Expr (Forest Formula NodeId)

/-! ## Names and kinds of elements -/

namespace Element

variable {e changed : Element} {previous : Option NodeId} {id : NodeId}

/-- The other element has the name and the kind of this one. -/
def SameHead (e other : Element) : Prop :=
  other.name = e.name ∧ other.kind = e.kind

theorem sameHead_of_assign {key : String} (h : e.assign key id = .ok (previous, changed)) :
    e.SameHead changed := by
  unfold assign at h
  cases hindex : e.slotIndex key with
  | error refusal =>
    rw [hindex] at h
    cases h
  | ok i =>
    rw [hindex] at h
    cases h
    exact ⟨rfl, rfl⟩

theorem sameHead_of_flag {key : String} {forest left : Forest}
    (h : e.flag key forest = .ok (previous, changed, left)) : e.SameHead changed := by
  unfold flag at h
  cases hindex : e.slotIndex key with
  | error refusal =>
    rw [hindex] at h
    cases h
  | ok i =>
    cases hdefault : e.kind.flagDefault? key with
    | none =>
      simp only [hindex, hdefault] at h
      cases h
    | some value =>
      simp only [hindex, hdefault] at h
      cases h
      exact ⟨rfl, rfl⟩

theorem sameHead_of_assignEntry {index : MapIndex}
    (h : e.assignEntry index id = .ok (previous, changed)) : e.SameHead changed := by
  unfold assignEntry at h
  split at h
  · cases h
    exact ⟨rfl, rfl⟩
  · cases h

end Element

/-! ## Layouts -/

namespace Line.Body

variable {scope : Scope} {G : Name → Array Diagnostic → Prop}

theorem exists_of_mem_reflect {entries : List Entry} {entry : Entry} (h : entry ∈ reflect entries) :
    ∃ other ∈ entries, other.name = entry.name := by
  obtain ⟨other, hother, rfl⟩ := List.mem_map.1 h
  exact ⟨other, List.mem_reverse.1 hother, rfl⟩

theorem mem_of_repeat? {count : String} {entries result : List Entry} {limit : Nat}
    (h : repeat? count entries limit = .ok result) {entry : Entry} (hentry : entry ∈ result) :
    entry ∈ entries := by
  rw [(repeat?_eq_ok_iff.1 h).2] at hentry
  obtain ⟨copy, hcopy, hentry⟩ := List.mem_flatten.1 hentry
  rwa [List.eq_of_mem_replicate hcopy] at hentry

/-- What is said of a name lasts, and a warning about the name is enough for it. -/
structure Vouches (scope : Scope) (G : Name → Array Diagnostic → Prop) : Prop where
  /-- It still holds when a diagnostic is added. -/
  lasting : ∀ name, Lasting (G name)
  /-- It holds after a warning. -/
  of_warning : ∀ (name : Name) (raised : Array Diagnostic),
    G name (raised.push ((Condition.memberUndefined name).diagnostic scope.pos))

mutual

/-- If it holds of the entries that defined members stand for, it holds of all entries that a body
is laid out to. -/
theorem ensures_entries (hG : Vouches scope G) (body : Body) {J : Array Diagnostic → Prop}
    (hJ : Lasting J)
    (hdefined : ∀ raised, J raised → ∀ name entries,
      entriesOf scope.symbols name = (entries, true) → ∀ entry ∈ entries, G entry.name raised) :
    Ensures J (layout scope body)
      (fun entries raised => J raised ∧ ∀ entry ∈ entries, G entry.name raised)
      fun _ _ => True := by
  match body with
  | .member raw =>
    unfold layout
    dsimp only
    rcases hentries : entriesOf scope.symbols (Name.ofText raw) with ⟨entries, isDefined⟩
    cases isDefined with
    | true => exact Ensures.of_pure fun raised h => ⟨h, hdefined raised h _ _ hentries⟩
    | false =>
      -- the one entry of an undefined member has its name
      have hname : entries = [.forward (Name.ofText raw)] := by
        unfold entriesOf at hentries
        split at hentries <;> cases hentries
        rfl
      subst hname
      have hwarn : Ensures J
          (modify (·.push ((Condition.memberUndefined (Name.ofText raw)).diagnostic scope.pos)) :
            Step PUnit)
          (fun _ raised => J raised ∧ G (Name.ofText raw) raised) fun _ _ => True :=
        Ensures.of_modify fun raised h => ⟨hJ raised _ h, hG.of_warning _ raised⟩
      refine hwarn.bind fun _ => Ensures.of_pure fun raised h => ⟨h.1, fun entry hentry => ?_⟩
      rw [List.mem_singleton.1 hentry]
      exact h.2
  | .sequence items => exact ensures_entriesAll hG items hJ hdefined
  | .repetition count body =>
    unfold layout
    refine (ensures_entries hG body hJ hdefined).bind fun entries => ?_
    cases hrepeat : repeat? count entries scope.limit with
    | ok result =>
      refine Ensures.of_pure fun raised h => ⟨h.1, fun entry hentry => h.2 entry ?_⟩
      exact mem_of_repeat? hrepeat hentry
    | error overflow => exact Ensures.of_throw fun _ _ => trivial
  | .reflection body =>
    unfold layout
    refine (ensures_entries hG body hJ hdefined).bind fun entries => ?_
    refine Ensures.of_pure fun raised h => ⟨h.1, fun entry hentry => ?_⟩
    obtain ⟨other, hother, hname⟩ := exists_of_mem_reflect hentry
    exact hname ▸ h.2 other hother

theorem ensures_entriesAll (hG : Vouches scope G) (items : List Body)
    {J : Array Diagnostic → Prop} (hJ : Lasting J)
    (hdefined : ∀ raised, J raised → ∀ name entries,
      entriesOf scope.symbols name = (entries, true) → ∀ entry ∈ entries, G entry.name raised) :
    Ensures J (layoutAll scope items)
      (fun entries raised => J raised ∧ ∀ entry ∈ entries, G entry.name raised)
      fun _ _ => True := by
  match items with
  | [] => exact Ensures.of_pure fun _ h => ⟨h, List.forall_mem_nil _⟩
  | item :: items =>
    unfold layoutAll
    refine (ensures_entries hG item hJ hdefined).bind fun entries => ?_
    -- what holds of the first entries lasts while the others are laid out
    have hfirst : Lasting fun raised => J raised ∧ ∀ entry ∈ entries, G entry.name raised :=
      fun raised d h =>
        ⟨hJ raised d h.1, fun entry hentry => hG.lasting _ raised d (h.2 entry hentry)⟩
    refine (ensures_entriesAll hG items hfirst fun raised h =>
      hdefined raised h.1).bind fun rest => ?_
    exact Ensures.of_pure fun raised h =>
      ⟨h.1.1, fun entry hentry => (List.mem_append.1 hentry).elim (h.1.2 entry) (h.2 entry)⟩

end

end Line.Body

/-! ## Decks -/

/-- The name is that of an element, or of the one that is being defined anew. -/
def Symbols.HasElement (symbols : Symbols) (lost : Option Name) (name : Name) : Prop :=
  (∃ e ∈ symbols.elements.toList, Record.name e = name) ∨ lost = some name

namespace Deck

/-- There was a warning that nothing has the name, be it in the past or now. -/
def Warned (past : List Diagnostic) (name : Name) (raised : Array Diagnostic) : Prop :=
  ∃ pos, (Condition.memberUndefined name).diagnostic pos ∈ past ∨
    (Condition.memberUndefined name).diagnostic pos ∈ raised

/-- The name is that of an element, or there was a warning about it. -/
def Work.Vouches (past : List Diagnostic) (lost : Option Name) (w : Work) (name : Name) : Prop :=
  w.deck.symbols.HasElement lost name ∨ Warned past name w.raised

/-- All entries of lines are accounted for, those of stored lines and those that are pending. The
given names are names of elements. -/
structure Accounted (past : List Diagnostic) (names : Name → Prop) (lost : Option Name)
    (pending : List Line.Entry) (w : Work) : Prop where
  /-- The given names are names of elements. -/
  names : ∀ name, names name → w.deck.symbols.HasElement lost name
  /-- Each entry of a stored line is the name of an element, or there was a warning. -/
  entries : ∀ line ∈ w.deck.symbols.lines.toList, ∀ entry ∈ line.entries,
    w.Vouches past lost entry.name
  /-- So are the entries that are about to be stored. -/
  pending : ∀ entry ∈ pending, w.Vouches past lost entry.name

/-- An action that is done keeps what holds of the deck. -/
abbrev Maintains {α : Type} (I : Work → Prop) (a : Action α) : Prop :=
  Ensures I a (fun _ => I) fun _ _ => True

variable {α β : Type} {past : List Diagnostic} {names : Name → Prop} {lost : Option Name}
  {pending : List Line.Entry} {w after : Work}

theorem Maintains.map {I : Work → Prop} {a : Action α} (h : Maintains I a) (f : α → β) :
    Maintains I (f <$> a) :=
  Ensures.map h

theorem lasting_warned (past : List Diagnostic) (name : Name) : Lasting (Warned past name) :=
  fun _ _ ⟨pos, h⟩ => ⟨pos, h.imp_right (Array.mem_push_of_mem _)⟩

theorem Warned.mono {name : Name} {raised more : Array Diagnostic} (h : Warned past name raised)
    (hmore : ∀ d ∈ raised, d ∈ more) : Warned past name more := by
  obtain ⟨pos, h⟩ := h
  exact ⟨pos, h.imp_right (hmore _)⟩

/-- What is accounted for stays so while elements and diagnostics are only added. -/
theorem Accounted.grow (h : Accounted past names lost pending w)
    {lost' : Option Name} {pending' : List Line.Entry}
    (helements : ∀ name, w.deck.symbols.HasElement lost name →
      after.deck.symbols.HasElement lost' name)
    (hlines : ∀ line ∈ after.deck.symbols.lines.toList,
      line ∈ w.deck.symbols.lines.toList ∨ line.entries = pending)
    (hraised : ∀ d ∈ w.raised, d ∈ after.raised) (hpending : pending' ⊆ pending) :
    Accounted past names lost' pending' after := by
  have hvouches {name : Name} (hname : w.Vouches past lost name) :
      after.Vouches past lost' name :=
    hname.imp (helements name) fun hwarned => hwarned.mono hraised
  refine ⟨fun name hname => helements name (h.names name hname), fun line hline entry hentry => ?_,
    fun entry hentry => hvouches (h.pending entry (hpending hentry))⟩
  rcases hlines line hline with hline | hnew
  · exact hvouches (h.entries line hline entry hentry)
  · exact hvouches (h.pending entry (hnew ▸ hentry))

/-- An action that leaves the records alone and adds to the diagnostics. -/
theorem maintains_of_keepsRecords {a : Action α} {P : Work → Prop}
    (hrecords : ∀ deck : Deck, deck.KeepsRecords none a) (hraised : Indifferent {} P a) :
    Maintains (Accounted past names lost pending) a := by
  intro w hw
  have hkeeps := (hrecords w.deck).run (s := w) (.refl w.deck)
  have hgrow := hraised.raised w
  have helements : (a.run w).2.deck.symbols.elements.toList = w.deck.symbols.elements.toList := by
    rw [hkeeps.elements]
    exact List.filter_eq_self.2 (by simp)
  have hafter : Accounted past names lost pending (a.run w).2 := by
    refine hw.grow (fun name => ?_) (fun line hline => .inl ?_) hgrow (List.Subset.refl _)
    · unfold Symbols.HasElement
      rw [helements]
      exact id
    · rwa [hkeeps.lines] at hline
  rcases hrun : a.run w with ⟨e | x, w'⟩
  · exact .inr ⟨e, w', rfl, trivial⟩
  · rw [hrun] at hafter
    exact .inl ⟨x, w', rfl, hafter⟩

theorem maintains_raise (condition : Condition) :
    Maintains (Accounted past names lost pending) (raise condition) :=
  maintains_of_keepsRecords (P := fun _ => True) (fun _ => keepsRecords_raise condition)
    (.of_raise condition)

theorem maintains_lowerWith (constantsOnly : Bool) (formula : Formula) :
    Maintains (Accounted past names lost pending) (lowerWith constantsOnly formula) :=
  maintains_of_keepsRecords (P := fun _ => True)
    (fun _ => keepsRecords_lowerWith constantsOnly formula) (.of_lowerWith constantsOnly formula)

theorem maintains_evaluate (id : NodeId) :
    Maintains (Accounted past names lost pending) (evaluate id) :=
  maintains_of_keepsRecords (fun _ => keepsRecords_evaluate id) (indifferent_evaluate id)

/-! ## Constants and variables -/

theorem maintains_insertConstant (record : Constant) :
    Maintains (Accounted past names lost pending) (discard (insertConstant record)) :=
  Ensures.discarded (ensures_onTable (fun _ _ _ _ h _ => ⟨h.names, h.entries, h.pending⟩)
    fun _ _ _ _ _ _ => trivial)

theorem maintains_insertVariable (record : Variable) :
    Maintains (Accounted past names lost pending) (discard (insertVariable record)) :=
  Ensures.discarded (ensures_onTable (fun _ _ _ _ h _ => ⟨h.names, h.entries, h.pending⟩)
    fun _ _ _ _ _ _ => trivial)

theorem maintains_defineConstant (raw : String) (formula : Formula) :
    Maintains (Accounted past names none []) (defineConstant raw formula) := by
  refine ensures_current fun deck => Ensures.ite (fun _ => maintains_raise _) fun _ => ?_
  refine (maintains_lowerWith true formula).bind fun id => (maintains_evaluate id).bind fun _ => ?_
  refine ensures_current fun deck => Ensures.ite (fun _ => ?_) fun _ => maintains_insertConstant _
  exact (maintains_raise _).bind fun _ => maintains_insertConstant _

theorem maintains_defineVariable (raw : String) (formula : Formula) (binding : Binding) :
    Maintains (Accounted past names none []) (defineVariable raw formula binding) := by
  have hinsert (expr : NodeId) : Maintains (Accounted past names none []) (do
      discard <| insertVariable { name := Name.ofText raw, expr, pos := (← current).pos }) :=
    ensures_current fun deck => maintains_insertVariable _
  refine ensures_current fun deck => Ensures.ite (fun _ => maintains_raise _) fun _ => ?_
  refine (maintains_lowerWith false formula).bind fun id => ?_
  cases binding with
  | deferred => exact hinsert id
  | immediate =>
    -- the value takes the place of the expression, and the records are as they were
    have hforest {β : Type} (step : Forest → Except Expr.Fault β × Forest) :
        Maintains (Accounted past names none []) (onForest step) :=
      maintains_of_keepsRecords (P := fun _ => True) (fun _ => keepsRecords_onForest step)
        (.of_onForest step)
    refine (maintains_evaluate id).bind fun value => (hforest _).bind fun _ => ?_
    exact (hforest _).bind fun expr => hinsert expr

/-! ## Elements -/

/-- An element keeps its name and its kind while an item is entered. -/
def KeepsHead (element : Element) (a : Action Element) : Prop :=
  Ensures (fun _ => True) a (fun e _ => element.SameHead e) fun _ _ => True

theorem keepsHead_pure {element changed : Element} (h : element.SameHead changed) :
    KeepsHead element (pure changed) :=
  Ensures.of_pure fun _ _ => h

theorem keepsHead_after {element : Element} {a : Action α} {f : α → Action Element}
    (hf : ∀ x, KeepsHead element (f x)) : KeepsHead element (a >>= f) :=
  (Ensures.of_true _ a).bind hf

theorem keepsHead_settle {element : Element} {id : NodeId}
    {outcome : Except Element.Refusal (Option NodeId × Element)}
    (h : ∀ previous changed, outcome = .ok (previous, changed) → element.SameHead changed) :
    KeepsHead element (settle element id outcome) := by
  cases outcome with
  | ok changed => exact keepsHead_after fun _ => keepsHead_pure (h changed.1 changed.2 rfl)
  | error refusal =>
    exact keepsHead_after fun _ => keepsHead_after fun _ => keepsHead_pure ⟨rfl, rfl⟩

theorem keepsHead_entryItem (element : Element) (index : Option Element.MapIndex)
    (written : String) (value : Formula) :
    KeepsHead element (entryItem element index written value) := by
  refine Ensures.ite (fun _ => keepsHead_after fun _ => keepsHead_pure ⟨rfl, rfl⟩) fun _ => ?_
  cases index with
  | none => exact keepsHead_after fun _ => keepsHead_pure ⟨rfl, rfl⟩
  | some index =>
    exact keepsHead_after fun id => keepsHead_settle fun _ _ => Element.sameHead_of_assignEntry

theorem keepsHead_enterItem (element : Element) (item : Element.Item) :
    KeepsHead element (enterItem element item) := by
  cases item with
  | assign key value =>
    rw [enterItem, assignItem]
    split
    · exact keepsHead_pure ⟨rfl, rfl⟩
    · refine Ensures.ite (fun _ => ?_) fun _ => keepsHead_after fun _ => keepsHead_pure ⟨rfl, rfl⟩
      exact keepsHead_after fun id => keepsHead_settle fun _ _ => Element.sameHead_of_assign
  | flag key =>
    refine keepsHead_after fun deck => ?_
    cases hflag : element.flag key deck.forest with
    | ok changed =>
      exact keepsHead_after fun _ => keepsHead_after fun _ =>
        keepsHead_pure (Element.sameHead_of_flag hflag)
    | error refusal => exact keepsHead_after fun _ => keepsHead_pure ⟨rfl, rfl⟩
  | label text => exact keepsHead_pure ⟨rfl, rfl⟩
  | rm i j value => exact keepsHead_entryItem element _ _ value
  | tm i j k value => exact keepsHead_entryItem element _ _ value

/-- While items are entered the deck keeps what is accounted for, and the element its name. -/
theorem ensures_enterItems {name : Name} (items : List Element.Item) {element : Element}
    (hname : element.name = name) :
    Ensures (Accounted past names lost pending) (items.foldlM enterItem element)
      (fun e w => e.name = name ∧ Accounted past names lost pending w) fun _ _ => True := by
  have hitem : ∀ item ∈ items, ∀ e : Element,
      Ensures (fun w => e.name = name ∧ Accounted past names lost pending w) (enterItem e item)
        (fun e w => e.name = name ∧ Accounted past names lost pending w) fun _ _ => True := by
    refine fun item _ e => Ensures.of_and fun he => ?_
    have hkeeps : Maintains (Accounted past names lost pending) (enterItem e item) :=
      maintains_of_keepsRecords (P := fun _ => True) (fun _ => keepsRecords_enterItem e item)
        (indifferent_enterItem e item)
    exact ((keepsHead_enterItem e item).and hkeeps).imp (fun _ h => ⟨trivial, h⟩)
      (fun _ _ h => ⟨h.1.1.trans he, h.2⟩) fun _ _ _ => trivial
  exact (Ensures.foldlM hitem element).imp (fun _ h => ⟨hname, h⟩) (fun _ _ => id) fun _ _ => id

/-- The element that is removed counts as lost. -/
theorem ensures_removeElement_accounted (name : Name) :
    Ensures (Accounted past names none pending) (removeElement name)
      (fun _ => Accounted past names (some name) pending) fun _ _ => True := by
  refine ensures_onTable (fun w _ t forest hw h => ?_) fun _ _ _ _ _ _ => trivial
  refine hw.grow (fun other hother => ?_) (fun _ => .inl) (fun _ => id) (List.Subset.refl _)
  obtain ⟨e, he, rfl⟩ := hother.resolve_right nofun
  by_cases hname : Record.name e = name
  · exact .inr (congrArg some hname.symm)
  · refine .inl ⟨e, ?_, rfl⟩
    rw [show _ = _ from Table.toList_of_remove h]
    exact List.mem_filter.2 ⟨he, decide_eq_true hname⟩

/-- It is there again once an element of the name is stored. -/
theorem ensures_insertElement {name : Name} {element : Element} (hname : element.name = name) :
    Ensures (Accounted past names (some name) pending) (discard (insertElement element))
      (fun _ => Accounted past names none pending) fun _ _ => True := by
  refine Ensures.discarded
    (ensures_onTable (fun w _ t forest hw h => ?_) fun _ _ _ _ _ _ => trivial)
  refine hw.grow (fun other hother => .inl ?_) (fun _ => .inl) (fun _ => id) (List.Subset.refl _)
  rw [show _ = _ from Table.toList_of_insert h]
  rcases hother with ⟨e, he, rfl⟩ | hlost
  · by_cases hsame : Record.name e = element.name
    · exact ⟨element, List.mem_cons_self, hsame.symm⟩
    · exact ⟨e, List.mem_cons_of_mem _ (List.mem_filter.2 ⟨he, decide_eq_true hsame⟩), rfl⟩
  · exact ⟨element, List.mem_cons_self, hname.trans (Option.some.inj hlost)⟩

theorem maintains_defineElement (raw : String) (kind : Element.Kind)
    (items : List Element.Item) :
    Maintains (Accounted past names none []) (defineElement raw kind items) := by
  have hrest : Ensures (Accounted past names (some (Name.ofText raw)) []) (do
      let element ← items.foldlM enterItem (Element.blank (Name.ofText raw) kind (← current).pos)
      discard <| insertElement element)
      (fun _ => Accounted past names none []) fun _ _ => True := by
    refine ensures_current fun deck => (ensures_enterItems items rfl).bind fun element => ?_
    exact Ensures.of_and fun hname => ensures_insertElement hname
  refine (ensures_removeElement_accounted _).bind fun _ => Ensures.ite (fun _ => ?_) fun _ => hrest
  exact (maintains_raise _).bind fun _ => hrest

/-! ## Lines -/

/-- The entries that a body is laid out to are accounted for. -/
theorem ensures_layout_accounted (body : Line.Body) :
    Ensures (Accounted past names none []) (layout body)
      (fun entries => Accounted past names none entries) fun _ _ => True := by
  intro w hw
  let scope := w.deck.lineScope
  let G (name : Name) (raised : Array Diagnostic) : Prop :=
    Work.Vouches past none { w with raised } name
  have hG : Line.Body.Vouches scope G := by
    refine ⟨fun name raised d h => h.imp_right (lasting_warned past name raised d), ?_⟩
    exact fun name raised => .inr ⟨w.deck.pos, .inr Array.mem_push_self⟩
  let J (raised : Array Diagnostic) : Prop := Accounted past names none [] { w with raised }
  have hJ : Lasting J := fun raised d h =>
    h.grow (fun _ => id) (fun _ => .inl) (fun _ => Array.mem_push_of_mem _) (List.Subset.refl _)
  have hdefined : ∀ raised, J raised → ∀ name entries,
      Line.entriesOf scope.symbols name = (entries, true) →
        ∀ entry ∈ entries, G entry.name raised := by
    intro raised h name entries hentries entry hentry
    -- an element stands for itself, a line for entries that are accounted for
    unfold Line.entriesOf Symbols.resolve at hentries
    cases helement : scope.symbols.elements.get? name with
    | some record =>
      rw [helement] at hentries
      cases hentries
      rw [List.mem_singleton.1 hentry]
      exact .inl (.inl ⟨record, Table.mem_toList_of_get? helement, Table.name_of_get? helement⟩)
    | none =>
      rw [helement] at hentries
      cases hline : scope.symbols.lines.get? name with
      | none =>
        rw [hline] at hentries
        cases hentries
      | some record =>
        rw [hline] at hentries
        cases hentries
        exact h.entries record (Table.mem_toList_of_get? hline) entry hentry
  rw [run_layout]
  rcases Line.Body.ensures_entries hG body hJ hdefined w.raised hw with
    ⟨entries, raised, ha, hraised, hentries⟩ | ⟨e, raised, ha, -⟩
  · rw [ha]
    exact .inl ⟨entries, _, rfl, hraised.names, hraised.entries, hentries⟩
  · rw [ha]
    exact .inr ⟨e, _, rfl, trivial⟩

theorem maintains_removeLine (name : Name) :
    Maintains (Accounted past names lost pending) (removeLine name) := by
  refine ensures_onTable (fun w _ t forest hw h => ?_) fun _ _ _ _ _ _ => trivial
  refine hw.grow (fun _ => id) (fun line hline => .inl ?_) (fun _ => id) (List.Subset.refl _)
  rw [show _ = _ from Table.toList_of_remove h] at hline
  exact (List.mem_filter.1 hline).1

/-- A line is stored with the entries that are pending. -/
theorem ensures_insertLine (record : Line) :
    Ensures (Accounted past names lost record.entries) (discard (insertLine record))
      (fun _ => Accounted past names lost []) fun _ _ => True := by
  refine Ensures.discarded
    (ensures_onTable (fun w _ t forest hw h => ?_) fun _ _ _ _ _ _ => trivial)
  refine hw.grow (fun _ => id) (fun line hline => ?_) (fun _ => id) (List.nil_subset _)
  rw [show _ = _ from Table.toList_of_insert h] at hline
  rcases List.mem_cons.1 hline with rfl | hline
  · exact .inr rfl
  · exact .inl (List.mem_filter.1 hline).1

theorem maintains_defineLine (raw : String) (body : Line.Body) :
    Maintains (Accounted past names none []) (defineLine raw body) := by
  refine (ensures_layout_accounted body).bind fun entries => ?_
  have hinsert : Ensures (Accounted past names none entries) (do
      discard <| insertLine { name := Name.ofText raw, entries, pos := (← current).pos })
      (fun _ => Accounted past names none []) fun _ _ => True :=
    ensures_current fun deck =>
      ensures_insertLine { name := Name.ofText raw, entries, pos := deck.pos }
  refine (maintains_removeLine _).bind fun _ => Ensures.ite (fun _ => ?_) fun _ => hinsert
  exact (maintains_raise _).bind fun _ => hinsert

/-! ## Statements -/

/-- A change that leaves the symbols alone. -/
theorem maintains_change {f : Deck → Deck} (hf : ∀ deck, (f deck).symbols = deck.symbols) :
    Maintains (Accounted past names lost pending) (change f) := by
  refine Ensures.of_modify fun w hw => hw.grow (fun name => ?_) (fun line hline => .inl ?_)
    (fun _ => id) (List.Subset.refl _)
  · exact (hf w.deck).symm ▸ id
  · exact (hf w.deck) ▸ hline

theorem maintains_beginComment : Maintains (Accounted past names none []) beginComment := by
  unfold beginComment
  exact maintains_change fun _ => rfl

theorem maintains_captureComment (text : String) (atEnd : Bool) :
    Maintains (Accounted past names none []) (captureComment text atEnd) := by
  unfold captureComment
  exact maintains_change fun _ => rfl

theorem maintains_endComment : Maintains (Accounted past names none []) endComment := by
  refine ensures_current fun deck => ?_
  cases deck.commentary.finish with
  | ok commentary => exact maintains_change fun _ => rfl
  | error _ => exact maintains_raise _

theorem maintains_perform (clause : Clause) :
    Maintains (Accounted past names none []) (perform clause) := by
  cases clause with
  | constant name value => exact maintains_defineConstant name value
  | «variable» name value binding => exact maintains_defineVariable name value binding
  | element name kind items => exact maintains_defineElement name kind items
  | line name body => exact maintains_defineLine name body
  | beginComment => exact maintains_beginComment
  | endComment => exact maintains_endComment
  | comment text atEnd => exact maintains_captureComment text atEnd
  | pragma keyword text => exact Ensures.of_pure fun _ => id

/-- An action of a statement read at a position. -/
theorem maintains_at {a : Action Unit} (h : Maintains (Accounted past names none []) a)
    (pos : Position) :
    Maintains (Accounted past names none [])
      (do
        moveTo pos
        a) := by
  have hmove : Maintains (Accounted past names none []) (moveTo pos) := by
    unfold moveTo
    exact maintains_change fun _ => rfl
  exact hmove.bind fun _ => h

/-- A statement that is done keeps all entries accounted for. -/
theorem accounted_apply (statement : Statement) :
    Maintains (Accounted past names none []) (apply statement) := by
  refine maintains_at (ensures_current fun deck => ?_) statement.pos
  exact Ensures.ite (fun _ => Ensures.of_pure fun _ => id) fun _ => maintains_perform _

end Deck

end Beamline
