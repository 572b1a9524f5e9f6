import Beamline.Diagnostic.Console

/-!
# What a ledger takes up

A ledger that is told warnings keeps some of them, in order, and counts no fatal diagnostic. One
that is told a fatal diagnostic keeps it, whatever it has been told before.

* `Console.ledger_reportAll`: reporting to a console is adding to its ledger.
* `Ledger.exists_added_addAll`: all that is fatal is kept, and of the warnings some, in order.
* `Ledger.Gains`: what a ledger has gained, with `Ledger.exists_gains` for what is told at once and
  `Ledger.Gains.trans` for what is told in two parts.
-/

namespace Beamline.Diagnostic

/-- A diagnostic is a warning or fatal. -/
theorem isWarning_eq_true_iff {d : Diagnostic} : d.isWarning = true ↔ d.isFatal = false := by
  unfold isWarning isFatal
  cases d.severity <;> decide

namespace Ledger

/-- Adds diagnostics in order. -/
def addAll (ds : List Diagnostic) (l : Ledger) : Ledger :=
  ds.foldl (fun l d => (l.add d).2) l

theorem addAll_append (ds es : List Diagnostic) (l : Ledger) :
    l.addAll (ds ++ es) = (l.addAll ds).addAll es := by
  simp [addAll]

/-- A warning is kept or dropped, and is not counted among the fatal diagnostics. -/
theorem add_of_isFatal_eq_false {d : Diagnostic} (h : d.isFatal = false) (l : Ledger) :
    ((l.add d).2.kept = l.kept.push d ∨ (l.add d).2.kept = l.kept) ∧
      (l.add d).2.fatals = l.fatals := by
  cases ha : l.accepts d <;> simp [add, ha, h]

/-- Of diagnostics of both kinds the fatal ones are all kept and counted, and the warnings in part,
all of it in order. -/
theorem exists_added_addAll (ds : List Diagnostic) (l : Ledger) :
    ∃ added : List Diagnostic, (l.addAll ds).kept.toList = l.kept.toList ++ added ∧
      added.Sublist ds ∧ added.filter Diagnostic.isFatal = ds.filter Diagnostic.isFatal ∧
      (l.addAll ds).fatals = l.fatals + (ds.filter Diagnostic.isFatal).length := by
  induction ds generalizing l with
  | nil => exact ⟨[], (List.append_nil _).symm, .slnil, rfl, rfl⟩
  | cons d ds ih =>
    obtain ⟨added, hkept, hsub, hfilter, hcount⟩ := ih (l.add d).2
    have hall : l.addAll (d :: ds) = (l.add d).2.addAll ds := rfl
    rw [hall, hkept, hcount]
    cases hd : d.isFatal with
    | true =>
      refine ⟨d :: added, ?_, hsub.cons_cons d, ?_, ?_⟩
      · simp [add_of_isFatal hd]
      · simp [hd, hfilter]
      · simp only [add_of_isFatal hd, List.filter_cons_of_pos hd, List.length_cons]
        omega
    | false =>
      obtain ⟨hadd, hfatals⟩ := add_of_isFatal_eq_false hd l
      have hfilter' : (d :: ds).filter Diagnostic.isFatal = ds.filter Diagnostic.isFatal :=
        List.filter_cons_of_neg (Bool.not_eq_true _ ▸ hd)
      rw [hfatals, hfilter']
      rcases hadd with hadd | hadd
      · refine ⟨d :: added, ?_, hsub.cons_cons d, ?_, rfl⟩
        · simp [hadd]
        · simp [hd, hfilter]
      · exact ⟨added, by rw [hadd], hsub.cons d, hfilter, rfl⟩

/-- Of warnings some are kept, in order, and none is counted among the fatal diagnostics. -/
theorem exists_kept_addAll {ds : List Diagnostic} (h : ∀ d ∈ ds, d.isFatal = false) (l : Ledger) :
    ∃ kept : List Diagnostic, kept.Sublist ds ∧
      (l.addAll ds).kept.toList = l.kept.toList ++ kept ∧ (l.addAll ds).fatals = l.fatals := by
  obtain ⟨kept, hkept, hsub, -, hfatals⟩ := exists_added_addAll ds l
  have hnone : ds.filter Diagnostic.isFatal = [] :=
    List.filter_eq_nil_iff.2 fun d hd => by simp [h d hd]
  rw [hnone] at hfatals
  exact ⟨kept, hsub, hkept, hfatals⟩

/-- The ledger has gained warnings, and after them the fatal diagnostic, if there is one. -/
structure Gains (l after : Ledger) (warnings : List Diagnostic) (fatal? : Option Diagnostic) :
    Prop where
  /-- These are what is kept in addition, in this order. -/
  kept : after.kept.toList = l.kept.toList ++ (warnings ++ fatal?.toList)
  /-- The fatal diagnostic is counted. -/
  fatals : after.fatals = l.fatals + fatal?.toList.length
  /-- The others are warnings. -/
  isWarning : ∀ d ∈ warnings, d.isWarning = true

/-- A ledger that is told warnings and then a fatal diagnostic, or none, gains some of the
warnings and the fatal diagnostic. -/
theorem exists_gains {ds : List Diagnostic} {fatal? : Option Diagnostic}
    (hds : ∀ d ∈ ds, d.isFatal = false) (hfatal : ∀ d ∈ fatal?, d.isFatal = true) (l : Ledger) :
    ∃ warnings : List Diagnostic, warnings.Sublist ds ∧
      l.Gains (l.addAll (ds ++ fatal?.toList)) warnings fatal? := by
  obtain ⟨warnings, hsub, hkept, hfatals⟩ := exists_kept_addAll hds l
  refine ⟨warnings, hsub, ?_⟩
  have hwarning : ∀ d ∈ warnings, d.isWarning = true := fun d hd =>
    isWarning_eq_true_iff.2 (hds d (hsub.subset hd))
  rw [addAll_append]
  cases fatal? with
  | none => exact ⟨hkept.trans (by simp), hfatals, hwarning⟩
  | some d =>
    have hadd : (l.addAll ds).addAll [d] =
        { l.addAll ds with
          kept := (l.addAll ds).kept.push d
          fatals := (l.addAll ds).fatals + 1 } :=
      congrArg Prod.snd (add_of_isFatal (hfatal d rfl) (l.addAll ds))
    refine ⟨?_, ?_, hwarning⟩
    · simp [hadd, hkept]
    · simp [hadd, hfatals]

/-- What is told in two parts, of which the first holds no fatal diagnostic. -/
theorem Gains.trans {l middle after : Ledger} {warnings more : List Diagnostic}
    {fatal? : Option Diagnostic} (h : l.Gains middle warnings none)
    (h' : middle.Gains after more fatal?) : l.Gains after (warnings ++ more) fatal? where
  kept := by simp [h'.kept, h.kept]
  fatals := by simp [h'.fatals, h.fatals]
  isWarning d hd := (List.mem_append.1 hd).elim (h.isWarning d) (h'.isWarning d)

/-- The fatal diagnostics are more exactly if there is one. -/
theorem Gains.fatals_lt_iff {l after : Ledger} {warnings : List Diagnostic}
    {fatal? : Option Diagnostic} (h : l.Gains after warnings fatal?) :
    l.fatals < after.fatals ↔ fatal?.isSome = true := by
  cases fatal? <;> simp [h.fatals]

end Ledger

/-- What is reported to a console is added to its ledger. -/
theorem Console.ledger_reportAll (ds : List Diagnostic) (c : Console) :
    (c.reportAll ds).ledger = c.ledger.addAll ds := by
  induction ds generalizing c with
  | nil => rfl
  | cons d ds ih =>
    have hall : c.reportAll (d :: ds) = (c.report d).2.reportAll ds := rfl
    rw [hall, ih, ledger_report]
    rfl

end Beamline.Diagnostic
