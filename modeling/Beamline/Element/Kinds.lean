import Beamline.Element.Kind

/-!
# Sets of kinds

A set of kinds has one bit for each kind, at the number of the kind.

* `contains_single`, `contains_union`: what the single sets and unions hold.
* `contains_ofList`: a set made of a list holds what is on the list.
-/

namespace Beamline.Element

/-- A set of element kinds. -/
structure Kinds where
  /-- The bit of each kind. -/
  bits : BitVec 25
  deriving DecidableEq

namespace Kinds

/-- The set without kinds. -/
def empty : Kinds :=
  ⟨0⟩

/-- The set with the given bits. Bits that belong to no kind are left out. -/
def ofNat (bits : Nat) : Kinds :=
  ⟨BitVec.ofNat 25 bits⟩

/-- The bits of a set as a natural. -/
def toNat (s : Kinds) : Nat :=
  s.bits.toNat

/-- The set of one kind. -/
def single (kind : Kind) : Kinds :=
  ⟨BitVec.twoPow 25 kind.index⟩

/-- The kinds of either set. -/
def union (s t : Kinds) : Kinds :=
  ⟨s.bits ||| t.bits⟩

/-- Whether a kind belongs to the set. -/
def contains (s : Kinds) (kind : Kind) : Bool :=
  s.bits.getLsbD kind.index

/-- The set of the listed kinds. -/
def ofList (kinds : List Kind) : Kinds :=
  kinds.foldr (fun kind => (single kind).union) empty

/-- The kinds of a set, in order. -/
def toList (s : Kinds) : List Kind :=
  Kind.all.filter s.contains

/-! ## Groups -/

/-- The dipole magnets. -/
def bends : Kinds :=
  ofList [.sbend, .rbend]

/-- The kickers of one plane. -/
def kickers : Kinds :=
  ofList [.hkicker, .vkicker]

/-- The beam monitors. -/
def monitors : Kinds :=
  ofList [.hmonitor, .vmonitor, .monitor, .instrument]

/-- The collimators. -/
def collimators : Kinds :=
  ofList [.ecollimator, .rcollimator]

/-- The rotations of the reference frame. -/
def rotations : Kinds :=
  ofList [.yrot, .srot]

/-- The kinds without a length. -/
def thin : Kinds :=
  ofList [.marker, .yrot, .srot, .beambeam, .matrix, .lump]

/-- The set with the given name: a group, or one kind by its keyword. -/
def named? (name : String) : Option Kinds :=
  match name with
  | "BENDS" => some bends
  | "KICKERS" => some kickers
  | "MONITORS" => some monitors
  | "COLLIMATORS" => some collimators
  | "ROTATIONS" => some rotations
  | "THIN" => some thin
  | _ => (Kind.all.find? fun kind => kind.keyword = name).map single

/-! ## Membership -/

theorem contains_empty (kind : Kind) : empty.contains kind = false := by
  simp [empty, contains]

theorem contains_single (a b : Kind) : (single a).contains b = decide (a = b) := by
  simp [single, contains, Kind.index_lt, Kind.index_inj, eq_comm]

theorem contains_union (s t : Kinds) (kind : Kind) :
    (s.union t).contains kind = (s.contains kind || t.contains kind) := by
  simp [union, contains]

theorem contains_ofList (kinds : List Kind) (kind : Kind) :
    (ofList kinds).contains kind = decide (kind ∈ kinds) := by
  induction kinds with
  | nil => simp [ofList, contains_empty]
  | cons head tail ih =>
    rw [ofList] at ih ⊢
    rw [List.foldr_cons, contains_union, ih, contains_single]
    simp [eq_comm]

end Kinds

end Beamline.Element
