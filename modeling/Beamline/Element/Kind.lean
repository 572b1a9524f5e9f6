import Beamline.Text.Spelling

/-!
# Kinds of elements

The closed set of element kinds, the keyword of each, and its catalog: the attributes that an
element of the kind can have, in a fixed order. The length, where a kind has one, comes first. A
matrix has no attributes by keyword; its entries are addressed by index. Angles are in radians.

* `ofKeyword?_keyword`: the keyword of a kind spells that kind.
-/

namespace Beamline

/-- Half a turn: the double nearest to the ratio of a circle's circumference to its diameter. -/
def Angle.halfTurn : Float :=
  3.141592653589793

namespace Element

/-- What an element is. -/
inductive Kind where
  | marker
  | drift
  | sbend
  | rbend
  | quadrupole
  | sextupole
  | octupole
  | multipole
  | solenoid
  | hkicker
  | vkicker
  | kicker
  | rfcavity
  | elseparator
  | hmonitor
  | vmonitor
  | monitor
  | instrument
  | ecollimator
  | rcollimator
  | yrot
  | srot
  | beambeam
  | matrix
  | lump
  deriving DecidableEq

namespace Kind

/-- All kinds, in the order of their numbers. -/
def all : List Kind :=
  [.marker, .drift, .sbend, .rbend, .quadrupole, .sextupole, .octupole, .multipole, .solenoid,
    .hkicker, .vkicker, .kicker, .rfcavity, .elseparator, .hmonitor, .vmonitor, .monitor,
    .instrument, .ecollimator, .rcollimator, .yrot, .srot, .beambeam, .matrix, .lump]

theorem mem_all (kind : Kind) : kind ∈ all := by
  cases kind <;> decide

/-- The number of a kind. -/
def index (kind : Kind) : Nat :=
  all.idxOf kind

theorem index_lt (kind : Kind) : kind.index < 25 :=
  List.idxOf_lt_length_of_mem (mem_all kind)

theorem getElem?_all_index (kind : Kind) : all[kind.index]? = some kind := by
  cases kind <;> rfl

theorem index_inj {a b : Kind} : a.index = b.index ↔ a = b := by
  refine ⟨fun h => ?_, congrArg index⟩
  have := getElem?_all_index b
  rw [← h, getElem?_all_index, Option.some.injEq] at this
  exact this

/-- The word that declares an element of the kind. -/
def keyword : Kind → String
  | .marker => "MARKER"
  | .drift => "DRIFT"
  | .sbend => "SBEND"
  | .rbend => "RBEND"
  | .quadrupole => "QUADRUPOLE"
  | .sextupole => "SEXTUPOLE"
  | .octupole => "OCTUPOLE"
  | .multipole => "MULTIPOLE"
  | .solenoid => "SOLENOID"
  | .hkicker => "HKICKER"
  | .vkicker => "VKICKER"
  | .kicker => "KICKER"
  | .rfcavity => "RFCAVITY"
  | .elseparator => "ELSEPARATOR"
  | .hmonitor => "HMONITOR"
  | .vmonitor => "VMONITOR"
  | .monitor => "MONITOR"
  | .instrument => "INSTRUMENT"
  | .ecollimator => "ECOLLIMATOR"
  | .rcollimator => "RCOLLIMATOR"
  | .yrot => "YROT"
  | .srot => "SROT"
  | .beambeam => "BEAMBEAM"
  | .matrix => "MATRIX"
  | .lump => "LUMP"

/-- The kind that `word` spells. -/
def ofKeyword? (word : String) : Option Kind :=
  all.find? fun kind => kind.keyword = Text.normalize word

/-- The keyword of a kind spells that kind. -/
@[simp]
theorem ofKeyword?_keyword (kind : Kind) : ofKeyword? kind.keyword = some kind := by
  cases kind <;> decide +kernel

/-! ## Attributes -/

/-- The attributes of a multipole: the strength and the tilt of each order. -/
def multipoleCatalog : List String :=
  ["LRAD", "K0L", "T0", "K1L", "T1", "K2L", "T2", "K3L", "T3", "K4L", "T4", "K5L", "T5", "K6L",
    "T6", "K7L", "T7", "K8L", "T8", "K9L", "T9"]

/-- The keywords of the attributes of a kind, in order. -/
def catalog : Kind → List String
  | .marker | .matrix => []
  | .drift | .hmonitor | .vmonitor | .monitor | .instrument => ["L"]
  | .sbend | .rbend =>
    ["L", "ANGLE", "K1", "E1", "E2", "TILT", "K2", "H1", "H2", "HGAP", "FINT", "K3"]
  | .quadrupole => ["L", "K1", "TILT"]
  | .sextupole => ["L", "K2", "TILT"]
  | .octupole => ["L", "K3", "TILT"]
  | .multipole => multipoleCatalog
  | .solenoid => ["L", "KS"]
  | .hkicker | .vkicker => ["L", "KICK", "TILT"]
  | .kicker => ["L", "HKICK", "VKICK", "TILT"]
  | .rfcavity => ["L", "VOLT", "LAG", "HARMON", "BETRF", "PG", "SHUNT", "TFILL"]
  | .elseparator => ["L", "E", "TILT"]
  | .ecollimator | .rcollimator => ["L", "XSIZE", "YSIZE"]
  | .yrot | .srot => ["ANGLE"]
  | .beambeam => ["SIGX", "SIGY", "XMA", "YMA", "CHARGE"]
  | .lump => ["ORDER"]

/-- The place of an attribute in the catalog of a kind. -/
def slotIndex? (kind : Kind) (key : String) : Option (Fin kind.catalog.length) :=
  kind.catalog.findFinIdx? fun slot => slot = Text.normalize key

/-- Whether elements of the kind have a length. -/
def hasLength : Kind → Bool
  | .marker | .yrot | .srot | .beambeam | .matrix | .lump => false
  | _ => true

/-- The keyword of the length, for kinds that have one. -/
def lengthKeyword? (kind : Kind) : Option String :=
  if kind.hasLength then kind.catalog.head? else none

/-! ## Defaults -/

/-- The order of the multipole tilt `T0` to `T9`, from its normal form. -/
def tiltOrder? (key : String) : Option Nat :=
  match key.toList with
  | ['T', digit] => if digit.isDigit then some (digit.toNat - '0'.toNat) else none
  | _ => none

/-- How many of the tilts written without a value make a half turn, for the kinds other than a
multipole that have such a tilt. -/
def tiltsPerHalfTurn? : Kind → Option Float
  | .sbend | .rbend => some 2.0
  | .quadrupole => some 4.0
  | .sextupole => some 6.0
  | .octupole => some 8.0
  | _ => none

/-- The value of an attribute written without one. Only tilts have it: the angle that turns a
magnet with the symmetry of the kind, or of the order, into its skew form. -/
def flagDefault? (kind : Kind) (key : String) : Option Float :=
  let key := Text.normalize key
  if kind = .multipole then
    (tiltOrder? key).map fun order => Angle.halfTurn / Float.ofNat (2 * (order + 1))
  else if key = "TILT" then
    kind.tiltsPerHalfTurn?.map fun count => Angle.halfTurn / count
  else
    none

end Kind

end Element

end Beamline
