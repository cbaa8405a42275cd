/-!
# Tuning

The thresholds of a set, as machine words. `Tuning.adjust` changes one of them, either checked,
where a threshold that makes no sense at zero is raised to one, or unchecked, where any word goes.
`Tuning.scanThreshold?` is the length above which a list of retired nodes is scanned: it is `none`
where the product of the scan factor and the number of participants does not fit a word.
-/

namespace MarkedChain

/-- The thresholds of a set. -/
structure Tuning where
  /-- Retired nodes are scanned once there are more than this many for each participant. -/
  scanFactor : UInt64 := 2
  /-- Retired nodes are not scanned while there are at most this many. -/
  scanFloor : UInt64 := 16
  /-- A participant tries to collect after it has retired this many nodes. -/
  collectEvery : UInt64 := 64
  /-- A lane keeps up to this many freed nodes for reuse. -/
  poolCapacity : UInt64 := 64
  /-- At most this many handles are registered at once, if there is a limit. -/
  handleLimit : Option UInt64 := none
  deriving DecidableEq, Repr

namespace Tuning

/-- A value for one of the thresholds. -/
inductive Setting where
  | scanFactor (n : UInt64)
  | scanFloor (n : UInt64)
  | collectEvery (n : UInt64)
  | poolCapacity (n : UInt64)
  | handleLimit (limit : Option UInt64)
  deriving DecidableEq, Repr

/-- Raises to one what makes no sense at zero. -/
def Setting.atLeastOne : Setting → Setting
  | .scanFactor n => .scanFactor (max n 1)
  | .collectEvery n => .collectEvery (max n 1)
  | s => s

/-- Gives one threshold a value as it is. -/
def assign (t : Tuning) : Setting → Tuning
  | .scanFactor n => { t with scanFactor := n }
  | .scanFloor n => { t with scanFloor := n }
  | .collectEvery n => { t with collectEvery := n }
  | .poolCapacity n => { t with poolCapacity := n }
  | .handleLimit limit => { t with handleLimit := limit }

/-- A change of one threshold, checked or not. -/
structure Adjustment where
  setting : Setting
  checked : Bool
  deriving DecidableEq, Repr

/-- Makes one change. -/
def adjust (t : Tuning) (a : Adjustment) : Tuning :=
  t.assign (if a.checked then a.setting.atLeastOne else a.setting)

/-- Makes changes in order. -/
def adjustAll (t : Tuning) (as : List Adjustment) : Tuning :=
  as.foldl adjust t

/-- The thresholds at the start and after each change. -/
def history (t : Tuning) : List Adjustment → List Tuning
  | [] => [t]
  | a :: as => t :: (t.adjust a).history as

/-- The length above which a list of retired nodes is scanned, for a number of participants. -/
def scanThreshold? (factor floor : UInt64) (participants : Nat) : Option Nat :=
  if factor.toNat * participants < UInt64.size then
    some (max (factor.toNat * participants) floor.toNat)
  else none

/-- An optional limit as text. -/
def describeLimit : Option UInt64 → String
  | none => "None"
  | some n => s!"Some({n})"

/-- All thresholds as text. -/
def describe (t : Tuning) : String :=
  s!"SetConfig \x7b scan_factor: {t.scanFactor}, min_scan_threshold: {t.scanFloor}, "
    ++ s!"collect_threshold: {t.collectEvery}, pool_capacity: {t.poolCapacity}, "
    ++ s!"max_participants: {describeLimit t.handleLimit} \x7d"

end Tuning

end MarkedChain
