import AndroidKernel.BusHw.Names
import AndroidKernel.Lib.Refine

/-!
The power rails of the MT6326: `hwPowerOn` and `hwPowerDown`.

A power id counts its power-ups and records who made them in three buffers; the count goes
down only when the name of the caller is found there. A fourth power-up is counted but not
recorded, so giving it back is ignored and the rail stays on; and the ids `VGP` and `VSIM2`
have a count each for one regulator, which is switched off when either count reaches zero.
`rails_follow_holders` says that a rail is on exactly while someone holds it in every run in
which a power-up of an id with a regulator finds an unused buffer and the other id of that
regulator is not held.
-/

namespace AndroidKernel.BusHw

open Lib Multiset BitVec
open Function (update update_self update_of_ne)

/-- `MT6516_POWER`. -/
inductive Power where
  | vrf | vtcxo | v3gtx | v3grx | vcamA | vwifi3v3 | vwifi2v8 | vsim | vusb | vbt | vcamD | vgp
  | vgp2 | vsdio | vcore2 | vsim2
deriving DecidableEq, Repr

/-- `MT6516_POWER_VOLTAGE`; the numbers are millivolts. -/
inductive Voltage where
  | default
  | v0800 | v0850 | v0900 | v0950 | v1000 | v1050 | v1100 | v1150 | v1200 | v1250 | v1300 | v1350
  | v1400 | v1450 | v1500 | v1550 | v1800 | v2500 | v2800 | v3000 | v3300
deriving DecidableEq, Repr

/-- The regulators that the code switches. -/
inductive Regulator where
  | v3gtx | v3grx | vcamA | vwifi3v3 | vwifi2v8 | vsim | vusb | vbt | vcamD | vgp | vgp2 | vsdio
  | vcore2
deriving DecidableEq, Repr

/-- The regulator of the `case` of a power id; those of `VRF` and `VTCXO` are commented out. -/
def Power.regulator : Power → Option Regulator
  | .vrf | .vtcxo => none
  | .v3gtx => some .v3gtx
  | .v3grx => some .v3grx
  | .vcamA => some .vcamA
  | .vwifi3v3 => some .vwifi3v3
  | .vwifi2v8 => some .vwifi2v8
  | .vsim => some .vsim
  | .vusb => some .vusb
  | .vbt => some .vbt
  | .vcamD => some .vcamD
  | .vgp | .vsim2 => some .vgp
  | .vgp2 => some .vgp2
  | .vsdio => some .vsdio
  | .vcore2 => some .vcore2

/-- The voltages with a `case` of their own. -/
def Regulator.settings : Regulator → List Voltage
  | .v3gtx | .v3grx | .vwifi3v3 | .vwifi2v8 => [.v2500, .v2800, .v3000, .v3300]
  | .vcamA => [.v1500, .v1800, .v2500, .v2800]
  | .vsim | .vbt | .vcamD | .vgp | .vgp2 =>
    [.v1300, .v1500, .v1800, .v2500, .v2800, .v3000, .v3300]
  | .vusb => []
  | .vsdio => [.v2800, .v3000]
  | .vcore2 => [.v0800, .v0850, .v0900, .v0950, .v1000, .v1050, .v1100, .v1150, .v1200, .v1250,
      .v1300, .v1350, .v1400, .v1450, .v1500, .v1550]

/-- The voltage of the `default` case. -/
def Regulator.fallback : Regulator → Option Voltage
  | .vcamA => some .v2800
  | .vwifi3v3 => some .v2500
  | .v3gtx | .v3grx | .vwifi2v8 | .vsim | .vbt | .vcamD | .vgp | .vgp2 => some .v3300
  | .vusb => none
  | .vsdio => some .v3000
  | .vcore2 => some .v1300

/-- `DEVICE_POWER`. -/
structure DevicePower where
  dwPowerCount : BitVec 32
  modName : Slots
deriving DecidableEq

structure Rail where
  enabled : Bool
  voltage : Option Voltage
deriving DecidableEq

/-- The power ids of `g_MT6516_BusHW` and the regulators of the chip. -/
structure Rails where
  power : Power → DevicePower
  rail : Regulator → Rail

def Regulator.select (r : Regulator) (powervol : Voltage) (old : Rail) : Option Voltage :=
  if powervol ∈ r.settings then some powervol
  else
    match r.fallback with
    | some voltage => some voltage
    | none => old.voltage

/-- The voltage is set before the regulator is enabled. -/
def Rails.enable (hw : Rails) (r : Regulator) (powervol : Voltage) : Rails :=
  { hw with rail := Function.update hw.rail r ⟨true, r.select powervol (hw.rail r)⟩ }

def Rails.disable (hw : Rails) (r : Regulator) : Rails :=
  { hw with rail := Function.update hw.rail r { hw.rail r with enabled := false } }

def hwPowerOn (powerId : Power) (powervol : Voltage) (modeName : ModName) (hw : Rails) : Rails :=
  let entry := hw.power powerId
  let count := entry.dwPowerCount + 1
  let hw := { hw with
    power := Function.update hw.power powerId ⟨count, acquireSlot modeName entry.modName⟩ }
  if 1 < count then hw
  else
    match powerId.regulator with
    | some r => hw.enable r powervol
    | none => hw

/-- Answers `FALSE` when the id is not on. -/
def hwPowerDown (powerId : Power) (modeName : ModName) (hw : Rails) : Bool × Rails :=
  let entry := hw.power powerId
  if entry.dwPowerCount = 0 then (false, hw)
  else if (releaseSlot modeName entry.modName).1 then
    let count := entry.dwPowerCount - 1
    let hw := { hw with
      power := Function.update hw.power powerId ⟨count, (releaseSlot modeName entry.modName).2⟩ }
    if 0 < count then (true, hw)
    else
      match powerId.regulator with
      | some r => (true, hw.disable r)
      | none => (true, hw)
  else (true, hw)

/-! ### Runs -/

inductive Request where
  | on (powerId : Power) (powervol : Voltage) (modeName : ModName)
  | down (powerId : Power) (modeName : ModName)
deriving DecidableEq

/-- The outstanding power-ups are kept beside the tables. -/
structure PowerSystem where
  hw : Rails
  holders : Power → Multiset ModName

def powerStep : Request → PowerSystem → Bool × PowerSystem
  | .on powerId powervol modeName, sys =>
    (true, ⟨hwPowerOn powerId powervol modeName sys.hw,
      Function.update sys.holders powerId (modeName ::ₘ sys.holders powerId)⟩)
  | .down powerId modeName, sys =>
    ((hwPowerDown powerId modeName sys.hw).1, ⟨(hwPowerDown powerId modeName sys.hw).2,
      Function.update sys.holders powerId ((sys.holders powerId).erase modeName)⟩)

/-- No user powers down more often than it powered up. -/
def Request.balanced (sys : PowerSystem) : Request → Prop
  | .on .. => True
  | .down powerId modeName => modeName ∈ sys.holders powerId

/-- A power-up of an id that switches a regulator finds an unused buffer, and no other id of the
regulator is held. -/
def Request.roomy (sys : PowerSystem) : Request → Prop
  | .on powerId _ _ => powerId.regulator ≠ none → (sys.holders powerId).card < maxDevice ∧
      ∀ other ∈ [Power.vgp, Power.vsim2], other ≠ powerId → other.regulator = powerId.regulator →
        sys.holders other = 0
  | .down .. => True

instance decidableBalanced (sys : PowerSystem) (request : Request) :
    Decidable (request.balanced sys) :=
  match request with
  | .on .. => inferInstanceAs (Decidable True)
  | .down powerId modeName => inferInstanceAs (Decidable (modeName ∈ sys.holders powerId))

instance decidableRoomy (sys : PowerSystem) (request : Request) : Decidable (request.roomy sys) :=
  match request with
  | .on powerId _ _ => inferInstanceAs (Decidable (powerId.regulator ≠ none →
      (sys.holders powerId).card < maxDevice ∧ ∀ other ∈ [Power.vgp, Power.vsim2],
        other ≠ powerId → other.regulator = powerId.regulator → sys.holders other = 0))
  | .down .. => inferInstanceAs (Decidable True)

/-- The power ids that drive a regulator. -/
def Regulator.drivers : Regulator → List Power
  | .v3gtx => [.v3gtx]
  | .v3grx => [.v3grx]
  | .vcamA => [.vcamA]
  | .vwifi3v3 => [.vwifi3v3]
  | .vwifi2v8 => [.vwifi2v8]
  | .vsim => [.vsim]
  | .vusb => [.vusb]
  | .vbt => [.vbt]
  | .vcamD => [.vcamD]
  | .vgp => [.vgp, .vsim2]
  | .vgp2 => [.vgp2]
  | .vsdio => [.vsdio]
  | .vcore2 => [.vcore2]

/-- The number of outstanding power-ups of the ids that drive a regulator. -/
def PowerSystem.outstanding (sys : PowerSystem) (r : Regulator) : Nat :=
  (r.drivers.map fun powerId => (sys.holders powerId).card).sum

theorem mem_drivers {r : Regulator} {powerId : Power} :
    powerId ∈ r.drivers ↔ powerId.regulator = some r := by
  cases r <;> cases powerId <;> decide

/-- All counts are zero, all buffers unused. -/
def Rails.Fresh (hw : Rails) : Prop := ∀ powerId, hw.power powerId = ⟨0, unused⟩

def Rails.Off (hw : Rails) : Prop := ∀ r, (hw.rail r).enabled = false

def PowerSystem.start (hw : Rails) : PowerSystem := ⟨hw, fun _ => 0⟩

structure PowerHolds (sys : PowerSystem) : Prop where
  recorded : ∀ powerId, powerId.regulator ≠ none →
    Recorded (sys.hw.power powerId).modName (sys.holders powerId)
  counted : ∀ powerId, powerId.regulator ≠ none →
    (sys.hw.power powerId).dwPowerCount.toNat = (sys.holders powerId).card
  /-- Of the ids of one regulator only one is held. -/
  alone : ∀ powerId other, powerId.regulator ≠ none → other.regulator = powerId.regulator →
    sys.holders powerId ≠ 0 → sys.holders other ≠ 0 → other = powerId
  enabled : ∀ r, (sys.hw.rail r).enabled = true ↔ ∃ powerId ∈ r.drivers, sys.holders powerId ≠ 0

section Steps

variable {sys : PowerSystem} {powerId : Power} {modeName : ModName} {hw : Rails}

theorem PowerHolds.start (fresh : hw.Fresh) (off : hw.Off) : PowerHolds (.start hw) := by
  refine ⟨fun powerId _ => ?_, fun powerId _ => ?_, fun powerId other _ _ held => absurd rfl held,
    fun r => ?_⟩
  · rw [PowerSystem.start, fresh]
    exact recorded_unused
  · rw [PowerSystem.start, fresh]
    rfl
  · rw [PowerSystem.start, off r]
    simp

/-- The ids that share a regulator are `VGP` and `VSIM2`. -/
theorem sibling {other : Power} (differs : other ≠ powerId) (switched : powerId.regulator ≠ none)
    (shared : other.regulator = powerId.regulator) : other ∈ [Power.vgp, Power.vsim2] := by
  revert differs switched shared
  cases powerId <;> cases other <;> decide

theorem Rails.enable_enabled (hw : Rails) (r r' : Regulator) (powervol : Voltage) :
    ((hw.enable r powervol).rail r').enabled = true ↔ r = r' ∨ (hw.rail r').enabled = true := by
  by_cases same : r' = r
  · simp [Rails.enable, same]
  · simp [Rails.enable, same, Ne.symm same]

theorem Rails.disable_enabled (hw : Rails) (r r' : Regulator) :
    ((hw.disable r).rail r').enabled = true ↔ ¬r = r' ∧ (hw.rail r').enabled = true := by
  by_cases same : r' = r
  · simp [Rails.disable, same]
  · simp [Rails.disable, same, Ne.symm same]

theorem hwPowerOn_power (powerId : Power) (powervol : Voltage) (modeName : ModName) (hw : Rails) :
    (hwPowerOn powerId powervol modeName hw).power = update hw.power powerId
      ⟨(hw.power powerId).dwPowerCount + 1, acquireSlot modeName (hw.power powerId).modName⟩ := by
  unfold hwPowerOn
  dsimp only
  split
  · rfl
  · split <;> rfl

theorem hwPowerOn_enabled (powerId : Power) (powervol : Voltage) (modeName : ModName) (hw : Rails)
    (r : Regulator) : ((hwPowerOn powerId powervol modeName hw).rail r).enabled = true ↔
      (¬1 < (hw.power powerId).dwPowerCount + 1 ∧ powerId.regulator = some r) ∨
        (hw.rail r).enabled = true := by
  unfold hwPowerOn
  dsimp only
  split
  · rename_i more
    exact (or_iff_right fun first => first.1 more).symm
  rename_i first
  simp only [first, not_false_eq_true, true_and]
  split
  · rename_i r' drives
    rw [drives, Option.some.injEq, Rails.enable_enabled]
  · rename_i none
    simp [none]

/-- A power-down whose name is found. -/
theorem hwPowerDown_power
    (on : (hw.power powerId).dwPowerCount ≠ 0) (found : modeName ∈ (hw.power powerId).modName) :
    (hwPowerDown powerId modeName hw).2.power = update hw.power powerId
      ⟨(hw.power powerId).dwPowerCount - 1,
        (releaseSlot modeName (hw.power powerId).modName).2⟩ := by
  unfold hwPowerDown
  dsimp only
  rw [if_neg on, releaseSlot_found, if_pos (decide_eq_true found)]
  split
  · rfl
  · split <;> rfl

theorem hwPowerDown_enabled
    (on : (hw.power powerId).dwPowerCount ≠ 0) (found : modeName ∈ (hw.power powerId).modName)
    (r : Regulator) : ((hwPowerDown powerId modeName hw).2.rail r).enabled = true ↔
      ¬(¬0 < (hw.power powerId).dwPowerCount - 1 ∧ powerId.regulator = some r) ∧
        (hw.rail r).enabled = true := by
  unfold hwPowerDown
  dsimp only
  rw [if_neg on, releaseSlot_found, if_pos (decide_eq_true found)]
  split
  · rename_i more
    exact (and_iff_right fun last => last.1 more).symm
  rename_i last
  simp only [last, not_false_eq_true, true_and]
  split
  · rename_i r' drives
    rw [drives, Option.some.injEq, Rails.disable_enabled]
  · rename_i none
    simp [none]

section

variable (holds : PowerHolds sys)
include holds

/-- An id without a regulator does not matter. -/
theorem PowerHolds.aside {sys' : PowerSystem} (aside : powerId.regulator = none)
    (power : ∀ id, id ≠ powerId → sys'.hw.power id = sys.hw.power id)
    (rail : sys'.hw.rail = sys.hw.rail)
    (holders : ∀ id, id ≠ powerId → sys'.holders id = sys.holders id) : PowerHolds sys' := by
  have differs {id : Power} (switched : id.regulator ≠ none) : id ≠ powerId := by
    rintro rfl
    exact switched aside
  refine ⟨fun id switched => ?_, fun id switched => ?_, fun id other switched shared => ?_,
    fun r => ?_⟩
  · rw [power id (differs switched), holders id (differs switched)]
    exact holds.recorded id switched
  · rw [power id (differs switched), holders id (differs switched)]
    exact holds.counted id switched
  · rw [holders id (differs switched), holders other (differs (shared ▸ switched))]
    exact holds.alone id other switched shared
  · rw [rail, holds.enabled]
    refine exists_congr fun id => and_congr_right fun drives => ?_
    rw [holders id (differs (mem_drivers.mp drives ▸ Option.some_ne_none r))]

theorem PowerHolds.on_aside {powervol : Voltage} (aside : powerId.regulator = none) :
    PowerHolds (powerStep (.on powerId powervol modeName) sys).2 := by
  refine holds.aside aside (fun id differs => ?_) ?_ fun id differs => update_of_ne differs ..
  · simp only [powerStep, hwPowerOn_power]
    exact update_of_ne differs ..
  · simp only [powerStep, hwPowerOn, aside, ite_self]

theorem PowerHolds.down_aside (aside : powerId.regulator = none) :
    PowerHolds (powerStep (.down powerId modeName) sys).2 := by
  refine holds.aside aside (fun id differs => ?_) ?_ fun id differs => update_of_ne differs ..
  · simp only [powerStep, hwPowerDown, aside, ite_self]
    split_ifs
    · rfl
    · exact update_of_ne differs ..
    · rfl
  · simp only [powerStep, hwPowerDown, aside, ite_self]
    split_ifs <;> rfl

theorem PowerHolds.on {powervol : Voltage}
    (roomy : Request.roomy sys (.on powerId powervol modeName)) :
    PowerHolds (powerStep (.on powerId powervol modeName) sys).2 := by
  by_cases aside : powerId.regulator = none
  · exact holds.on_aside aside
  obtain ⟨room, single⟩ := roomy aside
  have counted := holds.counted powerId aside
  have grown : ((sys.hw.power powerId).dwPowerCount + 1).toNat =
      (sys.holders powerId).card + 1 := by
    rw [maxDevice] at room
    rw [toNat_add, counted]
    simp only [reduceToNat]
    exact Nat.mod_eq_of_lt (by omega)
  refine ⟨fun id switched => ?_, fun id switched => ?_,
    fun id other switched shared held held' => ?_, fun r => ?_⟩
  · simp only [powerStep, hwPowerOn_power]
    by_cases same : id = powerId
    · rw [same, update_self, update_self]
      exact (holds.recorded powerId aside).acquire room
    · rw [update_of_ne same, update_of_ne same]
      exact holds.recorded id switched
  · simp only [powerStep, hwPowerOn_power]
    by_cases same : id = powerId
    · rw [same, update_self, update_self, card_cons]
      exact grown
    · rw [update_of_ne same, update_of_ne same]
      exact holds.counted id switched
  · simp only [powerStep] at held held'
    by_contra differs
    by_cases same : id = powerId
    · rw [update_of_ne (same ▸ differs)] at held'
      subst same
      exact held' (single other (sibling differs switched shared) differs shared)
    rw [update_of_ne same] at held
    by_cases same' : other = powerId
    · subst same'
      exact held (single id (sibling same (shared ▸ switched) shared.symm) same shared.symm)
    · rw [update_of_ne same'] at held'
      exact differs (holds.alone id other switched shared held held')
  · simp only [powerStep]
    rw [hwPowerOn_enabled, holds.enabled]
    constructor
    · rintro (⟨-, drives⟩ | ⟨id, drives, held⟩)
      · refine ⟨powerId, mem_drivers.mpr drives, ?_⟩
        rw [update_self]
        exact cons_ne_zero
      · refine ⟨id, drives, ?_⟩
        by_cases same : id = powerId
        · rw [same, update_self]
          exact cons_ne_zero
        · rwa [update_of_ne same]
    · rintro ⟨id, drives, held⟩
      by_cases same : id = powerId
      · subst same
        -- the first power-up switches the regulator, a later one finds it switched
        by_cases empty : sys.holders id = 0
        · left
          refine ⟨?_, mem_drivers.mp drives⟩
          rw [lt_def, grown, empty]
          decide
        · exact .inr ⟨id, drives, empty⟩
      · rw [update_of_ne same] at held
        exact .inr ⟨id, drives, held⟩

theorem PowerHolds.down (balanced : Request.balanced sys (.down powerId modeName)) :
    PowerHolds (powerStep (.down powerId modeName) sys).2 := by
  by_cases aside : powerId.regulator = none
  · exact holds.down_aside aside
  have held : modeName ∈ sys.holders powerId := balanced
  have counted := holds.counted powerId aside
  have few := (holds.recorded powerId aside).few
  have some : 0 < (sys.holders powerId).card := Multiset.card_pos_iff_exists_mem.mpr ⟨_, held⟩
  have on : (sys.hw.power powerId).dwPowerCount ≠ 0 := by
    intro zero
    rw [zero] at counted
    exact some.ne counted
  have found := (holds.recorded powerId aside).mem held
  have shrunk : ((sys.hw.power powerId).dwPowerCount - 1).toNat =
      ((sys.holders powerId).erase modeName).card := by
    grind [maxDevice, card_erase_of_mem, Nat.pred_eq_sub_one]
  refine ⟨fun id switched => ?_, fun id switched => ?_,
    fun id other switched shared holdsId holdsOther => ?_, fun r => ?_⟩
  · simp only [powerStep, hwPowerDown_power on found]
    by_cases same : id = powerId
    · rw [same, update_self, update_self]
      exact (holds.recorded powerId aside).release held
    · rw [update_of_ne same, update_of_ne same]
      exact holds.recorded id switched
  · simp only [powerStep, hwPowerDown_power on found]
    by_cases same : id = powerId
    · rw [same, update_self, update_self]
      exact shrunk
    · rw [update_of_ne same, update_of_ne same]
      exact holds.counted id switched
  · -- fewer power-ups are outstanding than before
    have before : ∀ id, update sys.holders powerId
        ((sys.holders powerId).erase modeName) id ≠ 0 → sys.holders id ≠ 0 := by
      grind
    exact holds.alone id other switched shared (before id holdsId) (before other holdsOther)
  simp only [powerStep]
  rw [hwPowerDown_enabled on found, holds.enabled]
  constructor
  · rintro ⟨kept, id, drives, heldId⟩
    refine ⟨id, drives, ?_⟩
    by_cases same : id = powerId
    · subst same
      rw [update_self]
      intro zero
      refine kept ⟨?_, mem_drivers.mp drives⟩
      rw [lt_def, shrunk, zero]
      decide
    · rwa [update_of_ne same]
  · rintro ⟨id, drives, heldId⟩
    by_cases same : id = powerId
    · grind [update_self, lt_def, Multiset.card_pos.mp, Multiset.card_pos.mpr]
    rw [update_of_ne same] at heldId
    refine ⟨fun last => same ?_, id, drives, heldId⟩
    have regulator := mem_drivers.mp drives
    refine holds.alone powerId id (last.2 ▸ Option.some_ne_none r) (regulator.trans last.2.symm)
      (Multiset.card_pos.mp some) heldId

theorem PowerHolds.run {requests : List Request}
    (admits : Admits powerStep (fun sys request => request.balanced sys ∧ request.roomy sys)
      requests sys) : PowerHolds (answers powerStep requests sys).2 := by
  refine admits.kept holds ?_
  rintro sys request holds ⟨balanced, roomy⟩
  cases request with
  | on powerId powervol modeName => exact holds.on roomy
  | down powerId modeName => exact holds.down balanced

theorem PowerHolds.follows (r : Regulator) :
    (sys.hw.rail r).enabled = true ↔ 0 < sys.outstanding r := by
  rw [holds.enabled, PowerSystem.outstanding, List.sum_pos_iff_exists_pos_nat]
  simp only [List.mem_map, exists_exists_and_eq_and, card_pos]

end

end Steps

/-- A rail is on exactly while someone holds it. -/
theorem rails_follow_holders (hw : Rails) (requests : List Request) (fresh : hw.Fresh)
    (off : hw.Off)
    (admits : Admits powerStep (fun sys request => request.balanced sys ∧ request.roomy sys)
      requests (.start hw)) (r : Regulator) :
    ((answers powerStep requests (.start hw)).2.hw.rail r).enabled = true ↔
      0 < (answers powerStep requests (.start hw)).2.outstanding r :=
  ((PowerHolds.start fresh off).run admits).follows r

/-- Nothing is on. -/
def quiet : Rails := ⟨fun _ => ⟨0, unused⟩, fun _ => ⟨false, none⟩⟩

/-- A user with a name of one letter. -/
def user (letter : BitVec 8) (text : letter ≠ 0) : ModName :=
  ⟨[letter], by simpa using text.symm, (by decide : 1 < 32)⟩

/-- Two users of the SIM rail, one after the other down. -/
def sharedSim : List Request :=
  [.on .vsim2 .v1800 (user 0x61 (by decide)), .on .vsim2 .v3000 (user 0x62 (by decide)),
    .down .vsim2 (user 0x61 (by decide))]

theorem rails_follow_holders_shared :
    ((answers powerStep sharedSim (.start quiet)).2.hw.rail .vgp).enabled = true ↔
      0 < (answers powerStep sharedSim (.start quiet)).2.outstanding .vgp :=
  rails_follow_holders quiet sharedSim (fun _ => rfl) (fun _ => rfl) (by decide +kernel) .vgp

/-- Four users of one rail: the fourth is not recorded, and when all have powered down the
rail is on. -/
def fourUsers : List Request :=
  [.on .vusb .default (user 0x61 (by decide)), .on .vusb .default (user 0x62 (by decide)),
    .on .vusb .default (user 0x63 (by decide)), .on .vusb .default (user 0x64 (by decide)),
    .down .vusb (user 0x64 (by decide)), .down .vusb (user 0x61 (by decide)),
    .down .vusb (user 0x62 (by decide)), .down .vusb (user 0x63 (by decide))]

/-- The second SIM goes off although it is held, because the general purpose rail is given
back. -/
def twoIds : List Request :=
  [.on .vgp .default (user 0x61 (by decide)), .on .vsim2 .v1800 (user 0x62 (by decide)),
    .down .vgp (user 0x61 (by decide))]

theorem rails_lose_track :
    (Admits powerStep (fun sys request => request.balanced sys) fourUsers (.start quiet) ∧
      ((answers powerStep fourUsers (.start quiet)).2.hw.rail .vusb).enabled = true ∧
      (answers powerStep fourUsers (.start quiet)).2.outstanding .vusb = 0) ∧
    (Admits powerStep (fun sys request => request.balanced sys) twoIds (.start quiet) ∧
      ((answers powerStep twoIds (.start quiet)).2.hw.rail .vgp).enabled = false ∧
      (answers powerStep twoIds (.start quiet)).2.outstanding .vgp = 1) := by
  decide +kernel

end AndroidKernel.BusHw
