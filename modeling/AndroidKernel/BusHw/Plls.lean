import AndroidKernel.BusHw.Clocks
import AndroidKernel.Lib.Refine

/-!
The PLLs follow the clocks that need them.

Every enabling of a clock counts up its PLL, but only the last disabling counts it down, and
of DPI and DSI only the one that is closed last: a PLL that has two users, or one user twice,
is never switched off again. In the runs in which the last disabling of a clock takes the count
of its PLL to zero exactly when no other clock of the PLL is in use, a PLL is counted exactly
while one of its clocks is (`plls_follow_clocks`).
-/

namespace AndroidKernel.BusHw

open Lib RootbusHw Function

variable {hw' : RootbusHw} {value : BitVec 32} {pllId : Pll}

/-! ### What is switched on -/

def Pll.enableReg : Pll → Reg × Nat
  | .upll => (.pdnCon, 4)
  | .dpll => (.pdnCon, 3)
  | .mpll => (.pdnCon, 2)
  | .cpll => (.cpll2, 0)
  | .tpll => (.tpll2, 0)
  | .cevapll => (.cevapll2, 0)
  | .mcpll => (.mcpll2, 0)
  | .mipi => (.mipitxCon, 0)

def RootbusHw.powered (hw : RootbusHw) (pllId : Pll) : Bool :=
  (hw.reg pllId.enableReg.1).getLsbD pllId.enableReg.2

theorem switchOn_powered (hw : RootbusHw) (pllId other : Pll) :
    (switchOn hw pllId).powered other = if other = pllId then true else hw.powered other := by
  cases pllId <;> cases other <;> simp [switchOn, powered, Pll.enableReg, setReg, clrReg]

theorem switchOff_powered (hw : RootbusHw) (pllId other : Pll) :
    (switchOff hw pllId).powered other = if other = pllId then false else hw.powered other := by
  cases pllId <;> cases other <;> simp [switchOff, powered, Pll.enableReg, setReg, clrReg]

theorem switchOn_tables (hw : RootbusHw) (pllId : Pll) :
    (switchOn hw pllId).device = hw.device ∧ (switchOn hw pllId).pll = hw.pll := by
  cases pllId <;> exact ⟨rfl, rfl⟩

theorem switchOff_tables (hw : RootbusHw) (pllId : Pll) :
    (switchOff hw pllId).device = hw.device ∧ (switchOff hw pllId).pll = hw.pll := by
  cases pllId <;> exact ⟨rfl, rfl⟩

/-! ### What does not matter to the PLLs -/

/-- The tables and the switches of the PLLs are the same. -/
structure SameUse (hw hw' : RootbusHw) : Prop where
  device : hw'.device = hw.device
  pll : hw'.pll = hw.pll
  powered : ∀ pllId, hw'.powered pllId = hw.powered pllId

/-- The registers that switch no PLL. -/
def Reg.aside : Reg → Bool
  | .sleepCon | .apmcusysPdnCon0 | .apmcusysPdnCon1 | .graph1sysCgCon | .graph2sysCgCon => true
  | _ => false

section Aside

variable {hw hw'' : RootbusHw} {r : Reg}

theorem SameUse.refl : SameUse hw hw := ⟨rfl, rfl, fun _ => rfl⟩

theorem SameUse.trans (first : SameUse hw hw') (second : SameUse hw' hw'') : SameUse hw hw'' :=
  ⟨second.device.trans first.device, second.pll.trans first.pll,
    fun pllId => (second.powered pllId).trans (first.powered pllId)⟩

theorem sameUse_status (status : BitVec 32) :
    SameUse hw { hw with dwSubSystemStatus := status } := ⟨rfl, rfl, fun _ => rfl⟩

section

variable (aside : r.aside = true)

include aside

theorem enableReg_ne (pllId : Pll) : pllId.enableReg.1 ≠ r := by
  cases pllId <;> rintro rfl <;> cases aside

theorem sameUse_update (word : BitVec 32) : SameUse hw { hw with reg := update hw.reg r word } := by
  refine ⟨rfl, rfl, fun pllId => ?_⟩
  simp only [powered, update_of_ne (enableReg_ne aside pllId)]

variable (mask : BitVec 32) (mode : Nat)

theorem sameUse_setReg : SameUse hw (hw.setReg r mask) :=
  sameUse_update aside _

theorem sameUse_clrReg : SameUse hw (hw.clrReg r mask) :=
  sameUse_update aside _

theorem sameUse_enablePDN : SameUse hw (hw.enablePDN r mode) :=
  sameUse_setReg aside _

theorem sameUse_disablePDN :
    SameUse hw (hw.disablePDN r mode) := sameUse_clrReg aside _

theorem sameUse_openGate : SameUse hw (openGate hw r mode) := by
  unfold openGate
  split
  · exact sameUse_disablePDN aside mode
  · exact .refl

theorem sameUse_closeGate : SameUse hw (closeGate hw r mode) := by
  unfold closeGate
  split
  · exact .refl
  · exact sameUse_enablePDN aside mode

end

variable (subsysId : Subsys) (clockId : Nat)

theorem sameUse_enableSubsys : SameUse hw (hwEnableSubsys subsysId hw) := by
  unfold hwEnableSubsys
  split
  · exact .refl
  cases subsysId with
  | graph1sys =>
    exact (sameUse_status _).trans ((sameUse_clrReg rfl _).trans (sameUse_disablePDN rfl _))
  | graph2sys =>
    have gmc := ((@sameUse_status hw (hw.dwSubSystemStatus ||| Subsys.graph2sys.bit)).trans
      (sameUse_clrReg (r := .graph2sysCgCon) rfl 1)).trans
        (sameUse_enablePDN (r := .graph2sysCgCon) rfl 0)
    have codec := (gmc.trans (sameUse_disablePDN (r := .graph2sysCgCon) rfl 7)).trans
      (sameUse_enablePDN (r := .graph2sysCgCon) rfl 7)
    exact (codec.trans (sameUse_disablePDN rfl 0)).trans (sameUse_enablePDN rfl 8)
  | cevasys => exact sameUse_status _

theorem sameUse_disableSubsys : SameUse hw (hwDisableSubsys subsysId hw) := by
  cases subsysId with
  | graph1sys | graph2sys => exact (sameUse_status _).trans (sameUse_setReg rfl _)
  | cevasys => exact sameUse_status _

theorem sameUse_powerUp : SameUse hw (powerUp clockId hw) := by
  unfold powerUp
  split
  · exact sameUse_enableSubsys _
  · exact sameUse_enableSubsys _
  · split
    · exact (sameUse_clrReg rfl _).trans (sameUse_enableSubsys _)
    · exact sameUse_clrReg rfl _
  · exact .refl

theorem sameUse_openClock : SameUse hw (openClock clockId hw) := by
  unfold openClock
  split
  · exact sameUse_openGate rfl _
  · exact sameUse_openGate rfl _
  · exact sameUse_openGate rfl _
  · exact sameUse_openGate rfl _
  · exact sameUse_clrReg rfl _
  · exact .refl

theorem sameUse_closeClock : SameUse hw (closeClock clockId hw) := by
  unfold closeClock
  split
  · exact sameUse_closeGate rfl _
  · exact sameUse_closeGate rfl _
  · split
    · exact .refl
    · exact sameUse_closeGate rfl _
  · dsimp only
    split
    · exact (sameUse_closeGate rfl _).trans (sameUse_disableSubsys _)
    · exact sameUse_closeGate rfl _
  · exact .refl

theorem sameUse_powerDown : SameUse hw (powerDown clockId hw) := by
  unfold powerDown
  split
  · exact (sameUse_setReg rfl _).trans ((sameUse_setReg rfl _).trans (sameUse_disableSubsys _))
  · exact .refl

end Aside

/-! ### What a call does to the tables -/

section Calls

variable {hw : RootbusHw} {clockId : Nat} {modeName : ModName}

/-- The entry of a clock with a new count. -/
def DevicePowerid.recount (entry : DevicePowerid) (count : BitVec 32) (names : Slots) :
    DevicePowerid :=
  { entry with dwClockCount := count, modName := names }

def RootbusHw.recount (hw : RootbusHw) (clockId : Nat) (count : BitVec 32) (names : Slots) :
    RootbusHw :=
  { hw with device := update hw.device clockId ((hw.device clockId).recount count names) }

variable (count : BitVec 32) (names : Slots)

theorem recount_device :
    (hw.recount clockId count names).device clockId =
      (hw.device clockId).recount count names := update_self ..

/-- The count of a PLL becomes `value`, and the PLL is on if that is positive. -/
structure Turned (hw : RootbusHw) (pllId : Pll) (value : BitVec 32) (hw' : RootbusHw) : Prop where
  device : hw'.device = hw.device
  pll : ∀ other, (hw'.pll other).dwPllCount =
    if other = pllId then value else (hw.pll other).dwPllCount
  powered : ∀ other, hw'.powered other =
    if other = pllId then decide (0 < value) else hw.powered other

theorem pllCount_update (entry : DevicePllid) (other : Pll) :
    (update hw.pll pllId entry other).dwPllCount =
      if other = pllId then entry.dwPllCount else (hw.pll other).dwPllCount := by
  by_cases same : other = pllId
  · rw [same, update_self, if_pos rfl]
  · rw [update_of_ne same, if_neg same]

/-- A counted PLL is on. -/
def RootbusHw.On (hw : RootbusHw) (pllId : Pll) : Prop :=
  0 < (hw.pll pllId).dwPllCount → hw.powered pllId = true

theorem SameUse.on (same : SameUse hw hw') (isOn : hw.On pllId) : hw'.On pllId := by
  unfold RootbusHw.On
  rw [same.pll, same.powered]
  exact isOn

theorem Turned.refl (isOn : hw.On pllId) (counted : 0 < (hw.pll pllId).dwPllCount) :
    Turned hw pllId (hw.pll pllId).dwPllCount hw := by
  refine ⟨rfl, fun other => ?_, fun other => ?_⟩
  · split
    case isTrue same => rw [same]
    case isFalse => rfl
  · split
    case isTrue same => rw [same, isOn counted, decide_eq_true counted]
    case isFalse => rfl

theorem hwEnablePLL_turned (isOn : hw.On pllId) (roomy : (hw.pll pllId).dwPllCount + 1 ≠ 0)
    (name : ModName) :
    Turned hw pllId ((hw.pll pllId).dwPllCount + 1) (hwEnablePLL pllId name hw) := by
  have positive : 0 < (hw.pll pllId).dwPllCount + 1 := by bv_omega
  simp only [hwEnablePLL]
  split
  case isTrue again =>
    refine ⟨rfl, pllCount_update _, fun other => ?_⟩
    split
    case isTrue same =>
      rw [same, decide_eq_true positive]
      exact isOn (by bv_omega)
    case isFalse => rfl
  case isFalse =>
    refine ⟨(switchOn_tables ..).1, fun other => ?_, fun other => ?_⟩
    · rw [(switchOn_tables ..).2, pllCount_update]
    · rw [switchOn_powered, decide_eq_true positive]
      rfl

theorem hwDisablePLL_turned (isOn : hw.On pllId) (counted : 0 < (hw.pll pllId).dwPllCount)
    (name : ModName) :
    Turned hw pllId ((hw.pll pllId).dwPllCount - 1) (hwDisablePLL pllId false name hw) := by
  simp only [hwDisablePLL, Bool.false_eq_true, if_false]
  rw [if_neg (by bv_omega)]
  split
  case isTrue more =>
    refine ⟨rfl, pllCount_update _, fun other => ?_⟩
    split
    case isTrue same =>
      rw [same, decide_eq_true more]
      exact isOn counted
    case isFalse => rfl
  case isFalse last =>
    refine ⟨(switchOff_tables ..).1, fun other => ?_, fun other => ?_⟩
    · rw [(switchOff_tables ..).2, pllCount_update]
    · rw [switchOff_powered, decide_eq_false last]
      rfl

/-- A clock without a PLL changes its own entry only. -/
structure OwnEntry (hw : RootbusHw) (clockId : Nat) (hw' : RootbusHw) : Prop where
  others : ∀ other ≠ clockId, hw'.device other = hw.device other
  clockid : (hw'.device clockId).clockid = (hw.device clockId).clockid
  pll : hw'.pll = hw.pll
  powered : ∀ pllId, hw'.powered pllId = hw.powered pllId

theorem ownEntry_recount : OwnEntry hw clockId (hw.recount clockId count names) := by
  refine ⟨fun other differs => update_of_ne differs .., ?_, rfl, fun _ => rfl⟩
  rw [recount_device, DevicePowerid.recount]

theorem OwnEntry.aside {hw'' : RootbusHw} (own : OwnEntry hw clockId hw')
    (same : SameUse hw' hw'') : OwnEntry hw clockId hw'' := by
  refine ⟨fun other differs => ?_, ?_, same.pll.trans own.pll,
    fun pllId => (same.powered pllId).trans (own.powered pllId)⟩
  · rw [same.device]
    exact own.others other differs
  · rw [same.device]
    exact own.clockid

theorem SameUse.ownEntry (same : SameUse hw hw') : OwnEntry hw clockId hw' :=
  ⟨fun other _ => congrFun same.device other, by rw [same.device], same.pll, same.powered⟩

theorem hwEnableClock_free (free : (hw.device clockId).clockid = none) :
    OwnEntry hw clockId (hwEnableClock clockId modeName hw).2 := by
  unfold hwEnableClock
  split
  · exact SameUse.refl.ownEntry
  have counted := @ownEntry_recount hw clockId ((hw.device clockId).dwClockCount + 1)
    (acquireSlot modeName (hw.device clockId).modName)
  have powered := counted.aside (sameUse_powerUp clockId)
  have none := powered.clockid.trans free
  simp only [RootbusHw.recount, DevicePowerid.recount] at powered none
  simp only [none]
  exact powered.aside (sameUse_openClock clockId)

theorem hwDisableClock_free (free : (hw.device clockId).clockid = none) :
    OwnEntry hw clockId (hwDisableClock clockId modeName hw).2 := by
  unfold hwDisableClock
  split
  · exact (sameUse_setReg rfl _).ownEntry
  split
  · exact SameUse.refl.ownEntry
  dsimp only
  split
  · exact SameUse.refl.ownEntry
  have counted := @ownEntry_recount hw clockId ((hw.device clockId).dwClockCount - 1)
    (releaseSlot modeName (hw.device clockId).modName).2
  split
  · exact counted
  have closed := counted.aside (sameUse_closeClock clockId)
  have none := closed.clockid.trans free
  simp only [RootbusHw.recount, DevicePowerid.recount] at closed none
  simp only [none]
  exact closed.aside (sameUse_powerDown clockId)

/-- A clock has got the count `count`, and its PLL the count `value`. -/
structure Exchanged (hw : RootbusHw) (clockId : Nat) (pllId : Pll) (count value : BitVec 32)
    (hw' : RootbusHw) : Prop where
  clockid : ∀ other, (hw'.device other).clockid = (hw.device other).clockid
  count : ∀ other, (hw'.device other).dwClockCount =
    if other = clockId then count else (hw.device other).dwClockCount
  pll : ∀ other, (hw'.pll other).dwPllCount =
    if other = pllId then value else (hw.pll other).dwPllCount
  powered : ∀ other, hw'.powered other =
    if other = pllId then decide (0 < value) else hw.powered other

theorem Turned.exchanged {mid hw'' : RootbusHw} {count : BitVec 32} {names : Slots}
    (turned : Turned mid pllId value hw')
    (before : SameUse (hw.recount clockId count names) mid) (after : SameUse hw' hw'') :
    Exchanged hw clockId pllId count value hw'' := by
  have device := after.device.trans (turned.device.trans before.device)
  refine ⟨fun other => ?_, fun other => ?_, fun other => ?_, fun other => ?_⟩
  · simp only [device, RootbusHw.recount, update_apply]
    split
    case isTrue same => rw [same, DevicePowerid.recount]
    case isFalse => rfl
  · simp only [device, RootbusHw.recount, update_apply]
    split <;> rfl
  · rw [after.pll, turned.pll, before.pll]
    rfl
  · rw [after.powered, turned.powered, before.powered]
    rfl

theorem SameUse.attached {names : Slots} (same : SameUse (hw.recount clockId value names) hw')
    (attached : (hw.device clockId).clockid = some pllId) :
    (hw'.device clockId).clockid = some pllId := by
  rw [same.device, recount_device]
  exact attached

/-- Enabling a clock counts up its PLL. -/
theorem hwEnableClock_counted (valid : clockId < clockCountEnd)
    (attached : (hw.device clockId).clockid = some pllId) (isOn : hw.On pllId)
    (roomy : (hw.pll pllId).dwPllCount + 1 ≠ 0) :
    Exchanged hw clockId pllId ((hw.device clockId).dwClockCount + 1)
      ((hw.pll pllId).dwPllCount + 1) (hwEnableClock clockId modeName hw).2 := by
  unfold hwEnableClock
  rw [if_neg (by omega)]
  dsimp only
  generalize (hw.device clockId).dwClockCount + 1 = count
  generalize acquireSlot modeName (hw.device clockId).modName = names
  generalize recounted : ({ hw with device := update hw.device clockId _ } : RootbusHw) = mid
  obtain rfl : hw.recount clockId count names = mid := recounted
  have up := @sameUse_powerUp (hw.recount clockId count names) clockId
  have same : ((powerUp clockId (hw.recount clockId count names)).pll pllId).dwPllCount =
      (hw.pll pllId).dwPllCount := by
    rw [up.pll]
    rfl
  have turned := hwEnablePLL_turned (up.on isOn) (same ▸ roomy) auto
  simp only [up.attached attached]
  rw [same] at turned
  exact turned.exchanged up (sameUse_openClock clockId)

theorem closeGate_pdnStatus (hw : RootbusHw) (r : Reg) (mode mode' : Nat) (inWord : mode' < 32) :
    (closeGate hw r mode).pdnStatus r mode' = (decide (mode' = mode) || hw.pdnStatus r mode') := by
  unfold closeGate
  split
  · rename_i closed
    by_cases same : mode' = mode
    · rw [same, closed, Bool.or_true]
    · rw [decide_eq_false same, Bool.false_or]
  · simp only [pdnStatus, enablePDN, setReg, update_self, BitVec.getLsbD_or,
      BitVec.getLsbD_shiftLeft, BitVec.getLsbD_one]
    by_cases same : mode' = mode
    · simp [same, same ▸ inWord]
    · simp [same, inWord]
      omega

/-- DPI and DSI lower the count of their PLL when the gate of the other one is closed. -/
def RootbusHw.lowers (hw : RootbusHw) (clockId : Nat) : Bool :=
  if clockId = mmDpi then hw.pdnStatus .graph1sysCgCon (mmDsi - graph1sysStart)
  else if clockId = mmDsi then hw.pdnStatus .graph1sysCgCon (mmDpi - graph1sysStart)
  else true

theorem canDisablePLL_closeClock (reg : hw'.reg = hw.reg) :
    canDisablePLL clockId (closeClock clockId hw') = hw.lowers clockId := by
  have status : ∀ mode, hw'.pdnStatus .graph1sysCgCon mode = hw.pdnStatus .graph1sysCgCon mode := by
    intro mode
    rw [pdnStatus, pdnStatus, reg]
  unfold canDisablePLL lowers
  by_cases dpi : clockId = mmDpi
  · have closes : closeClock clockId hw' =
        closeGate hw' .graph1sysCgCon (mmDpi - graph1sysStart) := by
      rw [dpi]
      rfl
    rw [closes, closeGate_pdnStatus _ _ _ _ (by decide), closeGate_pdnStatus _ _ _ _ (by decide),
      status, status, if_pos (.inl dpi), if_pos dpi]
    simp only [decide_true, Bool.true_or, Bool.true_and]
    rfl
  by_cases dsi : clockId = mmDsi
  · have closes : closeClock clockId hw' =
        closeGate hw' .graph1sysCgCon (mmDsi - graph1sysStart) := by
      rw [dsi]
      rfl
    rw [closes, closeGate_pdnStatus _ _ _ _ (by decide), closeGate_pdnStatus _ _ _ _ (by decide),
      status, status, if_pos (.inr dsi), if_neg dpi, if_pos dsi]
    simp only [decide_true, Bool.true_or, Bool.and_true]
    rfl
  · rw [if_neg (not_or.mpr ⟨dpi, dsi⟩), if_neg dpi, if_neg dsi]

/-- Disabling a clock that is in use; the last time it counts down the PLL. -/
theorem hwDisableClock_counted (valid : clockId < isMd)
    (attached : (hw.device clockId).clockid = some pllId) (isOn : hw.On pllId)
    (used : (hw.device clockId).dwClockCount ≠ 0) (counted : 0 < (hw.pll pllId).dwPllCount) :
    Exchanged hw clockId pllId ((hw.device clockId).dwClockCount - 1)
      (if (hw.device clockId).dwClockCount = 1 ∧ hw.lowers clockId = true then
        (hw.pll pllId).dwPllCount - 1 else (hw.pll pllId).dwPllCount)
      (hwDisableClock clockId modeName hw).2 := by
  have inTable : ¬clockCountEnd ≤ clockId := by
    unfold isMd at valid
    unfold clockCountEnd
    omega
  unfold hwDisableClock
  rw [if_neg valid.ne, if_neg inTable]
  dsimp only
  rw [if_neg used]
  generalize (releaseSlot modeName (hw.device clockId).modName).2 = names
  generalize isCount : (hw.device clockId).dwClockCount - 1 = count
  generalize recounted : ({ hw with device := update hw.device clockId _ } : RootbusHw) = mid
  obtain rfl : hw.recount clockId count names = mid := recounted
  by_cases more : 0 < count
  · have again : (hw.device clockId).dwClockCount ≠ 1 := by
      intro once
      rw [once] at isCount
      rw [← isCount] at more
      exact absurd more (by decide)
    rw [if_pos more, if_neg fun last => again last.1]
    have turned : Turned (hw.recount clockId count names) pllId _ _ := .refl isOn counted
    exact turned.exchanged .refl .refl
  rw [if_neg more]
  have once : (hw.device clockId).dwClockCount = 1 := by bv_omega
  have closed := @sameUse_closeClock (hw.recount clockId count names) clockId
  have can := @canDisablePLL_closeClock (hw.recount clockId count names) hw clockId rfl
  have same : ((closeClock clockId (hw.recount clockId count names)).pll pllId).dwPllCount =
      (hw.pll pllId).dwPllCount := by
    rw [closed.pll]
    rfl
  simp only [closed.attached attached, can, once, true_and]
  split
  · have turned := hwDisablePLL_turned (closed.on isOn) (same ▸ counted) auto
    rw [same] at turned
    exact turned.exchanged closed (sameUse_powerDown clockId)
  · have turned := Turned.refl (closed.on isOn) (same ▸ counted)
    rw [same] at turned
    exact turned.exchanged closed (sameUse_powerDown clockId)

/-- A clock that is not in use is not disabled. -/
theorem hwDisableClock_unused (idle : (hw.device clockId).dwClockCount = 0) :
    SameUse hw (hwDisableClock clockId modeName hw).2 := by
  unfold hwDisableClock
  split
  · exact sameUse_setReg rfl _
  split
  · exact .refl
  rw [if_pos idle]
  exact .refl

end Calls

/-! ### Runs -/

inductive ClockCall where
  | enable (clockId : Nat) (modeName : ModName)
  | disable (clockId : Nat) (modeName : ModName)

/-- Which PLLs have been used is kept beside the tables, and how often each clock was enabled
more than it was disabled. -/
structure ClockSystem where
  hw : RootbusHw
  used : Pll → Bool
  enabled : Nat → Nat

def clockStep : ClockCall → ClockSystem → Bool × ClockSystem
  | .enable clockId modeName, sys =>
    let (ok, hw) := hwEnableClock clockId modeName sys.hw
    (ok, ⟨hw, fun pllId => sys.used pllId || attachedPll clockId == some pllId,
      update sys.enabled clockId (sys.enabled clockId + 1)⟩)
  | .disable clockId modeName, sys =>
    let (ok, hw) := hwDisableClock clockId modeName sys.hw
    (ok, ⟨hw, sys.used, update sys.enabled clockId (sys.enabled clockId - 1)⟩)

/-- No clock is disabled more often than it was enabled. -/
def ClockCall.balanced (sys : ClockSystem) : ClockCall → Prop
  | .enable .. => True
  | .disable clockId _ => 0 < sys.enabled clockId

def pllClocks : List Nat := [idCeva, periUsb, mmTvc, mmIsp, mmDpi, mmDsi]

/-- No count goes over its word, and the last disabling of a clock takes the count of its PLL to zero
exactly when no other clock of the PLL is in use. -/
def ClockCall.matched (sys : ClockSystem) : ClockCall → Prop
  | .enable clockId _ => ∀ pllId ∈ attachedPll clockId,
      (sys.hw.device clockId).dwClockCount + 1 ≠ 0 ∧ (sys.hw.pll pllId).dwPllCount + 1 ≠ 0
  | .disable clockId _ => ∀ pllId ∈ attachedPll clockId, (sys.hw.device clockId).dwClockCount = 1 →
      ((sys.hw.lowers clockId = true ∧ (sys.hw.pll pllId).dwPllCount = 1) ↔
        ∀ other ∈ pllClocks, other ≠ clockId → attachedPll other = some pllId →
          (sys.hw.device other).dwClockCount = 0)

instance decidableClockBalanced (sys : ClockSystem) (call : ClockCall) :
    Decidable (call.balanced sys) :=
  match call with
  | .enable .. => inferInstanceAs (Decidable True)
  | .disable clockId _ => inferInstanceAs (Decidable (0 < sys.enabled clockId))

instance decidableMatched (sys : ClockSystem) (call : ClockCall) : Decidable (call.matched sys) :=
  match call with
  | .enable clockId _ => inferInstanceAs (Decidable (∀ pllId ∈ attachedPll clockId, _ ∧ _))
  | .disable clockId _ => inferInstanceAs (Decidable (∀ pllId ∈ attachedPll clockId, _ → (_ ↔ _)))

/-- A clock that needs the PLL is in use. -/
def RootbusHw.Needs (hw : RootbusHw) (pllId : Pll) : Prop :=
  ∃ clockId < clockCountEnd, (hw.device clockId).clockid = some pllId ∧
    0 < (hw.device clockId).dwClockCount

instance decidableNeeds (hw : RootbusHw) (pllId : Pll) : Decidable (hw.Needs pllId) :=
  inferInstanceAs (Decidable (∃ clockId < clockCountEnd, (hw.device clockId).clockid = some pllId ∧
    0 < (hw.device clockId).dwClockCount))

def ClockSystem.start (pwrOff : BitVec 32) (hw : RootbusHw) : ClockSystem :=
  ⟨hwPMInit pwrOff hw, fun _ => false, fun _ => 0⟩

theorem mem_pllClocks {clockId : Nat} (attached : attachedPll clockId ≠ none) :
    clockId ∈ pllClocks := by
  by_contra absent
  simp only [pllClocks, List.mem_cons, List.not_mem_nil, or_false, not_or] at absent
  simp only [attachedPll, absent, if_false, ne_eq, not_true_eq_false] at attached

/-- One of the clocks attached to the PLL is counted. -/
def RootbusHw.Counted (hw : RootbusHw) (pllId : Pll) : Prop :=
  ∃ clockId, attachedPll clockId = some pllId ∧ 0 < (hw.device clockId).dwClockCount

structure ClockHolds (sys : ClockSystem) : Prop where
  clockid : ∀ clockId, (sys.hw.device clockId).clockid = attachedPll clockId
  follows : ∀ pllId, 0 < (sys.hw.pll pllId).dwPllCount ↔ sys.hw.Counted pllId
  isOn : ∀ pllId, sys.hw.On pllId
  released : ∀ pllId, sys.used pllId = true → (sys.hw.pll pllId).dwPllCount = 0 →
    sys.hw.powered pllId = false

section Runs

variable {sys : ClockSystem} {clockId : Nat} {modeName : ModName}

theorem ClockHolds.start {pwrOff : BitVec 32} {hw : RootbusHw} : ClockHolds (.start pwrOff hw) := by
  have none : ¬(0 : BitVec 32) < 0 := by decide
  constructor
  case clockid => exact fun _ => rfl
  case follows =>
    refine fun pllId => iff_of_false none ?_
    rintro ⟨clockId, -, counted⟩
    exact none counted
  case isOn => exact fun _ counted => absurd counted none
  case released => exact fun _ used => absurd used Bool.false_ne_true

/-- A clock without a PLL does not matter. -/
theorem ClockHolds.own {sys' : ClockSystem} (holds : ClockHolds sys)
    (free : attachedPll clockId = none) (own : OwnEntry sys.hw clockId sys'.hw)
    (used : sys'.used = sys.used) : ClockHolds sys' := by
  have others {other : Nat} {pllId : Pll} (attached : attachedPll other = some pllId) :
      sys'.hw.device other = sys.hw.device other := by
    refine own.others other fun same => ?_
    rw [same, free] at attached
    cases attached
  constructor
  case clockid =>
    intro other
    by_cases same : other = clockId
    · rw [same, own.clockid, holds.clockid]
    · rw [own.others other same, holds.clockid]
  case follows =>
    intro pllId
    rw [own.pll, holds.follows]
    refine exists_congr fun other => and_congr_right fun attached => ?_
    rw [others attached]
  case isOn =>
    intro pllId
    unfold RootbusHw.On
    rw [own.pll, own.powered]
    exact holds.isOn pllId
  case released =>
    intro pllId
    rw [own.pll, own.powered, used]
    exact holds.released pllId

theorem attachedPll_lt (attached : attachedPll clockId = some pllId) : clockId < isMd := by
  have below : ∀ other ∈ pllClocks, other < isMd := by decide
  exact below clockId (mem_pllClocks (attached ▸ Option.some_ne_none pllId))

section

variable (holds : ClockHolds sys)

include holds

/-- The counts of a clock and of its PLL change together. -/
theorem ClockHolds.exchange {sys' : ClockSystem} {count : BitVec 32}
    (attached : attachedPll clockId = some pllId)
    (exchanged : Exchanged sys.hw clockId pllId count value sys'.hw)
    (follows : 0 < value ↔ 0 < count ∨ ∃ other, other ≠ clockId ∧ attachedPll other = some pllId ∧
      0 < (sys.hw.device other).dwClockCount)
    (used : ∀ other, other ≠ pllId → sys'.used other = true → sys.used other = true) :
    ClockHolds sys' := by
  constructor
  case clockid => exact fun other => (exchanged.clockid other).trans (holds.clockid other)
  case follows =>
    intro other
    rw [exchanged.pll]
    simp only [RootbusHw.Counted, exchanged.count]
    split
    case isTrue same =>
      subst same
      rw [follows]
      constructor
      · rintro (own | ⟨clock, differs, isOther, counted⟩)
        · exact ⟨clockId, attached, by rwa [if_pos rfl]⟩
        · exact ⟨clock, isOther, by rwa [if_neg differs]⟩
      · rintro ⟨clock, isOther, counted⟩
        by_cases same : clock = clockId
        · rw [if_pos same] at counted
          exact .inl counted
        · rw [if_neg same] at counted
          exact .inr ⟨clock, same, isOther, counted⟩
    case isFalse foreign =>
      rw [holds.follows]
      refine exists_congr fun clock => and_congr_right fun isOther => ?_
      -- a clock of another PLL is another clock
      have differs : clock ≠ clockId := by
        rintro rfl
        exact foreign (Option.some.inj (isOther.symm.trans attached))
      rw [if_neg differs]
  case isOn =>
    intro other
    unfold RootbusHw.On
    rw [exchanged.pll, exchanged.powered]
    split
    case isTrue => exact decide_eq_true
    case isFalse => exact holds.isOn other
  case released =>
    intro other
    rw [exchanged.pll, exchanged.powered]
    split
    case isTrue =>
      rintro - rfl
      rfl
    case isFalse foreign => exact fun isUsed => holds.released other (used other foreign isUsed)

theorem ClockHolds.enable (isMatched : ClockCall.matched sys (.enable clockId modeName)) :
    ClockHolds (clockStep (.enable clockId modeName) sys).2 := by
  cases attached : attachedPll clockId with
  | none =>
    refine holds.own attached (hwEnableClock_free ((holds.clockid clockId).trans attached)) ?_
    funext pllId
    simp [clockStep, attached]
  | some pllId =>
    obtain ⟨roomy, roomy'⟩ := isMatched pllId attached
    have exchanged := @hwEnableClock_counted pllId sys.hw clockId modeName
      ((attachedPll_lt attached).trans (by decide)) ((holds.clockid clockId).trans attached)
      (holds.isOn pllId) roomy'
    refine holds.exchange attached exchanged (iff_of_true (by bv_omega) (.inl (by bv_omega)))
      fun other foreign before => ?_
    simpa [clockStep, attached, Ne.symm foreign] using before

theorem ClockHolds.disable (isMatched : ClockCall.matched sys (.disable clockId modeName)) :
    ClockHolds (clockStep (.disable clockId modeName) sys).2 := by
  cases attached : attachedPll clockId with
  | none =>
    exact holds.own attached (hwDisableClock_free ((holds.clockid clockId).trans attached)) rfl
  | some pllId =>
    by_cases idle : (sys.hw.device clockId).dwClockCount = 0
    · have same := @hwDisableClock_unused sys.hw clockId modeName idle
      exact @ClockHolds.own sys clockCountEnd _ holds rfl same.ownEntry rfl
    have counted : 0 < (sys.hw.pll pllId).dwPllCount :=
      (holds.follows pllId).mpr ⟨clockId, attached, by bv_omega⟩
    have exchanged := @hwDisableClock_counted pllId sys.hw clockId modeName
      (attachedPll_lt attached) ((holds.clockid clockId).trans attached) (holds.isOn pllId) idle
      counted
    refine holds.exchange attached exchanged ?_ fun other _ before => before
    by_cases once : (sys.hw.device clockId).dwClockCount = 1
    · have isLast := isMatched pllId attached once
      have others : (∃ other, other ≠ clockId ∧ attachedPll other = some pllId ∧
          0 < (sys.hw.device other).dwClockCount) ↔
            ¬(sys.hw.lowers clockId = true ∧ (sys.hw.pll pllId).dwPllCount = 1) := by
        rw [isLast]
        push Not
        refine exists_congr fun other => ⟨?_, ?_⟩
        · rintro ⟨differs, isOther, inUse⟩
          exact ⟨mem_pllClocks (isOther ▸ Option.some_ne_none pllId), differs, isOther, by bv_omega⟩
        · rintro ⟨-, differs, isOther, inUse⟩
          exact ⟨differs, isOther, by bv_omega⟩
      rw [others, once, or_iff_right (by decide)]
      by_cases lowered : sys.hw.lowers clockId = true
      · rw [if_pos ⟨rfl, lowered⟩]
        simp only [lowered, true_and]
        bv_omega
      · rw [if_neg fun last => lowered last.2]
        exact iff_of_true counted fun last => lowered last.1
    · rw [if_neg fun last => once last.1]
      exact iff_of_true counted (.inl (by bv_omega))

theorem ClockHolds.run {calls : List ClockCall}
    (admits : Admits clockStep (fun sys call => call.matched sys) calls sys) :
    ClockHolds (answers clockStep calls sys).2 := by
  refine admits.kept holds fun sys call holds isMatched => ?_
  cases call with
  | enable clockId modeName => exact holds.enable isMatched
  | disable clockId modeName => exact holds.disable isMatched

theorem ClockHolds.counted_iff_needs (pllId : Pll) :
    sys.hw.Counted pllId ↔ sys.hw.Needs pllId := by
  constructor
  · rintro ⟨clockId, attached, counted⟩
    exact ⟨clockId, (attachedPll_lt attached).trans (by decide),
      (holds.clockid clockId).trans attached, counted⟩
  · rintro ⟨clockId, -, attached, counted⟩
    exact ⟨clockId, (holds.clockid clockId).symm.trans attached, counted⟩

/-- A PLL is counted exactly while it is needed. -/
theorem ClockHolds.needed (pllId : Pll) :
    0 < (sys.hw.pll pllId).dwPllCount ↔ sys.hw.Needs pllId :=
  (holds.follows pllId).trans (holds.counted_iff_needs pllId)

/-- A needed PLL is on; one that has been used and is not needed any more is off. -/
theorem ClockHolds.switched (pllId : Pll) :
    (sys.hw.Needs pllId → sys.hw.powered pllId = true) ∧
      (sys.used pllId = true → ¬sys.hw.Needs pllId → sys.hw.powered pllId = false) := by
  have needed := holds.needed pllId
  refine ⟨fun needs => holds.isOn pllId (needed.mpr needs), fun used needless => ?_⟩
  refine holds.released pllId used ?_
  have idle := mt needed.mp needless
  bv_omega

end

end Runs

end AndroidKernel.BusHw
