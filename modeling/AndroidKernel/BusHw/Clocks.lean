import AndroidKernel.BusHw.Names

/-!
The clocks and PLLs of the MT6516: `hwEnableClock`, `hwDisableClock` and what they call.

A register is a word; the set and clear registers of the gates act on the word that the
status is read from. Waiting for the hardware and delays have no effect here. The register
bits of the power switches of the subsystems are not read by any of these functions and are
left out, `dwSubSystem_status` is kept.
-/

namespace AndroidKernel.BusHw

/-- `MT6516_PLL`. -/
inductive Pll where
  | upll | dpll | mpll | cpll | tpll | cevapll | mcpll | mipi
deriving DecidableEq, Repr

/-- `MT6516_SUBSYS`. -/
inductive Subsys where
  | graph1sys | graph2sys | cevasys
deriving DecidableEq, Repr

def Subsys.bit : Subsys → BitVec 32
  | .graph1sys => 0x8
  | .graph2sys => 0x10
  | .cevasys => 0x20

inductive Reg where
  | pdnCon | sleepCon | cpll2 | tpll2 | cevapll2 | mcpll | mcpll2 | pllResCon0 | mipitxCon
  | apmcusysPdnCon0 | apmcusysPdnCon1 | graph1sysCgCon | graph2sysCgCon
deriving DecidableEq, Repr

/-- `DEVICE_POWERID`; the clock id of a PLL is -1 in the source when there is none. -/
structure DevicePowerid where
  dwClockCount : BitVec 32
  clockid : Option Pll
  modName : Slots

/-- `DEVICE_PLLID`. -/
structure DevicePllid where
  dwPllCount : BitVec 32
  modName : Slots

/-- `g_MT6516_BusHW`, the registers and the switch `bMTCMOS`. -/
structure RootbusHw where
  device : Nat → DevicePowerid
  pll : Pll → DevicePllid
  dwSubSystemStatus : BitVec 32
  bMTCMOS : Bool
  reg : Reg → BitVec 32

namespace RootbusHw

def setReg (hw : RootbusHw) (r : Reg) (mask : BitVec 32) : RootbusHw :=
  { hw with reg := Function.update hw.reg r (hw.reg r ||| mask) }

def clrReg (hw : RootbusHw) (r : Reg) (mask : BitVec 32) : RootbusHw :=
  { hw with reg := Function.update hw.reg r (hw.reg r &&& ~~~mask) }

/-- The gate of a module is closed: `GetPDNStatus` answers `TRUE`. -/
def pdnStatus (hw : RootbusHw) (r : Reg) (mode : Nat) : Bool := (hw.reg r).getLsbD mode

def enablePDN (hw : RootbusHw) (r : Reg) (mode : Nat) : RootbusHw := hw.setReg r (1#32 <<< mode)

def disablePDN (hw : RootbusHw) (r : Reg) (mode : Nat) : RootbusHw := hw.clrReg r (1#32 <<< mode)

end RootbusHw

/-! ### Clock numbers -/

def clockCountEnd : Nat := 110
def periUsb : Nat := 1
def pdn0McuEnd : Nat := 31
def pdn1McuStart : Nat := 32
def pdn1McuEnd : Nat := 33
def graph1sysStart : Nat := 64
def mmDsi : Nat := 70
def mmTvc : Nat := 73
def mmIsp : Nat := 74
def mmDpi : Nat := 88
def graph1sysEnd : Nat := 89
def graph2sysStart : Nat := 96
def graph2sysEnd : Nat := 104
def idCeva : Nat := 108
def isMd : Nat := 109

/-- The PLLs that `MT6516_hwPMInit` writes into the clock ids. -/
def attachedPll (clockId : Nat) : Option Pll :=
  if clockId = idCeva then some .cevapll
  else if clockId = periUsb then some .upll
  else if clockId = mmTvc then some .tpll
  else if clockId = mmIsp then some .cpll
  else if clockId = mmDpi then some .mipi
  else if clockId = mmDsi then some .mipi
  else none

/-- `MT6516_hwPMInit`. What is on by default is read from the registers; `pwrOff` is the
register of the power switches. -/
def hwPMInit (pwrOff : BitVec 32) (hw : RootbusHw) : RootbusHw :=
  let on (bit : Nat) (subsys : Subsys) : BitVec 32 :=
    if pwrOff.getLsbD bit then 0 else subsys.bit
  let hw := { hw with
    device := fun clockId => ⟨0, attachedPll clockId, unused⟩
    pll := fun _ => ⟨0, unused⟩
    dwSubSystemStatus := on 3 .graph1sys ||| on 4 .graph2sys ||| on 5 .cevasys }
  -- the DPLL is stopped
  hw.clrReg .pdnCon (1 <<< 3)

/-! ### PLLs -/

def switchOn (hw : RootbusHw) : Pll → RootbusHw
  | .upll => (hw.setReg .pdnCon (1 <<< 4)).clrReg .sleepCon 0x80
  | .dpll => hw.setReg .pdnCon (1 <<< 3)
  | .mpll => hw.setReg .pdnCon (1 <<< 2)
  | .cpll => hw.setReg .cpll2 (1 <<< 0)
  | .tpll => hw.setReg .tpll2 (1 <<< 0)
  | .cevapll => hw.setReg .cevapll2 (1 <<< 0)
  | .mcpll => ((hw.setReg .mcpll2 (1 <<< 0)).setReg .mcpll 0x800).clrReg .mcpll 0x800
  | .mipi => (hw.clrReg .pllResCon0 (1 <<< 0)).setReg .mipitxCon (1 <<< 0)

def switchOff (hw : RootbusHw) : Pll → RootbusHw
  | .upll => (hw.clrReg .pdnCon (1 <<< 4)).setReg .sleepCon 0x80
  | .dpll => hw.clrReg .pdnCon (1 <<< 3)
  | .mpll => hw.clrReg .pdnCon (1 <<< 2)
  | .cpll => hw.clrReg .cpll2 (1 <<< 0)
  | .tpll => hw.clrReg .tpll2 (1 <<< 0)
  | .cevapll => hw.clrReg .cevapll2 (1 <<< 0)
  | .mcpll => hw.clrReg .mcpll2 (1 <<< 0)
  | .mipi => (hw.clrReg .mipitxCon (1 <<< 0)).setReg .pllResCon0 (1 <<< 0)

def hwEnablePLL (pllId : Pll) (modeName : ModName) (hw : RootbusHw) : RootbusHw :=
  let entry := hw.pll pllId
  let count := entry.dwPllCount + 1
  let hw := { hw with
    pll := Function.update hw.pll pllId ⟨count, acquireSlot modeName entry.modName⟩ }
  if 1 < count then hw else switchOn hw pllId

/-- The name is cleared where it is found; the count goes down in any case. -/
def hwDisablePLL (pllId : Pll) (bForce : Bool) (modeName : ModName) (hw : RootbusHw) : RootbusHw :=
  let entry := hw.pll pllId
  if bForce then
    switchOff { hw with pll := Function.update hw.pll pllId ⟨0, unused⟩ } pllId
  else if entry.dwPllCount = 0 then hw
  else
    let count := entry.dwPllCount - 1
    let hw := { hw with
      pll := Function.update hw.pll pllId ⟨count, (releaseSlot modeName entry.modName).2⟩ }
    if 0 < count then hw else switchOff hw pllId

/-! ### Subsystems -/

def resetForMpeg4Hw (hw : RootbusHw) : RootbusHw :=
  (hw.disablePDN .graph2sysCgCon 7).enablePDN .graph2sysCgCon 7

def hwEnableSubsys (subsysId : Subsys) (hw : RootbusHw) : RootbusHw :=
  if hw.dwSubSystemStatus &&& subsysId.bit ≠ 0 then hw
  else
    let hw := { hw with dwSubSystemStatus := hw.dwSubSystemStatus ||| subsysId.bit }
    match subsysId with
    | .graph1sys => (hw.clrReg .graph1sysCgCon 1).disablePDN .graph1sysCgCon 0
    | .graph2sys =>
      let hw := (hw.clrReg .graph2sysCgCon 1).enablePDN .graph2sysCgCon 0
      ((resetForMpeg4Hw hw).disablePDN .graph2sysCgCon 0).enablePDN .graph2sysCgCon 8
    | .cevasys => hw

def hwDisableSubsys (subsysId : Subsys) (hw : RootbusHw) : RootbusHw :=
  let hw := { hw with dwSubSystemStatus := hw.dwSubSystemStatus &&& ~~~subsysId.bit }
  match subsysId with
  | .graph1sys => hw.setReg .graph1sysCgCon 1
  | .graph2sys => hw.setReg .graph2sysCgCon 1
  | .cevasys => hw

/-! ### Clocks -/

/-- `clock_catagory`, with the number of the gate in its register. -/
inductive Category where
  | peri0 (mode : Nat)
  | peri1 (mode : Nat)
  | graph1 (mode : Nat)
  | graph2 (mode : Nat)
  | sleep
  | none
deriving DecidableEq, Repr

def category (clockId : Nat) : Category :=
  if clockId ≤ pdn0McuEnd then .peri0 clockId
  else if clockId ≤ pdn1McuEnd then .peri1 (clockId - pdn1McuStart)
  else if graph1sysStart ≤ clockId ∧ clockId ≤ graph1sysEnd then .graph1 (clockId - graph1sysStart)
  else if graph2sysStart ≤ clockId ∧ clockId ≤ graph2sysEnd then .graph2 (clockId - graph2sysStart)
  else if idCeva ≤ clockId ∧ clockId ≤ isMd then .sleep
  else .none

/-- What comes before the PLL when a clock is enabled. -/
def powerUp (clockId : Nat) (hw : RootbusHw) : RootbusHw :=
  match category clockId with
  | .graph1 _ => hwEnableSubsys .graph1sys hw
  | .graph2 _ => hwEnableSubsys .graph2sys hw
  | .sleep =>
    if clockId = idCeva then hwEnableSubsys .cevasys (hw.clrReg .sleepCon (1 <<< 5))
    else hw.clrReg .sleepCon (1 <<< 6)
  | _ => hw

def openGate (hw : RootbusHw) (r : Reg) (mode : Nat) : RootbusHw :=
  if hw.pdnStatus r mode then hw.disablePDN r mode else hw

def closeGate (hw : RootbusHw) (r : Reg) (mode : Nat) : RootbusHw :=
  if hw.pdnStatus r mode then hw else hw.enablePDN r mode

/-- The `switch` over the categories. -/
def openClock (clockId : Nat) (hw : RootbusHw) : RootbusHw :=
  match category clockId with
  | .peri0 mode => openGate hw .apmcusysPdnCon0 mode
  | .peri1 mode => openGate hw .apmcusysPdnCon1 mode
  | .graph1 mode => openGate hw .graph1sysCgCon mode
  | .graph2 mode => openGate hw .graph2sysCgCon mode
  | .sleep => hw.clrReg .sleepCon (if clockId = idCeva then 0x20 else 0x40)
  | .none => hw

def hwEnableClock (clockId : Nat) (modeName : ModName) (hw : RootbusHw) : Bool × RootbusHw :=
  if clockCountEnd ≤ clockId then (false, hw)
  else
    let entry := hw.device clockId
    let hw := { hw with
      device := Function.update hw.device clockId
        { entry with
          dwClockCount := entry.dwClockCount + 1
          modName := acquireSlot modeName entry.modName } }
    let hw := powerUp clockId hw
    let hw :=
      match (hw.device clockId).clockid with
      | some pllId => hwEnablePLL pllId auto hw
      | none => hw
    (true, openClock clockId hw)

/-- The sum of the counts of the clocks of the second graphics subsystem. -/
def graph2Usage (hw : RootbusHw) : BitVec 32 :=
  ((List.range (graph2sysEnd + 1 - graph2sysStart)).map fun i =>
    (hw.device (graph2sysStart + i)).dwClockCount).sum

/-- What comes before the PLL when the last user of a clock has gone. The gate of the first
clock of the first graphics subsystem is left alone. -/
def closeClock (clockId : Nat) (hw : RootbusHw) : RootbusHw :=
  match category clockId with
  | .peri0 mode => closeGate hw .apmcusysPdnCon0 mode
  | .peri1 mode => closeGate hw .apmcusysPdnCon1 mode
  | .graph1 mode => if mode = 0 then hw else closeGate hw .graph1sysCgCon mode
  | .graph2 mode =>
    let hw := closeGate hw .graph2sysCgCon mode
    if graph2Usage hw = 0 ∧ hw.bMTCMOS then hwDisableSubsys .graph2sys hw else hw
  | _ => hw

/-- DPI and DSI share the MIPI PLL: it is given back only when both their gates are closed. -/
def canDisablePLL (clockId : Nat) (hw : RootbusHw) : Bool :=
  if clockId = mmDpi ∨ clockId = mmDsi then
    hw.pdnStatus .graph1sysCgCon (mmDpi - graph1sysStart) &&
      hw.pdnStatus .graph1sysCgCon (mmDsi - graph1sysStart)
  else true

/-- What comes after the PLL. -/
def powerDown (clockId : Nat) (hw : RootbusHw) : RootbusHw :=
  if clockId = idCeva then
    hwDisableSubsys .cevasys ((hw.setReg .sleepCon (1 <<< 0)).setReg .sleepCon (1 <<< 5))
  else hw

def hwDisableClock (clockId : Nat) (modeName : ModName) (hw : RootbusHw) : Bool × RootbusHw :=
  if clockId = isMd then (true, hw.setReg .sleepCon (1 <<< 6))
  else if clockCountEnd ≤ clockId then (false, hw)
  else
    let entry := hw.device clockId
    if entry.dwClockCount = 0 then (true, hw)
    else
      let hw := { hw with
        device := Function.update hw.device clockId
          { entry with
            dwClockCount := entry.dwClockCount - 1
            modName := (releaseSlot modeName entry.modName).2 } }
      if 0 < entry.dwClockCount - 1 then (true, hw)
      else
        let hw := closeClock clockId hw
        let hw :=
          match (hw.device clockId).clockid with
          | some pllId =>
            if canDisablePLL clockId hw then hwDisablePLL pllId false auto hw else hw
          | none => hw
        (true, powerDown clockId hw)

end AndroidKernel.BusHw
