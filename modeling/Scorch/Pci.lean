import Mathlib.Logic.Function.Basic
import Scorch.Lib.ByteMemory

/-!
# The PCI bus

`pci.c`. The configuration space gives, for every address that is written to port `0xCF8`,
the doubleword that port `0xCFC` then reads. It changes where the driver writes to it, and
not by itself.

`checkBus`, `checkDevice` and `checkFunction` call each other. The depth of the recursion is
a parameter : there is no result when it takes more. The drivers that `checkFunction` starts
are other files, so their calls are logged. Nothing that is written for the console is kept.
-/

open ByteMemory

namespace Scorch

/-! ## Configuration space -/

/-- The doublewords by the address written to `0xCF8`. -/
abbrev ConfigSpace := Word → Word

/-- The address of a register. -/
def configAddress (bus slot func offset : Byte) : Word :=
  bus.setWidth 32 <<< 16 ||| slot.setWidth 32 <<< 11 ||| func.setWidth 32 <<< 8 |||
    (offset &&& 0xfc).setWidth 32 ||| 0x80000000

/-- `pciConfigReadWord` : one half of the double word at the address. -/
def pciConfigReadWord (conf : ConfigSpace) (bus slot func offset : Byte) : BitVec 16 :=
  (conf (configAddress bus slot func offset) >>> ((offset &&& 2) * 8).toNat).setWidth 16

/-- `pciConfigReadDWord`. -/
def pciConfigReadDWord (conf : ConfigSpace) (bus slot func offset : Byte) : Word :=
  conf (configAddress bus slot func offset)

/-- `pciConfigWriteDWord`. -/
def pciConfigWriteDWord (conf : ConfigSpace) (bus slot func offset : Byte) (inWord : Word) :
    ConfigSpace :=
  Function.update conf (configAddress bus slot func offset) inWord

/-- `PCI_COMMAND_MEMORY`. -/
def pciCommandMemory : BitVec 16 := 0x0002

/-- `PCI_COMMAND_MASTER`. -/
def pciCommandMaster : BitVec 16 := 0x0004

/-- `pciConfigDoCommand` : set or clear flags of the command register. -/
def pciConfigDoCommand (conf : ConfigSpace) (bus slot func : Byte) (commandFlag : BitVec 16)
    (flag : Bool) : ConfigSpace :=
  let tmpValue := pciConfigReadDWord conf bus slot func 0x04
  let tmpValue :=
    if flag then tmpValue ||| commandFlag.setWidth 32 else tmpValue &&& ~~~commandFlag.setWidth 32
  pciConfigWriteDWord conf bus slot func 0x04 tmpValue

/-! ## Registers -/

/-- `getVendorID`. -/
def getVendorID (conf : ConfigSpace) (bus device function : Byte) : BitVec 16 :=
  pciConfigReadWord conf bus device function 0

/-- `getDeviceID`. -/
def getDeviceID (conf : ConfigSpace) (bus device function : Byte) : BitVec 16 :=
  pciConfigReadWord conf bus device function 2

/-- `getHeaderType`. -/
def getHeaderType (conf : ConfigSpace) (bus device function : Byte) : Byte :=
  (pciConfigReadWord conf bus device function 0x0E).setWidth 8

/-- `getInterruptLine`. -/
def getInterruptLine (conf : ConfigSpace) (bus device function : Byte) : Byte :=
  (pciConfigReadWord conf bus device function 0x3C).setWidth 8

/-- `getSecondaryBus`. -/
def getSecondaryBus (conf : ConfigSpace) (bus device function : Byte) : Byte :=
  (pciConfigReadWord conf bus device function 0x18 >>> 8).setWidth 8

/-- `getProgIF`. -/
def getProgIF (conf : ConfigSpace) (bus device function : Byte) : Byte :=
  (pciConfigReadWord conf bus device function 0x08 >>> 8).setWidth 8

/-- `getBaseClass`. -/
def getBaseClass (conf : ConfigSpace) (bus device function : Byte) : Byte :=
  (pciConfigReadWord conf bus device function 0x0A >>> 8).setWidth 8

/-- `getSubClass`. -/
def getSubClass (conf : ConfigSpace) (bus device function : Byte) : Byte :=
  (pciConfigReadWord conf bus device function 0x0A).setWidth 8

/-! ## The scan -/

/-- The arguments of a call of `checkFunction`. -/
@[ext]
structure PciFunction where
  bus : Byte
  device : Byte
  function : Byte
deriving DecidableEq

/-- The fields of `pci_device_t` that are written. -/
structure PciDevice where
  vendorID : BitVec 16
  deviceID : BitVec 16
  bus : Byte
  device : Byte
  function : Byte
  irq : Byte
  ioaddr : BitVec 16

/-- A call into another driver. -/
inductive DriverCall where
  | vmmngrIdentMap (virt : Word)
  | ahciInit (base : Word)
  | initUhci (base : Word)

/-- What the scan works on, and the calls of `checkFunction` in their order. -/
structure PciState where
  conf : ConfigSpace
  n8139device : PciDevice
  calls : List PciFunction
  driverCalls : List DriverCall

/-- What `checkFunction` does after the bridge. -/
def setUpFunction (bus device function baseClass subClass : Byte) (s : PciState) : PciState :=
  let deviceID := getDeviceID s.conf bus device function
  let bar0 := pciConfigReadDWord s.conf bus device function 0x10
  let bar4 := pciConfigReadDWord s.conf bus device function 0x20
  let interruptLine := getInterruptLine s.conf bus device function
  let progif := getProgIF s.conf bus device function
  let vendorID := getVendorID s.conf bus device function
  let s :=
    if deviceID = 0x8139 ∧ vendorID = 0x10EC then
      { s with
        n8139device :=
          { vendorID := vendorID
            deviceID := deviceID
            bus := bus
            device := device
            function := function
            irq := interruptLine
            ioaddr := bar0.setWidth 16 } }
    else s
  let s :=
    if baseClass = 1 ∧ subClass = 6 then
      let conf :=
        pciConfigDoCommand s.conf bus device function (pciCommandMemory ||| pciCommandMaster) true
      let bar5 := pciConfigReadDWord conf bus device function 0x24
      { s with
        conf := conf
        driverCalls := s.driverCalls ++ [.vmmngrIdentMap bar5, .ahciInit bar5] }
    else s
  if baseClass = 0xC ∧ subClass = 0x03 ∧ progif = 0x00 then
    { s with driverCalls := s.driverCalls ++ [.initUhci (bar4 &&& ~~~1)] }
  else s

/-- `checkFunction` : note the call, go on behind a bridge, set a device up. -/
def checkFunction (checkBus : Byte → PciState → Option PciState) (bus device function : Byte)
    (s : PciState) : Option PciState :=
  let s := { s with calls := s.calls ++ [⟨bus, device, function⟩] }
  let baseClass := getBaseClass s.conf bus device function
  let subClass := getSubClass s.conf bus device function
  let bridge :=
    if baseClass = 0x06 ∧ subClass = 0x04 then
      checkBus (getSecondaryBus s.conf bus device function) s
    else some s
  bridge.map (setUpFunction bus device function baseClass subClass)

/-- `checkDevice`. -/
def checkDevice (checkBus : Byte → PciState → Option PciState) (bus device : Byte)
    (s : PciState) : Option PciState :=
  if getVendorID s.conf bus device 0 = 0xFFFF then some s
  else
    (checkFunction checkBus bus device 0 s).bind fun s =>
      if getHeaderType s.conf bus device 0 &&& 0x80 ≠ 0 then
        [1, 2, 3, 4, 5, 6, 7].foldlM (fun s function =>
          if getVendorID s.conf bus device function ≠ 0xFFFF then
            checkFunction checkBus bus device function s
          else some s) s
      else some s

/-- The numbers of the devices of a bus. -/
def deviceNumbers : List Byte :=
  (List.range 32).map (BitVec.ofNat 8)

/-- The calls go `n` buses deep at most. -/
def checkBus : ℕ → Byte → PciState → Option PciState
  | 0, _, _ => none
  | n + 1, bus, s => deviceNumbers.foldlM (fun s device => checkDevice (checkBus n) bus device s) s

/-- The loop over the functions of the host controller, from the first one given on. -/
def hostLoop (checkBus : Byte → PciState → Option PciState) :
    List Byte → PciState → Option PciState
  | [], s => some s
  | function :: functions, s =>
    if getVendorID s.conf 0 0 function ≠ 0xFFFF then some s
    else (checkBus function s).bind (hostLoop checkBus functions)

/-- The numbers of the functions of a device. -/
def functionNumbers : List Byte :=
  [0, 1, 2, 3, 4, 5, 6, 7]

/-- `checkAllBuses`, whose recursion may go `n` buses deep. -/
def checkAllBuses (n : ℕ) (s : PciState) : Option PciState :=
  if getHeaderType s.conf 0 0 0 &&& 0x80 = 0 then checkBus n 0 s
  else hostLoop (checkBus n) functionNumbers s

end Scorch
