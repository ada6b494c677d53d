import Scorch.Pci
import Scorch.Lib.ForestWalk

/-!
# The scan of the PCI buses is a walk

The writes of a scan go to command registers, and what decides on the calls of
`checkFunction` is read from others. So the calls are those of a walk over the configuration
space as it was at first (`follows_checkAllBuses`) : the nodes are buses, the items of a bus
are its functions, and below a bridge is its secondary bus.

`Follows` compares a part of the scan with a part of the walk : they return together, the calls
that were made are the items that were visited, and the headers are as before. It composes along
the loops over functions, devices and buses (`follows_checkFunction`, `follows_checkDevice`,
`follows_hostLoop`), and the recursion of `checkBus` is the fuel of the walk.
-/

open ByteMemory ForestWalk

namespace Scorch

/-! ## What a scan reads -/

/-- Only command registers differ. -/
def SameHeaders (conf conf' : ConfigSpace) : Prop :=
  ∀ address, address.setWidth 8 ≠ (4 : Byte) → conf' address = conf address

/-- The register is the low byte of the address. -/
theorem setWidth_configAddress (bus slot func offset : Byte) :
    (configAddress bus slot func offset).setWidth 8 = offset &&& 0xfc := by
  have hshift : ∀ (b : Byte) (n : ℕ), 8 ≤ n → (b.setWidth 32 <<< n).setWidth 8 = (0 : Byte) := by
    intro b n hn
    ext i hi
    simp
    omega
  rw [configAddress]
  simp only [BitVec.setWidth_or]
  rw [hshift bus 16 (by omega), hshift slot 11 (by omega), hshift func 8 (by omega)]
  ext i hi
  simp

/-- The parts of an address do not overlap. -/
theorem toNat_configAddress {bus slot func offset : Byte} (hslot : slot < 32) (hfunc : func < 8) :
    (configAddress bus slot func offset).toNat =
      2 ^ 31 + bus.toNat * 2 ^ 16 + slot.toNat * 2 ^ 11 + func.toNat * 2 ^ 8 +
        (offset &&& 0xfc).toNat := by
  have hslot : slot.toNat < 32 := hslot
  have hfunc : func.toNat < 8 := hfunc
  have hor : ∀ {a b : ℕ} (k : ℕ), b < 2 ^ k → a * 2 ^ k ||| b = a * 2 ^ k + b := fun k hb => by
    rw [← Nat.shiftLeft_eq, ← Nat.shiftLeft_add_eq_or_of_lt hb]
  have hbyte : ∀ b : Byte, b.toNat % 2 ^ 32 = b.toNat := fun b => by
    have := b.isLt
    omega
  have htop : (0x80000000 : Word).toNat = 1 * 2 ^ 31 := rfl
  have hbus := bus.isLt
  have hoffset := (offset &&& 0xfc).isLt
  simp only [configAddress, BitVec.toNat_or, BitVec.toNat_shiftLeft, BitVec.toNat_setWidth,
    Nat.shiftLeft_eq, htop, hbyte]
  rw [Nat.or_comm, Nat.or_assoc, Nat.or_assoc, Nat.mod_eq_of_lt (by omega),
    Nat.mod_eq_of_lt (by omega), Nat.mod_eq_of_lt (by omega), hor 8 (by omega), hor 11 (by omega),
    hor 16 (by omega), hor 31 (by omega)]
  omega

/-- Every function has registers of its own. -/
theorem configAddress_inj {bus slot func bus' slot' func' offset : Byte} (hslot : slot < 32)
    (hfunc : func < 8) (hslot' : slot' < 32) (hfunc' : func' < 8)
    (h : configAddress bus slot func offset = configAddress bus' slot' func' offset) :
    bus = bus' ∧ slot = slot' ∧ func = func' := by
  have heq := congrArg BitVec.toNat h
  rw [toNat_configAddress hslot hfunc, toNat_configAddress hslot' hfunc'] at heq
  refine ⟨?_, ?_, ?_⟩ <;> bv_omega

/-- Headers that are kept twice are kept. -/
theorem SameHeaders.trans {conf conf' conf'' : ConfigSpace} (h : SameHeaders conf conf')
    (h' : SameHeaders conf' conf'') : SameHeaders conf conf'' :=
  fun address ha => (h' address ha).trans (h address ha)

/-- A change of the command register keeps the headers. -/
theorem sameHeaders_pciConfigDoCommand (conf : ConfigSpace) (bus slot func : Byte)
    (commandFlag : BitVec 16) (flag : Bool) :
    SameHeaders conf (pciConfigDoCommand conf bus slot func commandFlag flag) := by
  intro address ha
  refine Function.update_of_ne (fun h => ha ?_) _ _
  rw [h, setWidth_configAddress]
  rfl

/-- Words outside the command register are read as before. -/
theorem SameHeaders.readWord {conf conf' : ConfigSpace} (h : SameHeaders conf conf')
    {offset : Byte} (ho : offset &&& 0xfc ≠ 4) (bus slot func : Byte) :
    pciConfigReadWord conf' bus slot func offset = pciConfigReadWord conf bus slot func offset := by
  rw [pciConfigReadWord, pciConfigReadWord, h _ (by rwa [setWidth_configAddress])]

theorem SameHeaders.getVendorID_eq {conf conf' : ConfigSpace} (h : SameHeaders conf conf')
    (bus device function : Byte) :
    getVendorID conf' bus device function = getVendorID conf bus device function :=
  h.readWord (by decide) bus device function

theorem SameHeaders.getHeaderType_eq {conf conf' : ConfigSpace} (h : SameHeaders conf conf')
    (bus device function : Byte) :
    getHeaderType conf' bus device function = getHeaderType conf bus device function := by
  rw [getHeaderType, getHeaderType, h.readWord (by decide)]

/-! ## Functions and bridges -/

/-- The bus behind a function, if that is a bridge. -/
def secondaryOf (conf : ConfigSpace) (f : PciFunction) : Option Byte :=
  if getBaseClass conf f.bus f.device f.function = 0x06 ∧
      getSubClass conf f.bus f.device f.function = 0x04 then
    some (getSecondaryBus conf f.bus f.device f.function)
  else none

/-- The class of a bridge. -/
theorem class_of_secondaryOf {conf : ConfigSpace} {f : PciFunction} {bus : Byte}
    (h : secondaryOf conf f = some bus) :
    conf (configAddress f.bus f.device f.function 8) >>> 16 = 0x0604 := by
  rw [secondaryOf] at h
  split_ifs at h with hclass
  obtain ⟨hbase, hsub⟩ := hclass
  have haddress : configAddress f.bus f.device f.function 0x0A =
      configAddress f.bus f.device f.function 8 := rfl
  have hshift : (((0x0A : Byte) &&& 2) * 8).toNat = 16 := rfl
  rw [getBaseClass, pciConfigReadWord, haddress, hshift] at hbase
  rw [getSubClass, pciConfigReadWord, haddress, hshift] at hsub
  bv_omega

/-- A function after the first, if it is there. -/
def laterFunction (conf : ConfigSpace) (bus device function : Byte) : List PciFunction :=
  if getVendorID conf bus device function ≠ 0xFFFF then [⟨bus, device, function⟩] else []

/-- The functions of a device, in the order of the calls. -/
def deviceFunctions (conf : ConfigSpace) (bus device : Byte) : List PciFunction :=
  if getVendorID conf bus device 0 = 0xFFFF then []
  else ⟨bus, device, 0⟩ ::
    if getHeaderType conf bus device 0 &&& 0x80 ≠ 0 then
      [1, 2, 3, 4, 5, 6, 7].flatMap (laterFunction conf bus device)
    else []

/-- The functions of a bus, in the order of the calls. -/
def busFunctions (conf : ConfigSpace) (bus : Byte) : List PciFunction :=
  deviceNumbers.flatMap (deviceFunctions conf bus)

/-- The buses at which the scan starts : bus `0`, or those with the numbers of the functions
of the host controller up to the first that is there. -/
def startBuses (conf : ConfigSpace) : List Byte :=
  if getHeaderType conf 0 0 0 &&& 0x80 = 0 then [0]
  else functionNumbers.takeWhile fun function => getVendorID conf 0 0 function = 0xFFFF

/-! ## The scan is a walk -/

/-- A scan, with these calls behind it, that adds the calls of a walk and keeps the headers,
or does not end as the walk does not. -/
def Follows (conf : ConfigSpace) (calls : List PciFunction) :
    Option PciState → Option (List PciFunction) → Prop :=
  Option.Rel fun s t => s.calls = calls ++ t ∧ SameHeaders conf s.conf

section Follows

variable {conf : ConfigSpace}

/-- A part of the scan that makes no call follows the empty list. -/
theorem Follows.skip {s : PciState} (h : SameHeaders conf s.conf) :
    Follows conf s.calls (some s) (some []) :=
  .some ⟨(List.append_nil _).symm, h⟩

/-- One scan after another. -/
theorem Follows.bind {calls : List PciFunction} {o : Option PciState}
    {t t' : Option (List PciFunction)} (h : Follows conf calls o t)
    {k : PciState → Option PciState}
    (hk : ∀ s, SameHeaders conf s.conf → Follows conf s.calls (k s) t') :
    Follows conf calls (o.bind k) (t.bind fun u => t'.map (u ++ ·)) := by
  cases h with
  | none => exact .none
  | @some s u hs =>
    have hnext := hk s hs.2
    rw [Option.bind_some, Option.bind_some]
    cases hrun : k s with
    | none =>
      rw [hrun] at hnext
      cases hnext
      exact .none
    | some s' =>
      rw [hrun] at hnext
      cases hnext with
      | some hs' => exact .some ⟨by rw [hs'.1, hs.1, List.append_assoc], hs'.2⟩

/-- The scan returns when the walk does. -/
theorem Follows.isSome_iff {calls : List PciFunction} {o : Option PciState}
    {t : Option (List PciFunction)} (h : Follows conf calls o t) : o.isSome ↔ t.isSome := by
  cases h <;> rfl

/-- A scan that ends has made the calls of a walk that ends. -/
theorem Follows.exists_iff {calls : List PciFunction} {o : Option PciState}
    {t : Option (List PciFunction)} (h : Follows conf calls o t) (u : List PciFunction) :
    (∃ s, o = some s ∧ s.calls = calls ++ u) ↔ t = some u := by
  cases h with
  | none => exact iff_of_false (fun ⟨_, hs, _⟩ => nomatch hs) (fun hu => nomatch hu)
  | @some s t hs =>
    constructor
    · rintro ⟨s', hs', hcalls⟩
      obtain rfl := Option.some.inj hs'
      rw [List.append_cancel_left (hs.1.symm.trans hcalls)]
    · intro hu
      obtain rfl := Option.some.inj hu
      exact ⟨s, rfl, hs.1⟩

/-- A loop follows the lists of its rounds. -/
theorem follows_foldlM {α : Type} {body : PciState → α → Option PciState}
    {g : α → Option (List PciFunction)}
    (h : ∀ a s, SameHeaders conf s.conf → Follows conf s.calls (body s a) (g a)) (as : List α)
    (s : PciState) (hs : SameHeaders conf s.conf) :
    Follows conf s.calls (as.foldlM body s) (collect g as) := by
  induction as generalizing s with
  | nil => exact .skip hs
  | cons a as ih => exact (h a s hs).bind ih

/-- Setting a function up makes no further call. -/
theorem setUpFunction_calls (bus device function baseClass subClass : Byte) (s : PciState) :
    (setUpFunction bus device function baseClass subClass s).calls = s.calls := by
  simp only [setUpFunction, apply_ite PciState.calls, ite_self]

/-- Only for a SATA controller is the command register written. -/
theorem setUpFunction_conf (bus device function baseClass subClass : Byte) (s : PciState) :
    (setUpFunction bus device function baseClass subClass s).conf =
      if baseClass = 1 ∧ subClass = 6 then
        pciConfigDoCommand s.conf bus device function (pciCommandMemory ||| pciCommandMaster) true
      else s.conf := by
  simp only [setUpFunction, apply_ite PciState.conf, ite_self]

theorem sameHeaders_setUpFunction (bus device function baseClass subClass : Byte) (s : PciState) :
    SameHeaders s.conf (setUpFunction bus device function baseClass subClass s).conf := by
  rw [setUpFunction_conf]
  split_ifs
  · exact sameHeaders_pciConfigDoCommand s.conf bus device function _ true
  · exact fun _ _ => rfl

/-- What comes after the scan behind a function adds no calls. -/
theorem Follows.afterwards {calls : List PciFunction} {f : PciFunction} {o : Option PciState}
    {t : Option (List PciFunction)} (h : Follows conf (calls ++ [f]) o t)
    (baseClass subClass : Byte) :
    Follows conf calls (o.map (setUpFunction f.bus f.device f.function baseClass subClass))
      (t.map (f :: ·)) := by
  cases h with
  | none => exact .none
  | some hs =>
    refine .some ⟨?_, hs.2.trans (sameHeaders_setUpFunction _ _ _ baseClass subClass _)⟩
    rw [setUpFunction_calls, hs.1, List.append_assoc]
    rfl

section Calls

variable {scan : Byte → PciState → Option PciState} {w : Byte → Option (List PciFunction)}
  (h : ∀ bus s, SameHeaders conf s.conf → Follows conf s.calls (scan bus s) (w bus))

include h

/-- `checkFunction` is the visit of a function : its call, and the walk of the bus behind it
when it is a bridge. -/
theorem follows_checkFunction (bus device function : Byte) (s : PciState)
    (hs : SameHeaders conf s.conf) :
    Follows conf s.calls (checkFunction scan bus device function s)
      (visit (secondaryOf conf) w ⟨bus, device, function⟩) := by
  have hbase : getBaseClass s.conf bus device function = getBaseClass conf bus device function := by
    rw [getBaseClass, getBaseClass, hs.readWord (by decide)]
  have hsub : getSubClass s.conf bus device function = getSubClass conf bus device function := by
    rw [getSubClass, getSubClass, hs.readWord (by decide)]
  have hsecondary :
      getSecondaryBus s.conf bus device function = getSecondaryBus conf bus device function := by
    rw [getSecondaryBus, getSecondaryBus, hs.readWord (by decide)]
  let called : PciState := { s with calls := s.calls ++ [⟨bus, device, function⟩] }
  rw [checkFunction, visit, secondaryOf]
  dsimp only
  rw [hbase, hsub, hsecondary]
  split_ifs with hbridge
  · exact (h _ called hs).afterwards _ _
  · exact (Follows.skip (s := called) hs).afterwards _ _

/-- The other functions of a device, one by one. -/
theorem follows_laterFunction (bus device function : Byte) (s : PciState)
    (hs : SameHeaders conf s.conf) :
    Follows conf s.calls
      (if getVendorID s.conf bus device function ≠ 0xFFFF then
        checkFunction scan bus device function s else some s)
      (collect (visit (secondaryOf conf) w) (laterFunction conf bus device function)) := by
  rw [hs.getVendorID_eq, laterFunction]
  split_ifs with hpresent
  · rw [collect_singleton]
    exact follows_checkFunction h bus device function s hs
  · exact .skip hs

/-- `checkDevice` visits the functions of the device. -/
theorem follows_checkDevice (bus device : Byte) (s : PciState) (hs : SameHeaders conf s.conf) :
    Follows conf s.calls (checkDevice scan bus device s)
      (collect (visit (secondaryOf conf) w) (deviceFunctions conf bus device)) := by
  rw [checkDevice, deviceFunctions, hs.getVendorID_eq]
  split_ifs with habsent hmulti
  · exact .skip hs
  · refine (follows_checkFunction h bus device 0 s hs).bind fun s hs => ?_
    rw [hs.getHeaderType_eq, if_pos hmulti, collect_flatMap]
    exact follows_foldlM (follows_laterFunction h bus device) _ s hs
  · refine (follows_checkFunction h bus device 0 s hs).bind fun s hs => ?_
    rw [hs.getHeaderType_eq, if_neg hmulti]
    exact .skip hs

/-- The loop of `checkAllBuses` walks the buses that the scan starts at. -/
theorem follows_hostLoop (functions : List Byte) (s : PciState) (hs : SameHeaders conf s.conf) :
    Follows conf s.calls (hostLoop scan functions s)
      (collect w (functions.takeWhile fun function => getVendorID conf 0 0 function = 0xFFFF)) := by
  induction functions generalizing s with
  | nil => exact .skip hs
  | cons function functions ih =>
    rw [hostLoop, hs.getVendorID_eq, List.takeWhile_cons]
    by_cases habsent : getVendorID conf 0 0 function = 0xFFFF
    · rw [if_neg (not_not.2 habsent), if_pos (decide_eq_true habsent)]
      exact (h function s hs).bind ih
    · rw [if_pos habsent, if_neg (by simpa using habsent)]
      exact .skip hs

end Calls

/-- `checkBus` is the walk of the bus. -/
theorem follows_checkBus (conf : ConfigSpace) (n : ℕ) (bus : Byte) (s : PciState)
    (hs : SameHeaders conf s.conf) :
    Follows conf s.calls (checkBus n bus s)
      (walk (busFunctions conf) (secondaryOf conf) n bus) := by
  induction n generalizing bus s with
  | zero => exact .none
  | succ n ih =>
    rw [checkBus, walk, busFunctions, collect_flatMap]
    exact follows_foldlM (fun device s hs => follows_checkDevice ih bus device s hs) _ s hs

/-- The scan walks the buses from its start buses on. -/
theorem follows_checkAllBuses (n : ℕ) (s : PciState) :
    Follows s.conf s.calls (checkAllBuses n s)
      (collect (walk (busFunctions s.conf) (secondaryOf s.conf) n) (startBuses s.conf)) := by
  have hsame : SameHeaders s.conf s.conf := fun _ _ => rfl
  rw [checkAllBuses, startBuses]
  split_ifs with hsingle
  · rw [collect_singleton]
    exact follows_checkBus s.conf n 0 s hsame
  · exact follows_hostLoop (follows_checkBus s.conf n) functionNumbers s hsame

end Follows

end Scorch
