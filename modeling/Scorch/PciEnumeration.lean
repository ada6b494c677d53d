import Mathlib.Data.FinEnum
import Scorch.PciScan

/-!
# Which functions the scan finds

The buses to be scanned are those that bridges lead to from the host buses : bus `0`, or, if
the host controller has several functions, a bus for each of them. The loop over these
functions stops at the first one that is there instead of the first that is not, so the scan
finds every function only if there is a single host controller, or nothing to be found
(`enumeratesOnce_iff`).

Nothing keeps the scan from a bus that it is scanning already. It ends exactly when no bus
that it comes to is behind itself (`checkAllBuses_terminates_iff`).

That every function comes once is a fact about walks of forests. What is special to the bus is that
a bus has one way to it, and which functions and bridges a scan starts from.
-/

open ByteMemory ForestWalk Acyclic Relation

namespace Scorch

/-! ## Present functions -/

/-- Function `0` of a device that is there, or another function that is there of a device
with several. -/
structure PresentFunction (conf : ConfigSpace) (f : PciFunction) : Prop where
  device : f.device < 32
  function : f.function < 8
  vendor : getVendorID conf f.bus f.device 0 ≠ 0xFFFF
  later : f.function ≠ 0 → getHeaderType conf f.bus f.device 0 &&& 0x80 ≠ 0 ∧
    getVendorID conf f.bus f.device f.function ≠ 0xFFFF

/-- No device of the bus is there. -/
def EmptyBus (conf : ConfigSpace) (bus : Byte) : Prop :=
  ∀ device < 32, getVendorID conf bus device 0 = 0xFFFF

section Functions

variable {conf : ConfigSpace}

/-- The loop over the devices of a bus runs to `31`. -/
theorem mem_deviceNumbers {device : Byte} : device ∈ deviceNumbers ↔ device < 32 := by
  rw [deviceNumbers, List.mem_map]
  constructor
  · rintro ⟨k, hk, rfl⟩
    have := List.mem_range.1 hk
    bv_omega
  · intro h
    refine ⟨device.toNat, List.mem_range.2 h, ?_⟩
    rw [BitVec.ofNat_toNat, BitVec.setWidth_eq]

/-- The loop over the functions of a device runs to `7`. -/
theorem mem_functionNumbers {function : Byte} : function ∈ functionNumbers ↔ function < 8 := by
  simp only [functionNumbers, List.mem_cons, List.not_mem_nil, or_false]
  bv_omega

/-- A function after the first is called for when it answers. -/
theorem mem_laterFunction {bus device function : Byte} {f : PciFunction} :
    f ∈ laterFunction conf bus device function ↔
      f = ⟨bus, device, function⟩ ∧ getVendorID conf bus device function ≠ 0xFFFF := by
  rw [laterFunction]
  split_ifs with h
  · rw [List.mem_singleton, and_iff_left h]
  · exact iff_of_false List.not_mem_nil fun hf => h hf.2

/-- The functions after the first that are there. -/
theorem mem_laterFunctions {bus device : Byte} {f : PciFunction} :
    f ∈ [1, 2, 3, 4, 5, 6, 7].flatMap (laterFunction conf bus device) ↔
      f.bus = bus ∧ f.device = device ∧ f.function < 8 ∧ f.function ≠ 0 ∧
        getVendorID conf bus device f.function ≠ 0xFFFF := by
  have hrest : ∀ function : Byte,
      function ∈ [(1 : Byte), 2, 3, 4, 5, 6, 7] ↔ function < 8 ∧ function ≠ 0 := by
    intro function
    simp only [List.mem_cons, List.not_mem_nil, or_false]
    bv_omega
  simp only [List.mem_flatMap, mem_laterFunction, hrest]
  constructor
  · rintro ⟨function, ⟨hlt, hne⟩, rfl, hvendor⟩
    exact ⟨rfl, rfl, hlt, hne, hvendor⟩
  · rintro ⟨rfl, rfl, hlt, hne, hvendor⟩
    exact ⟨f.function, ⟨hlt, hne⟩, rfl, hvendor⟩

theorem zero_lt_eight : (0 : Byte) < 8 := by decide

/-- The functions that a device is called for : the first, and the others that answer when it
says that it has several. -/
theorem mem_deviceFunctions {bus device : Byte} {f : PciFunction} :
    f ∈ deviceFunctions conf bus device ↔
      f.bus = bus ∧ f.device = device ∧ f.function < 8 ∧ getVendorID conf bus device 0 ≠ 0xFFFF ∧
        (f.function ≠ 0 → getHeaderType conf bus device 0 &&& 0x80 ≠ 0 ∧
          getVendorID conf bus device f.function ≠ 0xFFFF) := by
  rw [deviceFunctions]
  split_ifs with habsent hmulti
  · exact iff_of_false List.not_mem_nil fun h => h.2.2.2.1 habsent
  · rw [List.mem_cons, mem_laterFunctions]
    constructor
    · rintro (rfl | ⟨hbus, hdevice, hfunction, hne, hvendor⟩)
      · exact ⟨rfl, rfl, zero_lt_eight, habsent, fun hne => absurd rfl hne⟩
      · exact ⟨hbus, hdevice, hfunction, habsent, fun _ => ⟨hmulti, hvendor⟩⟩
    · rintro ⟨hbus, hdevice, hfunction, -, hlater⟩
      by_cases hzero : f.function = 0
      · exact Or.inl (PciFunction.ext hbus hdevice hzero)
      · exact Or.inr ⟨hbus, hdevice, hfunction, hzero, (hlater hzero).2⟩
  · rw [List.mem_singleton]
    constructor
    · rintro rfl
      exact ⟨rfl, rfl, zero_lt_eight, habsent, fun hne => absurd rfl hne⟩
    · rintro ⟨hbus, hdevice, -, -, hlater⟩
      exact PciFunction.ext hbus hdevice (by_contra fun hne => hmulti (hlater hne).1)

/-- The scan of a bus goes over the present functions. -/
theorem mem_busFunctions {bus : Byte} {f : PciFunction} :
    f ∈ busFunctions conf bus ↔ f.bus = bus ∧ PresentFunction conf f := by
  rw [busFunctions, List.mem_flatMap]
  constructor
  · rintro ⟨device, hdevice, hf⟩
    obtain ⟨rfl, rfl, hfunction, hvendor, hlater⟩ := mem_deviceFunctions.1 hf
    exact ⟨rfl, mem_deviceNumbers.1 hdevice, hfunction, hvendor, hlater⟩
  · rintro ⟨rfl, hf⟩
    exact ⟨f.device, mem_deviceNumbers.2 hf.device, mem_deviceFunctions.2
      ⟨rfl, rfl, hf.function, hf.vendor, hf.later⟩⟩

theorem nodup_deviceNumbers : deviceNumbers.Nodup := by
  refine List.nodup_range.map_on fun k hk k' hk' h => ?_
  have := List.mem_range.1 hk
  have := List.mem_range.1 hk'
  bv_omega

/-- No function of a device is called for twice. -/
theorem nodup_deviceFunctions (bus device : Byte) : (deviceFunctions conf bus device).Nodup := by
  have hlater : ([1, 2, 3, 4, 5, 6, 7].flatMap (laterFunction conf bus device)).Nodup := by
    have hnumbers : [(1 : Byte), 2, 3, 4, 5, 6, 7].Nodup := by decide
    refine List.nodup_flatMap.2
      ⟨fun function _ => ?_, hnumbers.imp fun {g g'} hne f hf hf' => hne ?_⟩
    · rw [laterFunction]
      split_ifs
      · exact List.nodup_singleton _
      · exact List.nodup_nil
    · have hg := congrArg PciFunction.function (mem_laterFunction.1 hf).1
      exact hg.symm.trans (congrArg PciFunction.function (mem_laterFunction.1 hf').1)
  rw [deviceFunctions]
  split_ifs
  · exact List.nodup_nil
  · exact List.nodup_cons.2 ⟨fun hmem => (mem_laterFunctions.1 hmem).2.2.2.1 rfl, hlater⟩
  · exact List.nodup_singleton _

/-- A function belongs to one bus, and comes once there. -/
theorem owned_busFunctions (conf : ConfigSpace) : Owned (busFunctions conf) PciFunction.bus where
  owner_eq := fun hf => (mem_busFunctions.1 hf).1
  nodup := by
    intro bus
    refine List.nodup_flatMap.2 ⟨fun device _ => nodup_deviceFunctions bus device, ?_⟩
    refine nodup_deviceNumbers.imp fun {d d'} hne f hf hf' => hne ?_
    exact (mem_deviceFunctions.1 hf).2.1.symm.trans (mem_deviceFunctions.1 hf').2.1

/-- On an empty bus nothing is called for. -/
theorem emptyBus_iff {bus : Byte} : EmptyBus conf bus ↔ busFunctions conf bus = [] := by
  rw [List.eq_nil_iff_forall_not_mem]
  constructor
  · intro h f hf
    obtain ⟨rfl, hpresent⟩ := mem_busFunctions.1 hf
    exact hpresent.vendor (h f.device hpresent.device)
  · intro h device hdevice
    by_contra hvendor
    have hpresent : PresentFunction conf ⟨bus, device, 0⟩ :=
      ⟨hdevice, zero_lt_eight, hvendor, fun hne => absurd rfl hne⟩
    exact h _ (mem_busFunctions.2 ⟨rfl, hpresent⟩)

end Functions

/-! ## Buses -/

/-- The host buses : bus `0`, or those of the functions of the host controller. -/
def hostBuses (conf : ConfigSpace) : List Byte :=
  if getHeaderType conf 0 0 0 &&& 0x80 = 0 then [0]
  else functionNumbers.filter fun function => getVendorID conf 0 0 function ≠ 0xFFFF

/-- Bridges lead to the bus from a host bus. -/
def ReachableBus (conf : ConfigSpace) (bus : Byte) : Prop :=
  Reached (busFunctions conf) (secondaryOf conf) (hostBuses conf) bus

/-- The bridges on the reachable buses form trees below the host buses. -/
structure BridgeTrees (conf : ConfigSpace) : Prop where
  distinct : ∀ {f g bus}, ReachableBus conf f.bus → ReachableBus conf g.bus →
    PresentFunction conf f → PresentFunction conf g →
      secondaryOf conf f = some bus → secondaryOf conf g = some bus → f = g
  below : ∀ {f bus}, ReachableBus conf f.bus → PresentFunction conf f →
    secondaryOf conf f = some bus → bus ≠ 0 ∧ bus ∉ hostBuses conf

/-- The scan ends, and calls `checkFunction` for every present function on a reachable bus
once, and for nothing else. -/
def EnumeratesOnce (s : PciState) : Prop :=
  ∃ n s' calls, checkAllBuses n s = some s' ∧ s'.calls = s.calls ++ calls ∧ calls.Nodup ∧
    ∀ f, f ∈ calls ↔ PresentFunction s.conf f ∧ ReachableBus s.conf f.bus

section Buses

variable {conf : ConfigSpace}

/-- The host buses are pairwise different. -/
theorem nodup_hostBuses (conf : ConfigSpace) : (hostBuses conf).Nodup := by
  have hnumbers : functionNumbers.Nodup := by decide
  rw [hostBuses]
  split_ifs
  · exact List.nodup_singleton 0
  · exact hnumbers.filter _

/-- Bridge trees are a forest in the sense of the walk. -/
theorem BridgeTrees.forest (h : BridgeTrees conf) :
    Forest (busFunctions conf) (secondaryOf conf) (hostBuses conf) where
  nodup := nodup_hostBuses conf
  root := by
    rintro b c hb ⟨f, hf, hc⟩
    obtain ⟨rfl, hpresent⟩ := mem_busFunctions.1 hf
    exact (h.below hb hpresent hc).2
  unique := by
    intro b b' c f g hb hb' hf hg hfc hgc
    obtain ⟨rfl, hpresent⟩ := mem_busFunctions.1 hf
    obtain ⟨rfl, hpresent'⟩ := mem_busFunctions.1 hg
    exact h.distinct hb hb' hpresent hpresent' hfc hgc

/-- What a sorted list has before the first element without a property. -/
theorem mem_takeWhile_of_sorted {p : Byte → Bool} {l : List Byte} (hl : l.Pairwise (· < ·))
    (b : Byte) : b ∈ l.takeWhile p ↔ b ∈ l ∧ ∀ a ∈ l, a ≤ b → p a := by
  induction l with
  | nil => simp
  | cons a l ih =>
    obtain ⟨ha, hl⟩ := List.pairwise_cons.1 hl
    rw [List.takeWhile_cons]
    split_ifs with hp
    · rw [List.mem_cons, ih hl, List.mem_cons, List.forall_mem_cons]
      constructor
      · rintro (rfl | ⟨hb, hall⟩)
        · refine ⟨Or.inl rfl, fun _ => hp, fun c hc hcb => ?_⟩
          have := ha c hc
          bv_omega
        · exact ⟨Or.inr hb, fun _ => hp, hall⟩
      · rintro ⟨rfl | hb, -, hall⟩
        · exact Or.inl rfl
        · exact Or.inr ⟨hb, hall⟩
    · refine iff_of_false List.not_mem_nil fun ⟨hb, hall⟩ => hp (hall a List.mem_cons_self ?_)
      rcases List.mem_cons.1 hb with rfl | hb
      · exact BitVec.le_refl b
      · exact BitVec.le_of_lt (ha b hb)

/-- With several host functions, the scan starts at the buses before the first one that answers. -/
theorem mem_startBuses_of_multi (hmulti : getHeaderType conf 0 0 0 &&& 0x80 ≠ 0) {bus : Byte} :
    bus ∈ startBuses conf ↔ bus < 8 ∧ ∀ function ≤ bus, getVendorID conf 0 0 function = 0xFFFF := by
  have hsorted : functionNumbers.Pairwise (· < ·) := by decide
  rw [startBuses, if_neg hmulti, mem_takeWhile_of_sorted hsorted]
  simp only [mem_functionNumbers, decide_eq_true_eq]
  constructor
  · rintro ⟨hlt, hall⟩
    exact ⟨hlt, fun function hle => hall function (by bv_omega) hle⟩
  · rintro ⟨hlt, hall⟩
    exact ⟨hlt, fun function _ hle => hall function hle⟩

/-- The host buses are those of the functions that answer. -/
theorem mem_hostBuses_of_multi (hmulti : getHeaderType conf 0 0 0 &&& 0x80 ≠ 0) {bus : Byte} :
    bus ∈ hostBuses conf ↔ bus < 8 ∧ getVendorID conf 0 0 bus ≠ 0xFFFF := by
  rw [hostBuses, if_neg hmulti, List.mem_filter, mem_functionNumbers, decide_eq_true_eq]

/-- The calls of the scan are those of a walk from its start buses on. -/
theorem enumeratesOnce_iff_walks (s : PciState) :
    EnumeratesOnce s ↔ ∃ n t,
      collect (walk (busFunctions s.conf) (secondaryOf s.conf) n) (startBuses s.conf) = some t ∧
        t.Nodup ∧ ∀ f, f ∈ t ↔ PresentFunction s.conf f ∧ ReachableBus s.conf f.bus := by
  refine exists_congr fun n => ⟨?_, ?_⟩
  · rintro ⟨s', t, hrun, hcalls, hnodup, hmem⟩
    exact ⟨t, ((follows_checkAllBuses n s).exists_iff t).1 ⟨s', hrun, hcalls⟩, hnodup, hmem⟩
  · rintro ⟨t, hwalk, hnodup, hmem⟩
    obtain ⟨s', hrun, hcalls⟩ := ((follows_checkAllBuses n s).exists_iff t).2 hwalk
    exact ⟨s', t, hrun, hcalls, hnodup, hmem⟩

/-- The functions to be called are the items of the reachable buses. -/
theorem present_reachable_iff {f : PciFunction} :
    PresentFunction conf f ∧ ReachableBus conf f.bus ↔
      ∃ b, ReachableBus conf b ∧ f ∈ busFunctions conf b := by
  simp only [mem_busFunctions]
  constructor
  · rintro ⟨hpresent, hreach⟩
    exact ⟨f.bus, hreach, rfl, hpresent⟩
  · rintro ⟨b, hreach, rfl, hpresent⟩
    exact ⟨hpresent, hreach⟩

/-- From a single host controller the scan finds every function. -/
theorem enumeratesOnce_of_single {s : PciState} (h : BridgeTrees s.conf)
    (hsingle : getHeaderType s.conf 0 0 0 &&& 0x80 = 0) : EnumeratesOnce s := by
  have hhost : hostBuses s.conf = startBuses s.conf := by
    rw [hostBuses, startBuses, if_pos hsingle, if_pos hsingle]
  have hown := owned_busFunctions s.conf
  obtain ⟨n, t, ht⟩ := h.forest.exists_walks hown
  have hnodup := h.forest.nodup_walks hown ht
  refine (enumeratesOnce_iff_walks s).2 ⟨n, t, hhost ▸ ht, hnodup, fun f => ?_⟩
  rw [present_reachable_iff]
  exact mem_walks ht f

/-- With several, a host bus with a function is not found : the scan comes to it over no bus
that it starts at, as no bridge leads to a host bus. -/
theorem busFunctions_host_eq_nil {s : PciState} (h : BridgeTrees s.conf)
    (hmulti : getHeaderType s.conf 0 0 0 &&& 0x80 ≠ 0) (hs : EnumeratesOnce s) {bus : Byte}
    (hbus : bus ∈ hostBuses s.conf) : busFunctions s.conf bus = [] := by
  obtain ⟨n, t, ht, -, hmem⟩ := (enumeratesOnce_iff_walks s).1 hs
  refine List.eq_nil_iff_forall_not_mem.2 fun f hf => ?_
  have hft : f ∈ t := (hmem f).2 (present_reachable_iff.2 ⟨bus, Reached.of_mem hbus, hf⟩)
  obtain ⟨b, ⟨start, hstart, hsb⟩, hfb⟩ := (mem_walks ht f).1 hft
  obtain rfl := (owned_busFunctions s.conf).unique hf hfb
  rcases hsb.cases_tail with rfl | ⟨c, hsc, g, hg, hgb⟩
  · exact ((mem_hostBuses_of_multi hmulti).1 hbus).2
      (((mem_startBuses_of_multi hmulti).1 hstart).2 bus (BitVec.le_refl bus))
  · have hgt : g ∈ t := (mem_walks ht g).2 ⟨c, ⟨start, hstart, hsc⟩, hg⟩
    obtain ⟨hpresent, hreach⟩ := (hmem g).1 hgt
    exact (h.below hreach hpresent hgb).2 hbus

/-- Where nothing is behind the host buses, nothing is to be found. -/
theorem not_reachable_of_empty (hempty : ∀ bus ∈ hostBuses conf, busFunctions conf bus = [])
    (f : PciFunction) : ¬(PresentFunction conf f ∧ ReachableBus conf f.bus) := by
  rw [present_reachable_iff]
  rintro ⟨b, ⟨r, hr, hrb⟩, hf⟩
  rcases hrb.cases_head with rfl | ⟨c, ⟨g, hg, -⟩, -⟩
  · exact List.not_mem_nil (hempty r hr ▸ hf)
  · exact List.not_mem_nil (hempty r hr ▸ hg)

/-- The scan finds nothing where it starts. -/
theorem walks_eq_nil (hempty : ∀ bus ∈ startBuses conf, busFunctions conf bus = []) :
    collect (walk (busFunctions conf) (secondaryOf conf) 1) (startBuses conf) = some [] := by
  refine collect_eq_nil fun bus hbus => ?_
  rw [walk, hempty bus hbus, collect_nil]

end Buses

/-- `checkAllBuses` finds every present function on the reachable buses exactly if there is a
single host controller, or there is nothing on the host buses and on those whose numbers come
before the first function of the host controller. -/
theorem enumeratesOnce_iff {s : PciState} (h : BridgeTrees s.conf) :
    EnumeratesOnce s ↔ getHeaderType s.conf 0 0 0 &&& 0x80 = 0 ∨
      (∀ bus ∈ hostBuses s.conf, EmptyBus s.conf bus) ∧
        ∀ bus < 8, (∀ function ≤ bus, getVendorID s.conf 0 0 function = 0xFFFF) →
          EmptyBus s.conf bus := by
  simp only [emptyBus_iff]
  constructor
  · intro hs
    by_cases hmulti : getHeaderType s.conf 0 0 0 &&& 0x80 = 0
    · exact Or.inl hmulti
    · have hhost : ∀ bus ∈ hostBuses s.conf, busFunctions s.conf bus = [] :=
        fun bus hbus => busFunctions_host_eq_nil h hmulti hs hbus
      refine Or.inr ⟨hhost, fun bus hlt hall => ?_⟩
      obtain ⟨n, t, ht, -, hmem⟩ := (enumeratesOnce_iff_walks s).1 hs
      refine List.eq_nil_iff_forall_not_mem.2 fun f hf => ?_
      have hstart := (mem_startBuses_of_multi hmulti).2 ⟨hlt, hall⟩
      have hft : f ∈ t := (mem_walks ht f).2 ⟨bus, Reached.of_mem hstart, hf⟩
      exact not_reachable_of_empty hhost f ((hmem f).1 hft)
  · rintro (hsingle | ⟨hhost, hskipped⟩)
    · exact enumeratesOnce_of_single h hsingle
    · by_cases hmulti : getHeaderType s.conf 0 0 0 &&& 0x80 = 0
      · exact enumeratesOnce_of_single h hmulti
      · have hnil := walks_eq_nil fun bus hbus =>
          hskipped bus ((mem_startBuses_of_multi hmulti).1 hbus).1
            ((mem_startBuses_of_multi hmulti).1 hbus).2
        refine (enumeratesOnce_iff_walks s).2 ⟨1, [], hnil, List.nodup_nil, fun f => ?_⟩
        exact iff_of_false List.not_mem_nil (not_reachable_of_empty hhost f)

/-- A scan that has called nothing yet. -/
def scanOf (conf : ConfigSpace) : PciState where
  conf := conf
  n8139device := ⟨0, 0, 0, 0, 0, 0, 0⟩
  calls := []
  driverCalls := []

/-- A host controller, and a bridge `0:1:0` to bus `1` with a device `1:0:0` behind it. -/
def bridgeConf : ConfigSpace := fun address =>
  if address = configAddress 0 0 0 0 ∨ address = configAddress 0 1 0 0 ∨
      address = configAddress 1 0 0 0 then 0x12348086
  else if address = configAddress 0 1 0 8 then 0x06040000
  else if address = configAddress 0 1 0 0x18 then 0x00000100
  else if address.setWidth 8 = (0x0C : Byte) then 0
  else 0xFFFFFFFF

theorem bridgeConf_class {a : Word} (ha : a.setWidth 8 = (8 : Byte))
    (hne : a ≠ configAddress 0 1 0 8) : bridgeConf a = 0xFFFFFFFF := by
  rw [bridgeConf, if_neg, if_neg hne, if_neg, if_neg]
  · rw [ha]
    decide
  · rintro rfl
    exact absurd ha (by decide)
  · rintro (rfl | rfl | rfl) <;> exact absurd ha (by decide)

/-- Only the bridge leads to a bus, and to bus `1`. -/
theorem eq_of_secondaryOf_bridgeConf {f : PciFunction} (hf : PresentFunction bridgeConf f)
    {bus : Byte} (h : secondaryOf bridgeConf f = some bus) : f = ⟨0, 1, 0⟩ ∧ bus = 1 := by
  have hclass := class_of_secondaryOf h
  have haddress : configAddress f.bus f.device f.function 8 = configAddress 0 1 0 8 := by
    by_contra hne
    rw [bridgeConf_class (setWidth_configAddress _ _ _ 8) hne] at hclass
    exact absurd hclass (by decide)
  obtain ⟨hbus, hdevice, hfunction⟩ :=
    configAddress_inj hf.device hf.function (by decide) zero_lt_eight haddress
  obtain rfl : f = ⟨0, 1, 0⟩ := PciFunction.ext hbus hdevice hfunction
  have hone : secondaryOf bridgeConf ⟨0, 1, 0⟩ = some 1 := by decide
  exact ⟨rfl, Option.some.inj (h.symm.trans hone)⟩

/-- The bus behind the bridge has no other way to it. -/
theorem bridgeTrees_bridgeConf : BridgeTrees bridgeConf where
  distinct _ _ hf hg hfc hgc :=
    (eq_of_secondaryOf_bridgeConf hf hfc).1.trans (eq_of_secondaryOf_bridgeConf hg hgc).1.symm
  below _ hf hfc := by
    obtain ⟨-, rfl⟩ := eq_of_secondaryOf_bridgeConf hf hfc
    decide

/-- The scan finds the three functions. -/
theorem enumeratesOnce_bridgeConf : EnumeratesOnce (scanOf bridgeConf) :=
  (enumeratesOnce_iff (s := scanOf bridgeConf) bridgeTrees_bridgeConf).2 (Or.inl (by decide))

/-- A host controller with several functions, and nothing else. -/
def multiConf : ConfigSpace := fun address =>
  if address = configAddress 0 0 0 0 then 0x12378086
  else if address = configAddress 0 0 0 8 then 0x06000000
  else if address = configAddress 0 0 0 0x0C then 0x00800000
  else 0xFFFFFFFF

theorem secondaryOf_multiConf (f : PciFunction) : secondaryOf multiConf f = none := by
  refine Option.eq_none_iff_forall_ne_some.2 fun bus h => ?_
  have hclass := class_of_secondaryOf h
  rw [multiConf] at hclass
  split_ifs at hclass <;> exact absurd hclass (by decide)

theorem bridgeTrees_multiConf : BridgeTrees multiConf where
  distinct _ _ _ _ hfc _ := nomatch (secondaryOf_multiConf _).symm.trans hfc
  below _ _ hfc := nomatch (secondaryOf_multiConf _).symm.trans hfc

/-- The scan stops at function `0:0:0` before it calls `checkFunction`. -/
theorem not_enumeratesOnce : ¬∀ s : PciState, BridgeTrees s.conf → EnumeratesOnce s := by
  intro h
  have hhost : 0 ∈ hostBuses multiConf := by decide
  have hnil := busFunctions_host_eq_nil (s := scanOf multiConf) bridgeTrees_multiConf (by decide)
    (h (scanOf multiConf) bridgeTrees_multiConf) hhost
  exact absurd (emptyBus_iff.2 hnil 0 (by decide)) (by decide)

/-! ## Termination -/

/-- A bridge on one bus leads to the other. -/
def Bridged (conf : ConfigSpace) (bus bus' : Byte) : Prop :=
  ∃ f, f.bus = bus ∧ PresentFunction conf f ∧ secondaryOf conf f = some bus'

/-- The buses below one another, in the words of the walk. -/
theorem below_iff_bridged {conf : ConfigSpace} {bus bus' : Byte} :
    Below (busFunctions conf) (secondaryOf conf) bus bus' ↔ Bridged conf bus bus' := by
  simp only [Below, Bridged, mem_busFunctions, and_assoc]

/-- The scan ends when no chain of bridges from a bus that it starts at goes on for ever. -/
theorem checkAllBuses_terminates_iff_acc (s : PciState) :
    (∃ n, (checkAllBuses n s).isSome) ↔
      ∀ bus ∈ startBuses s.conf, Acc (flip (Bridged s.conf)) bus := by
  have hbelow : Below (busFunctions s.conf) (secondaryOf s.conf) = Bridged s.conf := by
    ext bus bus'
    exact below_iff_bridged
  rw [← hbelow, ← isSome_walks_iff_acc]
  exact exists_congr fun n => by rw [(follows_checkAllBuses n s).isSome_iff]

/-- The scan ends exactly when no bus that bridges lead to from a start bus leads back to
itself. -/
theorem checkAllBuses_terminates_iff (s : PciState) :
    (∃ n, (checkAllBuses n s).isSome) ↔
      ∀ bus ∈ startBuses s.conf, AcyclicFrom (Bridged s.conf) bus := by
  rw [checkAllBuses_terminates_iff_acc]
  exact forall₂_congr fun bus _ => acc_iff_acyclicFrom

/-- A bridge `0:0:0` that is not configured : its secondary bus is bus `0`. -/
def unconfiguredConf : ConfigSpace := fun address =>
  if address = configAddress 0 0 0 0 then 0x12348086
  else if address = configAddress 0 0 0 8 then 0x06040000
  else if address = configAddress 0 0 0 0x0C ∨ address = configAddress 0 0 0 0x18 then 0
  else 0xFFFFFFFF

/-- The scan of bus `0` starts the scan of bus `0`. -/
theorem not_checkAllBuses_terminates : ¬∀ s : PciState, ∃ n, (checkAllBuses n s).isSome := by
  intro h
  have hacc := (checkAllBuses_terminates_iff_acc (scanOf unconfiguredConf)).1 (h _) 0 (by decide)
  have hpresent : PresentFunction unconfiguredConf ⟨0, 0, 0⟩ :=
    ⟨by decide, zero_lt_eight, by decide, fun hne => absurd rfl hne⟩
  have hself : Bridged unconfiguredConf 0 0 := ⟨⟨0, 0, 0⟩, rfl, hpresent, by decide⟩
  exact not_self_of_acc hacc hself

end Scorch
