import Scorch.Ahci
import Scorch.Lib.GuardedRun
import Scorch.Lib.MemoryFrame

/-!
# Probing the ports

`probe_port` goes through the ports that are implemented. For each one with a disk it lays out
the memory of the port, a command list, a frame area and thirty-two command tables, and has
the disk identify itself into a buffer at `0x8000`.

The state is the memory, `portbase`, and the registers `CLB` and `FB` of the ports. `identify`
clears the buffer and builds a command, and then the disk, which finds the command by way of
the memory, writes its answer. `probePort` follows the source, and `probeSteps` are its steps
one after the other.
-/

open ByteMemory GuardedRun

namespace Scorch

/-- `AHCI_BASE`. -/
def ahciBase : Word := 0x2000

/-- `AHCI_BUFFER`. -/
def ahciBuffer : Word := 0x8000

/-- `AHCI_PORT_SIZE`. -/
def ahciPortSize : Word := 12288

/-- The controller : its registers, and what the disks answer to a command to identify
themselves. -/
structure Hba where
  cap : Word
  pi : Word
  ports : ℕ → HbaPort
  answer : ℕ → List Byte

/-- The memory, and for each port its registers `clb` and `fb` and its entry of `portbase`. -/
structure Ahci where
  mem : Mem
  portbase : ℕ → Word
  clb : ℕ → Word
  fb : ℕ → Word

/-- The address of a command header of a port. -/
def Ahci.header (s : Ahci) (portno slot : ℕ) : Word :=
  s.clb portno + 32 * BitVec.ofNat 32 slot

/-- `ctba` of a command header. -/
def Ahci.ctba (s : Ahci) (portno slot : ℕ) : Word :=
  s.mem.load32 (s.header portno slot + 8)

/-! ## `port_rebase` -/

/-- The round of the loop for header `i`. -/
def rebaseHeader (base cmdheader : Word) (m : Mem) (i : ℕ) : Mem :=
  let header := cmdheader + 32 * BitVec.ofNat 32 i
  let m := m.store16 (header + 2) 8
  let m := m.store32 (header + 8) (base + ((1 : Word) <<< 10) + (BitVec.ofNat 32 (i + 1) <<< 8))
  let m := m.store32 (header + 12) 0
  m.fill (m.load32 (header + 8)) 0 256

/-- The first `n` rounds of the loop. -/
def rebaseHeaders (base cmdheader : Word) (m : Mem) : ℕ → Mem
  | 0 => m
  | n + 1 => rebaseHeader base cmdheader (rebaseHeaders base cmdheader m n) n

/-- `port_rebase` -/
def Ahci.rebase (s : Ahci) (portno : ℕ) : Ahci :=
  let portbase :=
    if s.portbase portno = 0 then
      Function.update s.portbase portno (ahciBase + ahciPortSize * BitVec.ofNat 32 portno)
    else s.portbase
  let clb := portbase portno
  let fb := portbase portno + ((1 : Word) <<< 10)
  let m := s.mem.fill clb 0 1024
  let m := m.fill fb 0 256
  { mem := rebaseHeaders (portbase portno) clb m 32
    portbase := portbase
    clb := Function.update s.clb portno clb
    fb := Function.update s.fb portno fb }

/-! ## `identify` -/

/-- `memset(AHCI_BUFFER,0,2048)` -/
def Ahci.clearBuffer (s : Ahci) : Ahci :=
  { s with mem := s.mem.fill ahciBuffer 0 2048 }

/-- `memset` clears two kilobytes of `AHCI_BUFFER`. -/
theorem Ahci.mem_clearBuffer (s : Ahci) : s.clearBuffer.mem = s.mem.fill ahciBuffer 0 2048 := by
  rw [clearBuffer]

@[simp] theorem Ahci.portbase_clearBuffer (s : Ahci) : s.clearBuffer.portbase = s.portbase := by
  rw [clearBuffer]

@[simp] theorem Ahci.clb_clearBuffer (s : Ahci) : s.clearBuffer.clb = s.clb := by
  rw [clearBuffer]

/-- The command frame of `identify`, at `cfis`. -/
def identifyFis (m : Mem) (cfis : Word) : Mem :=
  let m := m.store8 cfis fisTypeRegH2d
  let m := m.store8 (cfis + 1) (m (cfis + 1) &&& 0xF0)
  let m := m.store8 (cfis + 3) 1
  let m := m.store8 (cfis + 2) 0xEC
  let m := m.store8 (cfis + 7) 0
  m.store8 (cfis + 1) (m (cfis + 1) ||| 0x80)

/-- The table of `identify`, with the first of its two entries. -/
def identifyTable (m : Mem) (cmdtbl : Word) : Mem :=
  let m := m.fill cmdtbl 0 (144 + (2 - 1) * 16)
  let entry := cmdtbl + 0x80
  let m := m.store32 entry ahciBuffer
  let m := m.store32 (entry + 12) (m.load32 (entry + 12) &&& ~~~0x3FFFFF ||| (512 - 1))
  let m := m.store32 (entry + 12) (m.load32 (entry + 12) ||| ((1 : Word) <<< 31))
  identifyFis m cmdtbl

/-- The header of `identify`. -/
def identifyHeader (m : Mem) (cmdheader : Word) : Mem :=
  let m := m.store8 cmdheader (m cmdheader &&& 0xE0 ||| 5)
  let m := m.store8 cmdheader (m cmdheader &&& ~~~0x40)
  m.store16 (cmdheader + 2) 2

/-- `identify` builds its command on a header. -/
def Ahci.build (s : Ahci) (portno slot : ℕ) : Ahci :=
  let header := s.header portno slot
  let m := identifyHeader s.mem header
  { s with mem := identifyTable m (m.load32 (header + 8)) }

@[simp] theorem Ahci.portbase_build (s : Ahci) (portno slot : ℕ) :
    (s.build portno slot).portbase = s.portbase :=
  rfl

@[simp] theorem Ahci.clb_build (s : Ahci) (portno slot : ℕ) : (s.build portno slot).clb = s.clb :=
  rfl

/-- The disk answers the command of a header. The controller finds the table by the header,
and moves what fits into the first entry. -/
def Ahci.transfer (s : Ahci) (portno slot : ℕ) (answer : List Byte) : Ahci :=
  let entry := s.ctba portno slot + 0x80
  let dba := s.mem.load32 entry
  let dbc := s.mem.load32 (entry + 12) &&& 0x3FFFFF
  { s with mem := s.mem.write dba (answer.take (dbc.toNat + 1)) }

@[simp] theorem Ahci.portbase_transfer (s : Ahci) (portno slot : ℕ) (answer : List Byte) :
    (s.transfer portno slot answer).portbase = s.portbase :=
  rfl

@[simp] theorem Ahci.clb_transfer (s : Ahci) (portno slot : ℕ) (answer : List Byte) :
    (s.transfer portno slot answer).clb = s.clb :=
  rfl

/-- `identify` -/
def identify (hba : Hba) (portno : ℕ) (s : Ahci) : Ahci :=
  let s := s.clearBuffer
  match findCmdslot hba.cap (hba.ports portno) with
  | none => s
  | some slot =>
    let s := s.build portno slot
    if PortHung (hba.ports portno) then s else s.transfer portno slot (hba.answer portno)

theorem portbase_identify (hba : Hba) (portno : ℕ) (s : Ahci) :
    (identify hba portno s).portbase = s.portbase := by
  unfold identify
  dsimp only
  split
  · simp
  · split_ifs <;> simp

/-! ## `probe_port` -/

/-- The loop of `probe_port`, with `n` ports left. -/
def probePortFrom (hba : Hba) : ℕ → ℕ → Word → Ahci → Ahci
  | 0, _, _, s => s
  | n + 1, i, pi, s =>
    let s :=
      if pi &&& 1 ≠ 0 then
        if checkType (hba.ports i) = .sata then identify hba i (s.rebase i) else s
      else s
    probePortFrom hba n (i + 1) (pi >>> 1) s

/-- `probe_port` -/
def probePort (hba : Hba) (s : Ahci) : Ahci :=
  probePortFrom hba 32 0 hba.pi s

/-- `ahci_init` has cleared `portbase`. -/
def Ahci.initial (m : Mem) (clb fb : ℕ → Word) : Ahci where
  mem := m
  portbase := fun _ => 0
  clb := clb
  fb := fb

/-! ## The steps -/

/-- The stores of `probe_port`, one after another. -/
inductive ProbeStep where
  | rebase (portno : ℕ)
  | clear (portno : ℕ)
  | build (portno slot : ℕ)
  | transfer (portno slot : ℕ) (answer : List Byte)

/-- One of them. -/
def probeStep (s : Ahci) : ProbeStep → Ahci
  | .rebase portno => s.rebase portno
  | .clear _ => s.clearBuffer
  | .build portno slot => s.build portno slot
  | .transfer portno slot answer => s.transfer portno slot answer

@[simp] theorem probeStep_rebase (s : Ahci) (portno : ℕ) :
    probeStep s (.rebase portno) = s.rebase portno := by
  rw [probeStep]

@[simp] theorem probeStep_clear (s : Ahci) (portno : ℕ) :
    probeStep s (.clear portno) = s.clearBuffer := by
  rw [probeStep]

@[simp] theorem probeStep_build (s : Ahci) (portno slot : ℕ) :
    probeStep s (.build portno slot) = s.build portno slot := by
  rw [probeStep]

@[simp] theorem probeStep_transfer (s : Ahci) (portno slot : ℕ) (answer : List Byte) :
    probeStep s (.transfer portno slot answer) = s.transfer portno slot answer := by
  rw [probeStep]

/-- The steps of `identify`. -/
def identifySteps (hba : Hba) (portno : ℕ) : List ProbeStep :=
  .clear portno ::
    match findCmdslot hba.cap (hba.ports portno) with
    | none => []
    | some slot =>
      .build portno slot ::
        if PortHung (hba.ports portno) then [] else [.transfer portno slot (hba.answer portno)]

/-- The port is implemented and has a disk. -/
def Hba.HasDisk (hba : Hba) (portno : ℕ) : Prop :=
  hba.pi.getLsbD portno = true ∧ checkType (hba.ports portno) = .sata

instance (hba : Hba) (portno : ℕ) : Decidable (hba.HasDisk portno) :=
  inferInstanceAs (Decidable (_ ∧ _))

/-- The ports that `probe_port` lays out. -/
def Hba.disks (hba : Hba) : List ℕ :=
  (List.range 32).filter fun portno => hba.HasDisk portno

/-- The steps of `probe_port`. -/
def probeSteps (hba : Hba) : List ProbeStep :=
  hba.disks.flatMap fun portno => .rebase portno :: identifySteps hba portno

/-- `identify` is the run of its steps. -/
theorem run_identifySteps (hba : Hba) (portno : ℕ) (s : Ahci) :
    run probeStep s (identifySteps hba portno) = identify hba portno s := by
  unfold identifySteps identify
  cases findCmdslot hba.cap (hba.ports portno) with
  | none => simp
  | some slot =>
    dsimp only
    split_ifs <;> simp

/-- The bit of the mask that the loop looks at in round `i`. -/
theorem shiftRight_and_one_ne_zero_iff (pi : Word) (i : ℕ) :
    (pi >>> i) &&& 1 ≠ 0 ↔ pi.getLsbD i = true := by
  have hand := BitVec.and_one_eq_setWidth_ofBool_getLsbD (x := pi >>> i)
  rw [BitVec.getLsbD_ushiftRight, Nat.add_zero] at hand
  rw [show pi >>> i &&& 1 = _ from hand]
  cases pi.getLsbD i <;> decide

/-- The loop of `probe_port`, from any port on, is the run of the steps of the disks that it
finds. -/
theorem probePortFrom_eq_run (hba : Hba) (n i : ℕ) (s : Ahci) :
    probePortFrom hba n i (hba.pi >>> i) s =
      run probeStep s (((List.range' i n).filter fun portno => hba.HasDisk portno).flatMap
        fun portno => .rebase portno :: identifySteps hba portno) := by
  induction n generalizing i s with
  | zero => rfl
  | succ n ih =>
    rw [probePortFrom, List.range'_succ, ← BitVec.shiftRight_add, ih]
    by_cases hbit : hba.pi.getLsbD i = true
    · rw [if_pos ((shiftRight_and_one_ne_zero_iff hba.pi i).2 hbit)]
      by_cases hsata : checkType (hba.ports i) = .sata
      · have hdisk : decide (hba.HasDisk i) = true := decide_eq_true ⟨hbit, hsata⟩
        rw [if_pos hsata, List.filter_cons_of_pos (p := fun k => decide (hba.HasDisk k)) hdisk,
          List.flatMap_cons, List.cons_append, run_cons, run_append, run_identifySteps]
        rfl
      · have hdisk : ¬decide (hba.HasDisk i) = true := by simpa using fun h => hsata h.2
        rw [if_neg hsata, List.filter_cons_of_neg (p := fun k => decide (hba.HasDisk k)) hdisk]
    · have hdisk : ¬decide (hba.HasDisk i) = true := by simpa using fun h => hbit h.1
      rw [if_neg (mt (shiftRight_and_one_ne_zero_iff hba.pi i).1 hbit),
        List.filter_cons_of_neg (p := fun k => decide (hba.HasDisk k)) hdisk]

/-- `probe_port` performs its steps. -/
theorem probePort_eq_run (hba : Hba) (s : Ahci) :
    probePort hba s = run probeStep s (probeSteps hba) := by
  have h := probePortFrom_eq_run hba 32 0 s
  rw [BitVec.ushiftRight_zero] at h
  rw [probePort, h, probeSteps, Hba.disks, List.range_eq_range']

end Scorch
