import Scorch.AhciProbe

/-!
# The memory of the ports

`port_rebase` gives port `p` the memory from `0x2000 + 12288 * p` on. The areas it lays out
there end before the memory of the next port, and the buffer of `identify`, the `2048` bytes
at `0x8000`, lies in the memory of port 2 and of no other.

A step of `probe_port` is safe when it leaves the areas of the ports that are laid out alone,
if it clears the buffer or transfers into it, and when the header points to its own table, if
it builds a command. `probe_port` takes only safe steps just when port 2 is not implemented or
has no disk (`probe_safe_iff`) : on port 2, `identify` clears the whole command list that
`port_rebase` has laid out before it.

The blocks of the ports do not meet, but the buffer lies in the block of port `2` : the third of
them starts at `0x8000`. This is why the invariant leaves that port out, and why a disk at it is
the one that goes wrong.
-/

open ByteMemory GuardedRun Mem

namespace Scorch

/-! ## The layout -/

/-- The memory of a port. -/
def portBase (p : ℕ) : Word :=
  ahciBase + ahciPortSize * BitVec.ofNat 32 p

/-- The address of command header `i` of a port that is laid out. -/
def cmdHeader (p i : ℕ) : Word :=
  portBase p + 32 * BitVec.ofNat 32 i

/-- The address of command table `i`. -/
def cmdTable (p i : ℕ) : Word :=
  portBase p + ((1 : Word) <<< 10) + (BitVec.ofNat 32 (i + 1) <<< 8)

/-- The command list, the frame area and the command tables of a port. -/
def portArea (p : ℕ) : Set Word :=
  {x | x ∈ block (portBase p) 1024 ∨ x ∈ block (portBase p + ((1 : Word) <<< 10)) 256 ∨
    ∃ i < 32, x ∈ block (cmdTable p i) 256}

section Layout

variable {p q i j : ℕ}

/-- Each port has twelve kilobytes, from `AHCI_BASE` on. -/
theorem toNat_portBase (hp : p < 32) : (portBase p).toNat = 0x2000 + 12288 * p := by
  unfold portBase ahciBase ahciPortSize
  bv_omega

/-- The headers of a port are at its start. -/
theorem toNat_cmdHeader (hp : p < 32) (hi : i < 32) :
    (cmdHeader p i).toNat = 0x2000 + 12288 * p + 32 * i := by
  have hbase := toNat_portBase hp
  unfold cmdHeader
  bv_omega

theorem toNat_cmdTable (hp : p < 32) (hi : i < 32) :
    (cmdTable p i).toNat = 0x2000 + 12288 * p + 1024 + 256 * (i + 1) := by
  have hbase := toNat_portBase hp
  have hshift : (BitVec.ofNat 32 (i + 1) <<< 8).toNat = 256 * (i + 1) := by
    rw [BitVec.toNat_shiftLeft, Nat.shiftLeft_eq, BitVec.toNat_ofNat]
    omega
  have hfb : ((1 : Word) <<< 10).toNat = 1024 := rfl
  unfold cmdTable
  rw [BitVec.toNat_add, BitVec.toNat_add, hbase, hfb, hshift]
  omega

/-- The areas fill the first `0x2500` bytes of the memory of the port. -/
theorem portArea_subset (hp : p < 32) : portArea p ⊆ block (portBase p) 0x2500 := by
  have hbase := toNat_portBase hp
  rintro x (hx | hx | ⟨i, hi, hx⟩)
  · exact block_subset le_rfl (by omega) (by omega) hx
  · refine block_subset ?_ ?_ (by omega) hx
    all_goals
      have hfb : ((1 : Word) <<< 10).toNat = 1024 := rfl
      rw [BitVec.toNat_add, hfb]
      omega
  · have htable := toNat_cmdTable hp hi
    exact block_subset (by omega) (by omega) (by omega) hx

end Layout

/-! ## Laying out a port -/

section Rebase

variable {p i : ℕ}

/-- What `port_rebase` does for one header : length, address of the table, and a clear table. -/
theorem rebaseHeader_eq (m : Mem) :
    rebaseHeader (portBase p) (portBase p) m i =
      (((m.store16 (cmdHeader p i + 2) 8).store32 (cmdHeader p i + 8) (cmdTable p i)).store32
        (cmdHeader p i + 12) 0).fill (cmdTable p i) 0 256 := by
  have hapart : Apart (cmdHeader p i + 12) (cmdHeader p i + 8) := by
    unfold Apart
    bv_omega
  unfold rebaseHeader
  dsimp only
  rw [← cmdHeader, ← cmdTable, load32_store32_of_apart hapart, load32_store32_self]

/-- A round writes to its header and its table. -/
theorem rebaseHeader_frame (hp : p < 32) (hi : i < 32) (m : Mem) :
    Frame (block (cmdHeader p i) 16 ∪ block (cmdTable p i) 256) m
      (rebaseHeader (portBase p) (portBase p) m i) := by
  have hheader := toNat_cmdHeader hp hi
  have hin : ∀ {a n}, (cmdHeader p i).toNat ≤ a.toNat → a.toNat + n ≤ (cmdHeader p i).toNat + 16 →
      block a n ⊆ block (cmdHeader p i) 16 ∪ block (cmdTable p i) 256 := fun hle hend =>
    (block_subset hle hend (by omega)).trans Set.subset_union_left
  rw [rebaseHeader_eq]
  refine (((frame_store16 _ _ _).mono (hin ?_ ?_)).trans ((frame_store32 _ _ _).mono
    (hin ?_ ?_))).trans (((frame_store32 _ _ _).mono (hin ?_ ?_)).trans
      ((frame_fill _ _ _ (by omega)).mono Set.subset_union_right))
  all_goals bv_omega

/-- The header points to its table afterwards. -/
theorem rebaseHeader_ctba (hp : p < 32) (hi : i < 32) (m : Mem) :
    (rebaseHeader (portBase p) (portBase p) m i).load32 (cmdHeader p i + 8) = cmdTable p i := by
  have hheader := toNat_cmdHeader hp hi
  have htable := toNat_cmdTable hp hi
  have hapart : Apart (cmdHeader p i + 12) (cmdHeader p i + 8) := by
    unfold Apart
    bv_omega
  have hout : ∀ x ∈ block (cmdHeader p i + 8) 4, x ∉ block (cmdTable p i) 256 := fun x hx =>
    notMem_block_of_apart (Or.inl (by bv_omega)) (by bv_omega) (by omega) hx
  rw [rebaseHeader_eq, load32_fill_of_apart (by omega) hout, load32_store32_of_apart hapart,
    load32_store32_self]

/-- The other rounds leave a header alone. -/
theorem rebaseHeader_ctba_of_ne (hp : p < 32) (hi : i < 32) {j : ℕ} (hj : j < 32) (hne : j ≠ i)
    (m : Mem) :
    (rebaseHeader (portBase p) (portBase p) m i).load32 (cmdHeader p j + 8) =
      m.load32 (cmdHeader p j + 8) := by
  have hheader := toNat_cmdHeader hp hi
  have htable := toNat_cmdTable hp hi
  have hother := toNat_cmdHeader hp hj
  refine (rebaseHeader_frame hp hi m).load32 fun x hx => ?_
  rw [Set.mem_union, not_or]
  constructor
  · exact notMem_block_of_apart (by bv_omega) (by bv_omega) (by omega) hx
  · exact notMem_block_of_apart (by bv_omega) (by bv_omega) (by omega) hx

/-- `port_rebase` stays within the block of its port. -/
theorem rebaseHeaders_frame (hp : p < 32) {n : ℕ} (hn : n ≤ 32) (m : Mem) :
    Frame (block (portBase p) 0x2500) m (rebaseHeaders (portBase p) (portBase p) m n) := by
  induction n with
  | zero => exact .refl _ m
  | succ n ih =>
    have hbase := toNat_portBase hp
    have hheader := toNat_cmdHeader hp hn
    have htable := toNat_cmdTable hp hn
    refine (ih (by omega)).trans ((rebaseHeader_frame hp hn _).mono (Set.union_subset ?_ ?_))
    · exact block_subset (by omega) (by omega) (by omega)
    · exact block_subset (by omega) (by omega) (by omega)

/-- Behind the loop every header points to its table. -/
theorem rebaseHeaders_ctba (hp : p < 32) {n : ℕ} (hn : n ≤ 32) (hi : i < n) (m : Mem) :
    (rebaseHeaders (portBase p) (portBase p) m n).load32 (cmdHeader p i + 8) = cmdTable p i := by
  induction n with
  | zero => omega
  | succ n ih =>
    rw [rebaseHeaders]
    rcases Nat.lt_succ_iff_lt_or_eq.1 hi with hlt | rfl
    · rw [rebaseHeader_ctba_of_ne hp hn (by omega) (by omega), ih (by omega) hlt]
    · exact rebaseHeader_ctba hp hn _

end Rebase

/-! ## States -/

/-- `portbase` has the memory of a port, once the port is laid out. -/
def Ahci.Based (s : Ahci) : Prop :=
  ∀ p, s.portbase p = 0 ∨ s.portbase p = portBase p

/-- The port has its command list, with headers that point to their own tables. -/
structure Ahci.LaidOut (s : Ahci) (p : ℕ) : Prop where
  clb : s.clb p = portBase p
  ctba : ∀ i < 32, s.mem.load32 (cmdHeader p i + 8) = cmdTable p i

/-- The register of a laid out port leads to the headers of its block. -/
theorem Ahci.LaidOut.header_eq {s : Ahci} {p : ℕ} (h : s.LaidOut p) (i : ℕ) :
    s.header p i = cmdHeader p i := by
  rw [header, h.clb, cmdHeader]

/-- The headers of a laid out port lead to the tables of its block. -/
theorem Ahci.LaidOut.ctba_eq {s : Ahci} {p i : ℕ} (h : s.LaidOut p) (hi : i < 32) :
    s.ctba p i = cmdTable p i := by
  rw [Ahci.ctba, h.header_eq, h.ctba i hi]

/-- A write away from the headers keeps a port laid out. -/
theorem Ahci.LaidOut.of_frame {s s' : Ahci} {p : ℕ} {S : Set Word} (h : s.LaidOut p)
    (hclb : s'.clb p = s.clb p) (hframe : Frame S s.mem s'.mem)
    (hout : ∀ i < 32, ∀ x ∈ block (cmdHeader p i + 8) 4, x ∉ S) : s'.LaidOut p where
  clb := hclb.trans h.clb
  ctba i hi := (hframe.load32 (hout i hi)).trans (h.ctba i hi)

section Port

variable {s : Ahci} {p q slot : ℕ}

/-- The block of a port is not at address `0`. -/
theorem portBase_ne_zero (hp : p < 32) : portBase p ≠ 0 := by
  have hbase := toNat_portBase hp
  bv_omega

/-- `port_rebase` takes the memory of the port, whether it has been laid out before or not. -/
theorem Ahci.Based.rebase_eq (h : s.Based) (hp : p < 32) :
    s.rebase p =
      { mem := rebaseHeaders (portBase p) (portBase p)
          ((s.mem.fill (portBase p) 0 1024).fill (portBase p + ((1 : Word) <<< 10)) 0 256) 32
        portbase := Function.update s.portbase p (portBase p)
        clb := Function.update s.clb p (portBase p)
        fb := Function.update s.fb p (portBase p + ((1 : Word) <<< 10)) } := by
  have hportbase : (if s.portbase p = 0 then
      Function.update s.portbase p (ahciBase + ahciPortSize * BitVec.ofNat 32 p)
      else s.portbase) = Function.update s.portbase p (portBase p) := by
    rcases h p with h0 | hbase
    · rw [if_pos h0, portBase]
    · have hne : s.portbase p ≠ 0 := hbase.symm ▸ portBase_ne_zero hp
      rw [if_neg hne, ← hbase, Function.update_eq_self]
  unfold Ahci.rebase
  rw [hportbase]
  dsimp only
  rw [Function.update_self]

/-- The memory after `port_rebase`, its two clear areas and its headers. -/
theorem Ahci.Based.mem_rebase (h : s.Based) (hp : p < 32) :
    (s.rebase p).mem = rebaseHeaders (portBase p) (portBase p)
      ((s.mem.fill (portBase p) 0 1024).fill (portBase p + ((1 : Word) <<< 10)) 0 256) 32 := by
  rw [h.rebase_eq hp]

/-- `port_rebase` records the block of the port. -/
theorem Ahci.Based.portbase_rebase (h : s.Based) (hp : p < 32) :
    (s.rebase p).portbase = Function.update s.portbase p (portBase p) := by
  rw [h.rebase_eq hp]

/-- The register of the port leads to the block. -/
theorem Ahci.Based.clb_rebase (h : s.Based) (hp : p < 32) :
    (s.rebase p).clb = Function.update s.clb p (portBase p) := by
  rw [h.rebase_eq hp]

/-- The blocks of all ports stay where they belong. -/
theorem Ahci.Based.rebase (h : s.Based) (hp : p < 32) : (s.rebase p).Based := by
  intro q
  rw [h.portbase_rebase hp]
  rcases eq_or_ne q p with rfl | hne
  · exact Or.inr (Function.update_self ..)
  · rw [Function.update_of_ne hne]
    exact h q

/-- Only the block of the port changes. -/
theorem Ahci.Based.rebase_frame (h : s.Based) (hp : p < 32) :
    Frame (block (portBase p) 0x2500) s.mem (s.rebase p).mem := by
  have hbase := toNat_portBase hp
  rw [h.mem_rebase hp]
  refine (((frame_fill _ _ _ (by omega)).mono (block_subset ?_ ?_ (by omega))).trans
    ((frame_fill _ _ _ (by omega)).mono (block_subset ?_ ?_ (by omega)))).trans
      (rebaseHeaders_frame hp le_rfl _)
  all_goals bv_omega

theorem Ahci.Based.laidOut_rebase (h : s.Based) (hp : p < 32) : (s.rebase p).LaidOut p where
  clb := by rw [h.clb_rebase hp, Function.update_self]
  ctba i hi := by
    rw [h.mem_rebase hp]
    exact rebaseHeaders_ctba hp le_rfl hi _

/-- Laying out a port leaves the other ports alone. -/
theorem Ahci.LaidOut.rebase_of_ne (hq : s.LaidOut q) (hqlt : q < 32) (h : s.Based) (hp : p < 32)
    (hne : q ≠ p) : (s.rebase p).LaidOut q := by
  refine hq.of_frame ?_ (h.rebase_frame hp) fun i hi x hx => ?_
  · rw [h.clb_rebase hp, Function.update_of_ne hne]
  · have hbase := toNat_portBase hp
    have hheader := toNat_cmdHeader hqlt hi
    exact notMem_block_of_apart (by bv_omega) (by bv_omega) (by omega) hx

/-! ## The buffer -/

/-- The buffer lies in the memory of port 2 only. -/
theorem notMem_buffer (hp : p < 32) (hne : p ≠ 2) {x : Word} (hx : x ∈ block (portBase p) 0x2500) :
    x ∉ block ahciBuffer 2048 := by
  have hbase := toNat_portBase hp
  have hbuffer : ahciBuffer.toNat = 0x8000 := rfl
  exact notMem_block_of_apart (by omega) (by omega) (by omega) hx

/-- The pointer to a table is within the block of the port. -/
theorem headerWord_subset (hp : p < 32) {i : ℕ} (hi : i < 32) :
    block (cmdHeader p i + 8) 4 ⊆ block (portBase p) 0x2500 := by
  have hbase := toNat_portBase hp
  have hheader := toNat_cmdHeader hp hi
  exact block_subset (by bv_omega) (by bv_omega) (by omega)

/-- A write to the buffer keeps the ports laid out. -/
theorem Ahci.LaidOut.of_buffer {s' : Ahci} (h : s.LaidOut p) (hp : p < 32) (hne : p ≠ 2)
    (hclb : s'.clb p = s.clb p) (hframe : Frame (block ahciBuffer 2048) s.mem s'.mem) :
    s'.LaidOut p :=
  h.of_frame hclb hframe fun _ hi _ hx => notMem_buffer hp hne (headerWord_subset hp hi hx)

/-! ## The command of `identify` -/

/-- The first byte of a header is written twice, then the number of its entries. -/
theorem headerFields_frame (m : Mem) {a : Word} (ha : a.toNat + 4 ≤ 2 ^ 32) (b c : Byte)
    (prdtl : BitVec 16) :
    Frame (block a 4) m (((m.store8 a b).store8 a c).store16 (a + 2) prdtl) := by
  have hin : ∀ {b n}, a.toNat ≤ b.toNat → b.toNat + n ≤ a.toNat + 4 → block b n ⊆ block a 4 :=
    fun hle hend => block_subset hle hend ha
  refine (((frame_store8 _ _ _).mono (hin ?_ ?_)).trans ((frame_store8 _ _ _).mono
    (hin ?_ ?_))).trans ((frame_store16 _ _ _).mono (hin ?_ ?_))
  all_goals bv_omega

/-- `identify` writes four bytes of the header. -/
theorem identifyHeader_frame (m : Mem) {a : Word} (ha : a.toNat + 4 ≤ 2 ^ 32) :
    Frame (block a 4) m (identifyHeader m a) :=
  headerFields_frame m ha _ _ _

theorem identifyFis_frame (m : Mem) {a : Word} (ha : a.toNat + 8 ≤ 2 ^ 32) :
    Frame (block a 8) m (identifyFis m a) := by
  have hin : ∀ {b}, a.toNat ≤ b.toNat → b.toNat + 1 ≤ a.toNat + 8 → block b 1 ⊆ block a 8 :=
    fun hle hend => block_subset hle hend ha
  have hstore : ∀ {m' : Mem} {b : Word} {v : Byte}, Frame (block a 8) m m' →
      a.toNat ≤ b.toNat → b.toNat + 1 ≤ a.toNat + 8 → Frame (block a 8) m (m'.store8 b v) :=
    fun h hle hend => h.trans ((frame_store8 _ _ _).mono (hin hle hend))
  unfold identifyFis
  refine hstore (hstore (hstore (hstore (hstore (hstore (.refl _ m) ?_ ?_) ?_ ?_) ?_ ?_) ?_ ?_)
    ?_ ?_) ?_ ?_
  all_goals bv_omega

theorem identifyTable_frame (m : Mem) {a : Word} (ha : a.toNat + 160 ≤ 2 ^ 32) :
    Frame (block a 160) m (identifyTable m a) := by
  have hin : ∀ {b n}, a.toNat ≤ b.toNat → b.toNat + n ≤ a.toNat + 160 → block b n ⊆ block a 160 :=
    fun hle hend => block_subset hle hend ha
  have hstore : ∀ {m' : Mem} {b w : Word}, Frame (block a 160) m m' → a.toNat ≤ b.toNat →
      b.toNat + 4 ≤ a.toNat + 160 → Frame (block a 160) m (m'.store32 b w) :=
    fun h hle hend => h.trans ((frame_store32 _ _ _).mono (hin hle hend))
  unfold identifyTable
  refine (hstore (hstore (hstore (frame_fill _ _ _ (by omega)) ?_ ?_) ?_ ?_) ?_ ?_).trans
    ((identifyFis_frame _ (by omega)).mono (hin le_rfl (by omega)))
  all_goals bv_omega

/-- The entry is for `512` bytes at the buffer. -/
theorem identifyTable_entry (m : Mem) {a : Word} (ha : a.toNat + 160 ≤ 2 ^ 32) :
    (identifyTable m a).load32 (a + 0x80) = ahciBuffer ∧
      (identifyTable m a).load32 (a + 0x80 + 12) &&& 0x3FFFFF = 511 := by
  have hfis : ∀ (m' : Mem) {c : Word}, a.toNat + 8 ≤ c.toNat → c.toNat + 4 ≤ a.toNat + 160 →
      (identifyFis m' a).load32 c = m'.load32 c := fun m' c hle hend =>
    (identifyFis_frame m' (by omega)).load32 fun x hx =>
      notMem_block_of_apart (Or.inr hle) (by omega) (by omega) hx
  have hapart : Apart (a + 0x80 + 12) (a + 0x80) := by
    unfold Apart
    bv_omega
  have hzero : (m.fill a 0 (144 + (2 - 1) * 16)).load32 (a + 0x80 + 12) = 0 := by
    refine (load32_eq_zero_iff _ _).2 fun x hx => fill_of_mem (by omega) ?_
    exact block_subset (by bv_omega) (by bv_omega) (by omega) hx
  unfold identifyTable
  dsimp only
  rw [hfis _ (by bv_omega) (by bv_omega), hfis _ (by bv_omega) (by bv_omega),
    load32_store32_of_apart hapart, load32_store32_of_apart hapart, load32_store32_self,
    load32_store32_self, load32_store32_self, load32_store32_of_apart hapart.symm, hzero]
  exact ⟨rfl, by decide⟩

/-- On a laid out port, what `identify` writes goes to the header and the table of the slot. -/
theorem Ahci.LaidOut.mem_build (h : s.LaidOut p) (hp : p < 32) (hslot : slot < 32) :
    (s.build p slot).mem =
      identifyTable (identifyHeader s.mem (cmdHeader p slot)) (cmdTable p slot) := by
  have hheader := toNat_cmdHeader hp hslot
  have hctba : (identifyHeader s.mem (cmdHeader p slot)).load32 (cmdHeader p slot + 8) =
      cmdTable p slot := by
    refine ((identifyHeader_frame _ (by omega)).load32 fun x hx => ?_).trans (h.ctba slot hslot)
    exact notMem_block_of_apart (by bv_omega) (by bv_omega) (by omega) hx
  rw [Ahci.build, h.header_eq, hctba]

/-- The command is written to the start of its header and to its table. -/
theorem Ahci.LaidOut.build_frame (h : s.LaidOut p) (hp : p < 32) (hslot : slot < 32) :
    Frame (block (cmdHeader p slot) 4 ∪ block (cmdTable p slot) 160) s.mem
      (s.build p slot).mem := by
  have hheader := toNat_cmdHeader hp hslot
  have htable := toNat_cmdTable hp hslot
  rw [h.mem_build hp hslot]
  exact ((identifyHeader_frame _ (by omega)).mono Set.subset_union_left).trans
    ((identifyTable_frame _ (by omega)).mono Set.subset_union_right)

/-- The command of one port leaves every port laid out. -/
theorem Ahci.LaidOut.build (hq : s.LaidOut q) (hqlt : q < 32) (h : s.LaidOut p) (hp : p < 32)
    (hslot : slot < 32) : (s.build p slot).LaidOut q := by
  have hheader := toNat_cmdHeader hp hslot
  have htable := toNat_cmdTable hp hslot
  refine hq.of_frame rfl (h.build_frame hp hslot) fun i hi x hx => ?_
  have hother := toNat_cmdHeader hqlt hi
  rw [Set.mem_union, not_or]
  constructor
  · exact notMem_block_of_apart (by bv_omega) (by bv_omega) (by omega) hx
  · exact notMem_block_of_apart (by bv_omega) (by bv_omega) (by omega) hx

/-- The disk answers into the buffer. -/
theorem Ahci.LaidOut.transfer_frame (h : s.LaidOut p) (hp : p < 32) (hslot : slot < 32)
    (answer : List Byte) :
    Frame (block ahciBuffer 2048) (s.build p slot).mem
      ((s.build p slot).transfer p slot answer).mem := by
  have htable := toNat_cmdTable hp hslot
  obtain ⟨hdba, hdbc⟩ :=
    identifyTable_entry (identifyHeader s.mem (cmdHeader p slot)) (a := cmdTable p slot) (by omega)
  rw [← h.mem_build hp hslot] at hdba hdbc
  have hlength : (answer.take ((511 : Word).toNat + 1)).length ≤ 512 := List.length_take_le _ _
  rw [Ahci.transfer, (h.build hp h hp hslot).ctba_eq hslot, hdba, hdbc]
  refine (frame_write _ _ _).mono (block_subset le_rfl ?_ ?_)
  · omega
  · decide

end Port

/-! ## Safe steps -/

/-- The areas of the ports that are laid out are the same in both states. -/
def Ahci.Keeps (s s' : Ahci) : Prop :=
  ∀ p, s.portbase p ≠ 0 → ∀ x ∈ portArea p, s'.mem x = s.mem x

/-- A step that clears the buffer or transfers into it leaves the areas alone, and a command is
built on a header that points to its own table. -/
def Ahci.Safe (s : Ahci) : ProbeStep → Prop
  | .rebase _ => True
  | .clear portno => s.Keeps (probeStep s (.clear portno))
  | .build portno slot => s.ctba portno slot = cmdTable portno slot
  | .transfer portno slot answer => s.Keeps (probeStep s (.transfer portno slot answer))

@[simp] theorem Ahci.safe_rebase (s : Ahci) (p : ℕ) : s.Safe (.rebase p) ↔ True := by
  rw [Safe]

/-- Clearing the buffer is safe when no port in use sees it. -/
@[simp] theorem Ahci.safe_clear (s : Ahci) (p : ℕ) : s.Safe (.clear p) ↔ s.Keeps s.clearBuffer := by
  rw [Safe, probeStep_clear]

/-- A command is safe when it goes to the table of its own port. -/
@[simp] theorem Ahci.safe_build (s : Ahci) (p slot : ℕ) :
    s.Safe (.build p slot) ↔ s.ctba p slot = cmdTable p slot := by
  rw [Safe]

/-- An answer is safe when no port in use sees it. -/
@[simp] theorem Ahci.safe_transfer (s : Ahci) (p slot : ℕ) (answer : List Byte) :
    s.Safe (.transfer p slot answer) ↔ s.Keeps (s.transfer p slot answer) := by
  rw [Safe, probeStep_transfer]

/-- The ports that are laid out have their command lists, and port 2 is not among them. -/
structure Ahci.Inv (s : Ahci) : Prop where
  based : s.Based
  port_lt : ∀ p, s.portbase p ≠ 0 → p < 32
  port_ne : ∀ p, s.portbase p ≠ 0 → p ≠ 2
  laidOut : ∀ p, s.portbase p ≠ 0 → s.LaidOut p

namespace Ahci.Inv

variable {s s' : Ahci} {p slot : ℕ}

theorem initial (m : Mem) (clb fb : ℕ → Word) : (Ahci.initial m clb fb).Inv where
  based _ := Or.inl rfl
  port_lt _ h := absurd rfl h
  port_ne _ h := absurd rfl h
  laidOut _ h := absurd rfl h

/-- A port other than number `2` can be laid out : its block does not meet the buffer. -/
theorem rebase (h : s.Inv) (hp : p < 32) (hne : p ≠ 2) : (s.rebase p).Inv := by
  have hportbase : ∀ q, (s.rebase p).portbase q ≠ 0 → q = p ∨ q ≠ p ∧ s.portbase q ≠ 0 := by
    intro q hq
    rw [h.based.portbase_rebase hp] at hq
    rcases eq_or_ne q p with rfl | hqp
    · exact Or.inl rfl
    · rw [Function.update_of_ne hqp] at hq
      exact Or.inr ⟨hqp, hq⟩
  refine ⟨h.based.rebase hp, fun q hq => ?_, fun q hq => ?_, fun q hq => ?_⟩
  all_goals rcases hportbase q hq with rfl | ⟨hqp, hq⟩
  · exact hp
  · exact h.port_lt q hq
  · exact hne
  · exact h.port_ne q hq
  · exact h.based.laidOut_rebase hp
  · exact (h.laidOut q hq).rebase_of_ne (h.port_lt q hq) h.based hp hqp

/-- A step that keeps the registers and the ports keeps the invariant. -/
theorem of_laidOut (h : s.Inv) (hportbase : s'.portbase = s.portbase)
    (hlaid : ∀ p, s.portbase p ≠ 0 → s'.LaidOut p) : s'.Inv := by
  refine ⟨fun p => ?_, fun p hp => ?_, fun p hp => ?_, fun p hp => ?_⟩
  all_goals rw [hportbase] at *
  · exact h.based p
  · exact h.port_lt p hp
  · exact h.port_ne p hp
  · exact hlaid p hp

/-- What only changes the buffer keeps the invariant. -/
theorem of_buffer (h : s.Inv) (hportbase : s'.portbase = s.portbase) (hclb : s'.clb = s.clb)
    (hframe : Frame (block ahciBuffer 2048) s.mem s'.mem) : s'.Inv :=
  h.of_laidOut hportbase fun p hp => (h.laidOut p hp).of_buffer (h.port_lt p hp) (h.port_ne p hp)
    (congrFun hclb p) hframe

/-- What only changes the buffer keeps every port in use. -/
theorem keeps (h : s.Inv) (hframe : Frame (block ahciBuffer 2048) s.mem s'.mem) :
    s.Keeps s' := fun p hp x hx =>
  hframe x (notMem_buffer (h.port_lt p hp) (h.port_ne p hp)
    (portArea_subset (h.port_lt p hp) hx))

/-- A command of a port that is laid out keeps the invariant. -/
theorem build (h : s.Inv) (hp : s.LaidOut p) (hlt : p < 32) (hslot : slot < 32) :
    (s.build p slot).Inv :=
  h.of_laidOut (portbase_build ..) fun q hq => (h.laidOut q hq).build (h.port_lt q hq) hp hlt hslot

theorem clearBuffer_frame (s : Ahci) :
    Frame (block ahciBuffer 2048) s.mem s.clearBuffer.mem := by
  rw [mem_clearBuffer]
  exact frame_fill _ _ _ (by omega)

/-- The steps for a port other than port 2. -/
theorem portSteps (h : s.Inv) (hba : Hba) (hp : p < 32) (hne : p ≠ 2) :
    Meets probeStep Ahci.Safe s (.rebase p :: identifySteps hba p) ∧
      (run probeStep s (.rebase p :: identifySteps hba p)).Inv := by
  have hrebased := h.rebase hp hne
  have hframe := clearBuffer_frame (s.rebase p)
  have hclear : (s.rebase p).clearBuffer.Inv :=
    hrebased.of_buffer (portbase_clearBuffer _) (clb_clearBuffer _) hframe
  have hlaid : (s.rebase p).clearBuffer.LaidOut p :=
    (h.based.laidOut_rebase hp).of_buffer hp hne (congrFun (clb_clearBuffer _) p) hframe
  have hkeeps := hrebased.keeps hframe
  unfold identifySteps
  cases hslot : findCmdslot hba.cap (hba.ports p) with
  | none => simp [hkeeps, hclear]
  | some slot =>
    have hslot' : slot < 32 := (findCmdslot_lt hslot).trans (by omega)
    have hctba := hlaid.ctba_eq hslot'
    have hbuild := hclear.build hlaid hp hslot'
    have htransfer := hlaid.transfer_frame hp hslot' (hba.answer p)
    by_cases hhung : PortHung (hba.ports p)
    · simp [hkeeps, hctba, hhung, hbuild]
    · have hdone :=
        hbuild.of_buffer (portbase_transfer ..) (clb_transfer ..) htransfer
      simp [hkeeps, hctba, hhung, hbuild.keeps htransfer, hdone]

/-- The steps for any ports but port 2. -/
theorem meets_flatMap (h : s.Inv) (hba : Hba) {ps : List ℕ} (hps : ∀ p ∈ ps, p < 32 ∧ p ≠ 2) :
    Meets probeStep Ahci.Safe s (ps.flatMap fun p => .rebase p :: identifySteps hba p) := by
  induction ps generalizing s with
  | nil => exact meets_nil s
  | cons p ps ih =>
    obtain ⟨hp, hne⟩ := hps p List.mem_cons_self
    obtain ⟨hmeets, hinv⟩ := h.portSteps hba hp hne
    rw [List.flatMap_cons, meets_append]
    exact ⟨hmeets, ih hinv fun q hq => hps q (List.mem_cons_of_mem p hq)⟩

end Ahci.Inv

/-- The steps for any ports keep `portbase` to the memory of the ports. -/
theorem Ahci.Based.run_flatMap {s : Ahci} (h : s.Based) (hba : Hba) {ps : List ℕ}
    (hps : ∀ p ∈ ps, p < 32) :
    (run probeStep s (ps.flatMap fun p => .rebase p :: identifySteps hba p)).Based := by
  induction ps generalizing s with
  | nil => exact h
  | cons p ps ih =>
    rw [List.flatMap_cons, run_append, run_cons, run_identifySteps, probeStep_rebase]
    refine ih (fun q => ?_) fun q hq => hps q (List.mem_cons_of_mem p hq)
    rw [portbase_identify]
    exact h.rebase (hps p List.mem_cons_self) q

/-- On port 2 `identify` clears the headers. -/
theorem not_safe_clear {s : Ahci} (h : s.Based) : ¬(s.rebase 2).Safe (.clear 2) := by
  intro hsafe
  have hkeeps := (Ahci.safe_clear _ _).1 hsafe
  have hlaid := h.laidOut_rebase (p := 2) (by omega)
  have hword : (s.rebase 2).clearBuffer.mem.load32 (cmdHeader 2 0 + 8) = cmdTable 2 0 := by
    rw [← hlaid.ctba 0 (by omega)]
    refine load32_eq_of_bytes fun x hx => hkeeps 2 ?_ x ?_
    · rw [h.portbase_rebase (by omega), Function.update_self]
      exact portBase_ne_zero (by omega)
    · exact Or.inl (block_subset (by decide) (by decide) (by decide) hx)
  have hzero : (s.rebase 2).clearBuffer.mem.load32 (cmdHeader 2 0 + 8) = 0 := by
    rw [Ahci.mem_clearBuffer]
    refine (load32_eq_zero_iff _ _).2 fun x hx => fill_of_mem (by omega) ?_
    exact block_subset (by decide) (by decide) (by decide) hx
  rw [hzero] at hword
  exact absurd hword (by decide)

/-- The ports that `probe_port` finds a disk at. -/
theorem Hba.mem_disks {hba : Hba} {p : ℕ} : p ∈ hba.disks ↔ p < 32 ∧ hba.HasDisk p := by
  simp [disks]

/-- With a disk at port 2 a step is not safe. -/
theorem Hba.HasDisk.not_safe {hba : Hba} (hdisk : hba.HasDisk 2) (m : Mem) (clb fb : ℕ → Word) :
    ¬Meets probeStep Ahci.Safe (.initial m clb fb) (probeSteps hba) := by
  intro hmeets
  obtain ⟨as, bs, hsplit⟩ := List.append_of_mem (Hba.mem_disks.2 ⟨by omega, hdisk⟩)
  have hlt : ∀ p ∈ as, p < 32 := fun p hp =>
    (Hba.mem_disks.1 (hsplit ▸ List.mem_append_left _ hp)).1
  have hbased := (Ahci.Inv.initial m clb fb).based.run_flatMap hba hlt
  rw [probeSteps, hsplit, List.flatMap_append, List.flatMap_cons, meets_append, List.cons_append,
    meets_cons, probeStep_rebase, identifySteps, List.cons_append, meets_cons] at hmeets
  exact not_safe_clear hbased hmeets.2.2.1

/-- `probe_port` takes only safe steps, just when it does not lay out port 2. -/
theorem probe_safe_iff (hba : Hba) (m : Mem) (clb fb : ℕ → Word) :
    Meets probeStep Ahci.Safe (.initial m clb fb) (probeSteps hba) ↔ ¬hba.HasDisk 2 := by
  constructor
  · intro hmeets hdisk
    exact hdisk.not_safe m clb fb hmeets
  · intro hdisk
    refine (Ahci.Inv.initial m clb fb).meets_flatMap hba fun p hp => ?_
    obtain ⟨hlt, hp⟩ := Hba.mem_disks.1 hp
    refine ⟨hlt, ?_⟩
    rintro rfl
    exact hdisk hp

/-- A disk at port 2. -/
def thirdPort : Hba where
  cap := 0x100
  pi := 0b100
  ports := fun _ => ⟨0x103, 0x101, 0, 0, fun _ => 0⟩
  answer := fun _ => []

/-- The command list of port 2 is laid out, and then it is cleared. -/
theorem thirdPort_not_safe :
    ¬Meets probeStep Ahci.Safe (.initial (fun _ => 0) (fun _ => 0) fun _ => 0)
      (probeSteps thirdPort) :=
  Hba.HasDisk.not_safe (by decide) _ _ _

end Scorch
