import Scorch.AhciPorts
import Scorch.Lib.BlockLog

/-!
# The command table of a read

What `read` writes to the table of its slot, on the memory that `port_rebase` has laid out. A
table has `256` bytes, room for a frame and eight entries, and the number of entries comes
from the sector count by way of a 16-bit field. The command stays in its table exactly when
that field is at most eight (`readCommand_inTable_iff`).

The loop reads the field again in every round. The header stands below the tables, so the
field does not change, and the rounds are those of the loop over the entries
(`Ahci.LaidOut.readRun_follows`).
-/

open ByteMemory Mem BlockLog

namespace Scorch

/-! ## The functions -/

/-- The fields `cfl`, `w` and `prdtl` of a command header. -/
def setCmdHeader (m : Mem) (cmdheader : Word) (prdtl : BitVec 16) : Mem :=
  let m := m.store8 cmdheader (m cmdheader &&& 0xE0 ||| 5)
  let m := m.store8 cmdheader (m cmdheader &&& ~~~0x40)
  m.store16 (cmdheader + 2) prdtl

/-- `prdtl` of a command header. -/
def prdtlAt (m : Mem) (cmdheader : Word) : BitVec 16 :=
  m (cmdheader + 3) ++ m (cmdheader + 2)

/-- The number of entries of a read of `count` sectors. -/
def readPrdtl (count : Word) : BitVec 16 :=
  ((count - 1) >>> 4).setWidth 16 + 1

/-- Set `dba`, `dbc` and `i` of entry `i` of a table. -/
def setPrdtEntry (l : BlockLog) (cmdtbl : Word) (i : ℕ) (dba dbc : Word) : BlockLog :=
  let entry := cmdtbl + 0x80 + 16 * BitVec.ofNat 32 i
  let l := l.store32 entry dba
  let l := l.store32 (entry + 12)
    (l.mem.load32 (entry + 12) &&& ~~~0x3FFFFF ||| (dbc &&& 0x3FFFFF))
  l.store32 (entry + 12) (l.mem.load32 (entry + 12) ||| ((1 : Word) <<< 31))

/-- The variables of the loop of `read`, with the memory. -/
structure TableLoop where
  i : ℕ
  log : BlockLog
  buf : Word
  count : Word

/-- One round. -/
def TableLoop.next (cmdtbl : Word) (s : TableLoop) : TableLoop where
  i := s.i + 1
  log := setPrdtEntry s.log cmdtbl s.i s.buf (8 * 1024)
  buf := s.buf + 2 * (4 * 1024)
  count := s.count - 16

/-- The loop, for `n` rounds at most. -/
def TableLoop.run (cmdheader cmdtbl : Word) : ℕ → TableLoop → TableLoop
  | 0, s => s
  | n + 1, s =>
    if s.i + 1 < (prdtlAt s.log.mem cmdheader).toNat then
      TableLoop.run cmdheader cmdtbl n (s.next cmdtbl)
    else s

/-- The bytes of the frame that are set, but for the one with `c`. -/
def fisBytes (startl starth count : Word) : List (ℕ × Byte) :=
  [(2, ataCmdReadDmaExt), (4, startl.setWidth 8), (5, (startl >>> 8).setWidth 8),
    (6, (startl >>> 16).setWidth 8), (7, (1 : Byte) <<< 6), (8, (startl >>> 24).setWidth 8),
    (9, starth.setWidth 8), (10, (starth >>> 8).setWidth 8), (12, (count &&& 0xff).setWidth 8),
    (13, ((count >>> 8) &&& 0xff).setWidth 8)]

/-- Write the frame at `cfis`. -/
def setReadFis (l : BlockLog) (cfis startl starth count : Word) : BlockLog :=
  let l := l.store8 cfis fisTypeRegH2d
  let l := l.store8 (cfis + 1) (l.mem (cfis + 1) ||| 0x80)
  (fisBytes startl starth count).foldl (fun l e => l.store8 (cfis + BitVec.ofNat 32 e.1) e.2) l

/-- The table of a slot, and the loop of `read` on it behind the header and the `memset`. The
log starts behind the header. -/
def Ahci.readRun (s : Ahci) (portno slot : ℕ) (count buf : Word) : Word × TableLoop :=
  let cmdheader := s.header portno slot
  let m := setCmdHeader s.mem cmdheader (readPrdtl count)
  let cmdtbl := m.load32 (cmdheader + 8)
  let length : Word := 144 + ((prdtlAt m cmdheader).setWidth 32 - 1) * 16
  (cmdtbl, TableLoop.run cmdheader cmdtbl 65536
    ⟨0, (⟨m, []⟩ : BlockLog).fill cmdtbl 0 length.toNat, buf, count⟩)

/-- What `read` writes for a command in a slot of a port. -/
def Ahci.readCommand (s : Ahci) (portno slot : ℕ) (startl starth count buf : Word) : BlockLog :=
  let (cmdtbl, run) := s.readRun portno slot count buf
  setReadFis (setPrdtEntry run.log cmdtbl run.i run.buf (run.count <<< 9)) cmdtbl startl starth
    run.count

/-- All writes to tables are inside table `slot` of port `p`. -/
def InTable (p slot : ℕ) (l : BlockLog) : Prop :=
  ∀ e ∈ l.blocks, block e.1 e.2 ⊆ block (cmdTable p slot) 256

/-! ## The header -/

section Header

variable {a : Word}

/-- `read` writes four bytes of the header. -/
theorem setCmdHeader_frame (m : Mem) (prdtl : BitVec 16) (ha : a.toNat + 4 ≤ 2 ^ 32) :
    Frame (block a 4) m (setCmdHeader m a prdtl) :=
  headerFields_frame m ha _ _ _

/-- The number of entries is read back from it. -/
theorem prdtlAt_setCmdHeader (m : Mem) (a : Word) (prdtl : BitVec 16) :
    prdtlAt (setCmdHeader m a prdtl) a = prdtl := by
  have hhi : (setCmdHeader m a prdtl) (a + 3) = (prdtl >>> 8).setWidth 8 :=
    if_pos (by bv_omega)
  have hlo : (setCmdHeader m a prdtl) (a + 2) = prdtl.setWidth 8 :=
    (if_neg (by bv_omega)).trans (if_pos rfl)
  rw [prdtlAt, hhi, hlo, append_bytes]

/-- Writes elsewhere keep the field. -/
theorem prdtlAt_of_frame {S : Set Word} {m m' : Mem} (h : Frame S m m')
    (hout : ∀ x ∈ block a 4, x ∉ S) : prdtlAt m' a = prdtlAt m a := by
  rw [prdtlAt, prdtlAt, h _ (hout _ (mem_block.2 (by bv_omega))),
    h _ (hout _ (mem_block.2 (by bv_omega)))]

/-- The length of the `memset`, which is right for zero entries too. -/
theorem toNat_tableLength (prdtl : BitVec 16) :
    (144 + (prdtl.setWidth 32 - 1) * 16 : Word).toNat = 128 + 16 * prdtl.toNat := by
  bv_omega

end Header

/-! ## Writes to a table -/

section Table

variable {a : Word} {n : ℕ}

/-- The first `n` entries of a table and what is in front of them. -/
def tableBlock (a : Word) (n : ℕ) : Set Word :=
  block a (128 + 16 * n)

/-- An entry of the list is within the table. -/
theorem writes_setPrdtEntry (ha : a.toNat + 2 ^ 21 ≤ 2 ^ 32) {i : ℕ} (hi : i < n)
    (hn : n ≤ 2 ^ 16) (l : BlockLog) (dba dbc : Word) :
    Writes (tableBlock a n) l (setPrdtEntry l a i dba dbc) := by
  have hentry : (a + 0x80 + 16 * BitVec.ofNat 32 i).toNat = a.toNat + 128 + 16 * i := by
    bv_omega
  have hin : ∀ {b : Word}, a.toNat + 128 + 16 * i ≤ b.toNat → b.toNat + 4 ≤ a.toNat + 144 + 16 * i →
      block b 4 ⊆ tableBlock a n := fun hle hend =>
    block_subset (by omega) (by omega) (by omega)
  refine ((writes_store32 _ _ (hin ?_ ?_)).trans (writes_store32 _ _ (hin ?_ ?_))).trans
    (writes_store32 _ _ (hin ?_ ?_))
  all_goals bv_omega

theorem writes_setReadFis (ha : a.toNat + 2 ^ 21 ≤ 2 ^ 32) (hn : n ≤ 2 ^ 16) (l : BlockLog)
    (startl starth count : Word) :
    Writes (tableBlock a n) l (setReadFis l a startl starth count) := by
  have hin : ∀ {b : Word}, a.toNat ≤ b.toNat → b.toNat + 1 ≤ a.toNat + 128 →
      block b 1 ⊆ tableBlock a n := fun hle hend =>
    block_subset hle (by omega) (by omega)
  have hfold : ∀ (bs : List (ℕ × Byte)) (l : BlockLog), (∀ e ∈ bs, e.1 < 128) →
      Writes (tableBlock a n) l
        (bs.foldl (fun l e => l.store8 (a + BitVec.ofNat 32 e.1) e.2) l) := by
    intro bs
    induction bs with
    | nil => exact fun l _ => .refl _ l
    | cons e bs ih =>
      intro l hbs
      have he := hbs e List.mem_cons_self
      exact (writes_store8 l e.2 (hin (by bv_omega) (by bv_omega))).trans
        (ih _ fun e' he' => hbs e' (List.mem_cons_of_mem e he'))
  refine ((writes_store8 _ _ (hin le_rfl (by omega))).trans
    (writes_store8 _ _ (hin (by bv_omega) (by bv_omega)))).trans (hfold _ _ fun e he => ?_)
  revert e
  simp [fisBytes]

end Table

/-! ## The loop -/

namespace TableLoop

variable {cmdheader a : Word} {n : ℕ}

/-- The loop writes entries of the table only, and `i` stays the number of one. -/
theorem writes_run (ha : a.toNat + 2 ^ 21 ≤ 2 ^ 32) (hn : n ≤ 2 ^ 16)
    (hout : ∀ x ∈ block cmdheader 4, x ∉ tableBlock a n) (k : ℕ) (s : TableLoop) (hi : s.i < n)
    (hprdtl : (prdtlAt s.log.mem cmdheader).toNat ≤ n) :
    Writes (tableBlock a n) s.log (s.run cmdheader a k).log ∧ (s.run cmdheader a k).i < n := by
  induction k generalizing s with
  | zero => exact ⟨.refl _ s.log, hi⟩
  | succ k ih =>
    rw [run]
    split_ifs with hlt
    · have hwrites : Writes (tableBlock a n) s.log (s.next a).log :=
        writes_setPrdtEntry ha hi hn s.log s.buf (8 * 1024)
      have hfield := prdtlAt_of_frame hwrites.frame hout
      obtain ⟨hrest, hlast⟩ := ih (s.next a) (hlt.trans_le hprdtl) (by rwa [hfield])
      exact ⟨hwrites.trans hrest, hlast⟩
    · exact ⟨.refl _ s.log, hi⟩

/-- The loop of the memory and the loop over the entries go through the same values. -/
structure Follows (s : TableLoop) (r : ReadLoop) : Prop where
  i : s.i = r.i
  buf : s.buf = r.buf
  count : s.count = r.count

/-- A round on the memory follows a round on the records. -/
theorem Follows.next {s : TableLoop} {r : ReadLoop} (h : s.Follows r) :
    (s.next a).Follows r.next :=
  ⟨congrArg (· + 1) h.i, congrArg (· + 2 * (4 * 1024)) h.buf, congrArg (· - 16) h.count⟩

/-- It makes a round for every entry but the last. -/
theorem run_follows (ha : a.toNat + 2 ^ 21 ≤ 2 ^ 32) (hn : n ≤ 2 ^ 16)
    (hout : ∀ x ∈ block cmdheader 4, x ∉ tableBlock a n) (k : ℕ) {s : TableLoop} {r : ReadLoop}
    (h : s.Follows r) (hi : s.i < n) {prdtl : BitVec 16} (hle : prdtl.toNat ≤ n)
    (hprdtl : prdtlAt s.log.mem cmdheader = prdtl) (hk : prdtl.toNat ≤ s.i + 1 + k) :
    (s.run cmdheader a k).Follows (ReadLoop.next^[prdtl.toNat - 1 - s.i] r) := by
  induction k generalizing s r with
  | zero =>
    rw [show prdtl.toNat - 1 - s.i = 0 by omega]
    exact h
  | succ k ih =>
    rw [run, hprdtl]
    split_ifs with hlt
    · have hwrites : Writes (tableBlock a n) s.log (s.next a).log :=
        writes_setPrdtEntry ha hi hn s.log s.buf (8 * 1024)
      have hfield := (prdtlAt_of_frame hwrites.frame hout).trans hprdtl
      have hnext : (s.next a).i = s.i + 1 := rfl
      have hrounds : prdtl.toNat - 1 - s.i = (prdtl.toNat - 1 - (s.next a).i) + 1 := by omega
      rw [hrounds, Function.iterate_succ_apply]
      exact ih h.next (hlt.trans_le hle) hfield (by omega)
    · rw [show prdtl.toNat - 1 - s.i = 0 by omega]
      exact h

end TableLoop

/-! ## The command -/

section Command

variable {s : Ahci} {p slot : ℕ}

theorem cmdHeader_outside (hp : p < 32) (hslot : slot < 32) {n : ℕ} (hn : n ≤ 2 ^ 16) :
    ∀ x ∈ block (cmdHeader p slot) 4, x ∉ tableBlock (cmdTable p slot) n := fun x hx => by
  have hheader := toNat_cmdHeader hp hslot
  have htable := toNat_cmdTable hp hslot
  exact notMem_block_of_apart (Or.inl (by omega)) (by omega) (by omega) hx

/-- Setting the header up keeps its pointer to the table. -/
theorem Ahci.LaidOut.load32_setCmdHeader (h : s.LaidOut p) (hp : p < 32) (hslot : slot < 32)
    (prdtl : BitVec 16) :
    (setCmdHeader s.mem (s.header p slot) prdtl).load32 (s.header p slot + 8) =
      cmdTable p slot := by
  have hheader := toNat_cmdHeader hp hslot
  rw [h.header_eq, ← h.ctba slot hslot]
  refine (setCmdHeader_frame s.mem prdtl (by omega)).load32 fun x hx => ?_
  exact notMem_block_of_apart (Or.inr (by bv_omega)) (by bv_omega) (by omega) hx

/-- The entries of a command, but at least one. -/
def tableEntries (count : Word) : ℕ :=
  max (readPrdtl count).toNat 1

/-- The loop starts behind a `memset` over the table with all its entries, and reads the
number of entries that the header was given. -/
theorem Ahci.LaidOut.readRun_eq (h : s.LaidOut p) (hp : p < 32) (hslot : slot < 32)
    (count buf : Word) :
    ∃ log : BlockLog, s.readRun p slot count buf =
        (cmdTable p slot, TableLoop.run (cmdHeader p slot) (cmdTable p slot) 65536
          ⟨0, log, buf, count⟩) ∧
      log.blocks = [(cmdTable p slot, 128 + 16 * (readPrdtl count).toNat)] ∧
      prdtlAt log.mem (cmdHeader p slot) = readPrdtl count := by
  have htable := toNat_cmdTable hp hslot
  have hlt := (readPrdtl count).isLt
  obtain ⟨m, hm⟩ : ∃ m, setCmdHeader s.mem (cmdHeader p slot) (readPrdtl count) = m := ⟨_, rfl⟩
  have hctba := h.load32_setCmdHeader hp hslot (readPrdtl count)
  have hfield : prdtlAt m (cmdHeader p slot) = readPrdtl count := by
    rw [← hm, prdtlAt_setCmdHeader]
  refine ⟨(⟨m, []⟩ : BlockLog).fill (cmdTable p slot) 0 (128 + 16 * (readPrdtl count).toNat), ?_,
    rfl, ?_⟩
  · rw [h.header_eq, hm] at hctba
    rw [Ahci.readRun, h.header_eq, hm, hctba, hfield, toNat_tableLength]
  · exact (prdtlAt_of_frame (frame_fill m (cmdTable p slot) 0 (by omega))
      (cmdHeader_outside hp hslot hlt.le)).trans hfield

/-- The first write clears the table for all its entries. The others go to these entries, or
to the first one when there are none. -/
theorem Ahci.LaidOut.blocks_readCommand (h : s.LaidOut p) (hp : p < 32) (hslot : slot < 32)
    (startl starth count buf : Word) :
    ∃ bs, (s.readCommand p slot startl starth count buf).blocks =
        (cmdTable p slot, 128 + 16 * (readPrdtl count).toNat) :: bs ∧
      ∀ e ∈ bs, block e.1 e.2 ⊆ tableBlock (cmdTable p slot) (tableEntries count) := by
  have htable := toNat_cmdTable hp hslot
  have ha : (cmdTable p slot).toNat + 2 ^ 21 ≤ 2 ^ 32 := by omega
  have hlt := (readPrdtl count).isLt
  have hn : tableEntries count ≤ 2 ^ 16 := by
    unfold tableEntries
    omega
  obtain ⟨log, hstart, hlog, hfield⟩ := h.readRun_eq hp hslot count buf
  obtain ⟨hrun, hlast⟩ := TableLoop.writes_run ha hn (cmdHeader_outside hp hslot hn) 65536
    ⟨0, log, buf, count⟩ (Nat.lt_of_lt_of_le Nat.zero_lt_one (le_max_right _ _))
    (hfield ▸ le_max_left _ _)
  obtain ⟨bs, hbs, hin⟩ := ((hrun.trans (writes_setPrdtEntry ha hlast hn _ _ _)).trans
    (writes_setReadFis ha hn _ startl starth _)).blocks
  rw [Ahci.readCommand, hstart]
  rw [hlog] at hbs
  exact ⟨bs, hbs, hin⟩

/-- The rounds of the loop are those of the loop over the entries of a table. -/
theorem Ahci.LaidOut.readRun_follows (h : s.LaidOut p) (hp : p < 32) (hslot : slot < 32)
    (header : HbaCmdHeader) (tbl : HbaCmdTbl) (count buf : Word) :
    (s.readRun p slot count buf).2.Follows
      (ReadLoop.next^[(readHeader header count).prdtl.toNat - 1] ⟨0, tbl, buf, count⟩) := by
  have htable := toNat_cmdTable hp hslot
  have hlt := (readPrdtl count).isLt
  have hn : tableEntries count ≤ 2 ^ 16 := by
    unfold tableEntries
    omega
  obtain ⟨log, hstart, -, hfield⟩ := h.readRun_eq hp hslot count buf
  have hrun := TableLoop.run_follows (by omega) hn (cmdHeader_outside hp hslot hn) 65536
    (s := ⟨0, log, buf, count⟩) (r := ⟨0, tbl, buf, count⟩) ⟨rfl, rfl, rfl⟩
    (Nat.lt_of_lt_of_le Nat.zero_lt_one (le_max_right _ _)) (le_max_left _ _) hfield (by omega)
  rw [hstart]
  exact hrun

/-- The command stays in its table when the field for the number of entries is at most
eight. -/
theorem inTable_readCommand_iff (h : s.LaidOut p) (hp : p < 32) (hslot : slot < 32)
    (startl starth count buf : Word) :
    InTable p slot (s.readCommand p slot startl starth count buf) ↔
      (readPrdtl count).toNat ≤ 8 := by
  have htable := toNat_cmdTable hp hslot
  have hlt := (readPrdtl count).isLt
  obtain ⟨bs, hbs, hin⟩ := h.blocks_readCommand hp hslot startl starth count buf
  rw [InTable, hbs]
  constructor
  · intro hall
    by_contra hgt
    have hsub := hall _ List.mem_cons_self
    have hmem : cmdTable p slot + 256 ∈
        block (cmdTable p slot) (128 + 16 * (readPrdtl count).toNat) :=
      mem_block.2 (by bv_omega)
    exact absurd (mem_block.1 (hsub hmem)) (by bv_omega)
  · intro hle e he
    rcases List.mem_cons.1 he with heq | he
    · have hclear : block (cmdTable p slot) (128 + 16 * (readPrdtl count).toNat) ⊆
          block (cmdTable p slot) 256 := block_subset le_rfl (by omega) (by omega)
      exact heq ▸ hclear
    · have hentries : tableEntries count ≤ 8 := max_le hle (by decide)
      exact (hin e he).trans (block_subset le_rfl (by omega) (by omega))

/-- The number of entries, with the sixteen bits that it has. -/
theorem toNat_readPrdtl (count : Word) :
    (readPrdtl count).toNat = ((count - 1).toNat / 16 % 2 ^ 16 + 1) % 2 ^ 16 := by
  rw [readPrdtl, BitVec.toNat_add, BitVec.toNat_setWidth, BitVec.toNat_ushiftRight,
    Nat.shiftRight_eq_div_pow]
  rfl

/-- In a port that is laid out, a command for `count` sectors stays in the table of its slot
when it has room for their entries, or when the 16-bit number of entries has wrapped to few
enough. -/
theorem readCommand_inTable_iff (h : s.LaidOut p) (hp : p < 32) (hslot : slot < 32)
    (startl starth count buf : Word) :
    InTable p slot (s.readCommand p slot startl starth count buf) ↔
      (count - 1).toNat % 2 ^ 20 < 128 ∨ 2 ^ 20 - 16 ≤ (count - 1).toNat % 2 ^ 20 := by
  rw [inTable_readCommand_iff h hp hslot, toNat_readPrdtl]
  omega

end Command

/-- The first port, laid out in a memory of zeros. -/
def firstPort : Ahci :=
  (Ahci.initial (fun _ => 0) (fun _ => 0) (fun _ => 0)).rebase 0

/-- The port of the example is laid out. -/
theorem laidOut_firstPort : firstPort.LaidOut 0 := by
  have hbased : (Ahci.initial (fun _ => 0) (fun _ => 0) (fun _ => 0)).Based := fun _ => Or.inl rfl
  exact hbased.laidOut_rebase (by decide)

/-- A command for one sector. -/
theorem readCommand_inTable_one :
    InTable 0 0 (firstPort.readCommand 0 0 0 0 1 0x9000) ↔
      ((1 : Word) - 1).toNat % 2 ^ 20 < 128 ∨ 2 ^ 20 - 16 ≤ ((1 : Word) - 1).toNat % 2 ^ 20 :=
  readCommand_inTable_iff laidOut_firstPort (by decide) (by decide) 0 0 1 0x9000

/-- A command for 129 sectors clears the first entry of the next table too. -/
theorem not_inTable_readCommand :
    ¬InTable 0 0 (firstPort.readCommand 0 0 0 0 129 0x9000) := by
  rw [inTable_readCommand_iff laidOut_firstPort (by decide) (by decide)]
  decide

end Scorch
