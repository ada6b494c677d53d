import Scorch.Ahci
import Scorch.Lib.RecordRing

/-!
# The command of a read

The controller takes the `dbc` of an entry as one less than the bytes of the entry, as
`identify` does when it sets `512-1`. A command for `count` sectors at `buf` is consistent
when its frame asks for `count` sectors and its entries lie one behind the other from `buf`
to `buf + 512 * count`.

`read` sets `dbc` to the bytes themselves. Its entries then hold a byte each too much, and no
command it issues is consistent (`ahciRead_not_consistent`). The frame is set up from `count`
after the loop has counted it down : it asks for the sectors of the last entry only
(`ahciRead_sectors`).
-/

open ByteMemory RecordRing

namespace Scorch

/-! ## Consistent commands -/

/-- The bytes that the controller moves for an entry. -/
def HbaPrdtEntry.bytes (e : HbaPrdtEntry) : ℕ :=
  e.dbc.toNat + 1

/-- The address of the piece of memory. -/
def HbaPrdtEntry.place (e : HbaPrdtEntry) : ℕ :=
  2 ^ 32 * e.dbau.toNat + e.dba.toNat

/-- The entries that belong to a command. -/
def Command.entries (c : Command) : List HbaPrdtEntry :=
  (List.range c.header.prdtl.toNat).map c.table.prdtEntry

/-- The sectors that a frame asks for. -/
def FisRegH2d.sectors (fis : FisRegH2d) : BitVec 16 :=
  fis.counth ++ fis.countl

/-- The sector that a frame starts at. -/
def FisRegH2d.lba (fis : FisRegH2d) : BitVec 48 :=
  fis.lba5 ++ fis.lba4 ++ fis.lba3 ++ fis.lba2 ++ fis.lba1 ++ fis.lba0

/-- The command is one transfer of `count` sectors to `buf`. -/
structure Command.Consistent (c : Command) (count buf : Word) : Prop where
  sectors : c.table.cfis.sectors.toNat = count.toNat
  total : total HbaPrdtEntry.bytes c.entries = 512 * count.toNat
  laid : Laid HbaPrdtEntry.bytes HbaPrdtEntry.place (2 ^ 32) buf.toNat c.entries
    ((buf.toNat + 512 * count.toNat) % 2 ^ 32)

/-- Entries of the same size. -/
theorem total_map_range {f : ℕ → HbaPrdtEntry} {b n : ℕ} (h : ∀ j < n, (f j).bytes = b) :
    total HbaPrdtEntry.bytes ((List.range n).map f) = n * b := by
  induction n with
  | zero => simp
  | succ n ih =>
    have hn := ih fun j hj => h j (hj.trans (Nat.lt_succ_self n))
    rw [List.range_succ, List.map_append, total_append, hn, List.map_singleton, total_cons,
      h n (Nat.lt_succ_self n), total_nil, Nat.succ_mul, Nat.add_zero]

/-! ## The loop -/

section Loop

variable (s : ReadLoop) (k : ℕ)

theorem iterate_next_i : (ReadLoop.next^[k] s).i = s.i + k := by
  induction k with
  | zero => rfl
  | succ k ih =>
    rw [Function.iterate_succ_apply', ReadLoop.next, ih, Nat.add_assoc]

theorem iterate_next_buf :
    (ReadLoop.next^[k] s).buf = s.buf + BitVec.ofNat 32 (8192 * k) := by
  induction k with
  | zero => simp
  | succ k ih =>
    rw [Function.iterate_succ_apply', ReadLoop.next, ih]
    bv_omega

theorem iterate_next_count :
    (ReadLoop.next^[k] s).count = s.count - BitVec.ofNat 32 (16 * k) := by
  induction k with
  | zero => simp
  | succ k ih =>
    rw [Function.iterate_succ_apply', ReadLoop.next, ih]
    bv_omega

/-- The rounds leave the frame of the command alone. -/
theorem iterate_next_cfis : (ReadLoop.next^[k] s).tbl.cfis = s.tbl.cfis := by
  induction k with
  | zero => rfl
  | succ k ih =>
    rw [Function.iterate_succ_apply', ReadLoop.next, HbaCmdTbl.cfis_setEntry, ih]

theorem iterate_next_entry_of_ge {j : ℕ} (hj : s.i + k ≤ j) :
    (ReadLoop.next^[k] s).tbl.prdtEntry j = s.tbl.prdtEntry j := by
  induction k with
  | zero => rfl
  | succ k ih =>
    have hne : j ≠ (ReadLoop.next^[k] s).i := by
      rw [iterate_next_i]
      omega
    rw [Function.iterate_succ_apply', ReadLoop.next, HbaCmdTbl.setEntry]
    dsimp only
    rw [Function.update_of_ne hne, ih (by omega)]

/-- The entries of the rounds, each 8K bytes further on. -/
theorem iterate_next_entry {j : ℕ} (hj : j < k) :
    (ReadLoop.next^[k] s).tbl.prdtEntry (s.i + j) =
      { s.tbl.prdtEntry (s.i + j) with
        dba := s.buf + BitVec.ofNat 32 (8192 * j), dbc := 8192, i := 1 } := by
  induction k with
  | zero => omega
  | succ k ih =>
    rw [Function.iterate_succ_apply', ReadLoop.next, HbaCmdTbl.setEntry]
    dsimp only
    rw [iterate_next_i]
    rcases Nat.lt_succ_iff_lt_or_eq.1 hj with hlt | rfl
    · rw [Function.update_of_ne (by omega), ih hlt]
    · rw [Function.update_self, iterate_next_buf, iterate_next_entry_of_ge s j le_rfl]
      rfl

end Loop

/-! ## The table -/

section Table

variable (tbl : HbaCmdTbl) (prdtl : ℕ) (startl starth count buf : Word)

/-- All entries but the last are for 8K bytes, and set `dbc` to that. -/
theorem readTable_entry {j : ℕ} (hj : j < prdtl - 1) :
    (readTable tbl prdtl startl starth count buf).prdtEntry j =
      { dba := buf + BitVec.ofNat 32 (8192 * j), dbau := 0, dbc := 8192, i := 1 } := by
  have hentry := iterate_next_entry ⟨0, tbl.clear prdtl, buf, count⟩ (prdtl - 1) hj
  dsimp only at hentry
  rw [Nat.zero_add, tbl.prdtEntry_clear (by omega)] at hentry
  rw [readTable, HbaCmdTbl.setEntry, iterate_next_i]
  dsimp only
  rw [Function.update_of_ne (by omega), hentry]
  rfl

/-- The last entry is for the sectors that the others leave. -/
theorem readTable_entry_last (h : 0 < prdtl) :
    (readTable tbl prdtl startl starth count buf).prdtEntry (prdtl - 1) =
      { dba := buf + BitVec.ofNat 32 (8192 * (prdtl - 1)), dbau := 0,
        dbc := ((count - BitVec.ofNat 32 (16 * (prdtl - 1))) <<< 9).setWidth 22, i := 1 } := by
  have hentry := iterate_next_entry_of_ge ⟨0, tbl.clear prdtl, buf, count⟩ (prdtl - 1)
    (Nat.le_of_eq (Nat.zero_add (prdtl - 1)))
  dsimp only at hentry
  rw [tbl.prdtEntry_clear (by omega)] at hentry
  rw [readTable, HbaCmdTbl.setEntry, iterate_next_i, iterate_next_buf, iterate_next_count]
  dsimp only
  rw [Nat.zero_add, Function.update_self, hentry]
  rfl

/-- The frame carries the count that is left after the loop. -/
theorem readTable_cfis :
    (readTable tbl prdtl startl starth count buf).cfis =
      readFis .zero startl starth (count - BitVec.ofNat 32 (16 * (prdtl - 1))) := by
  rw [readTable, iterate_next_count]
  dsimp only
  rw [HbaCmdTbl.cfis_setEntry, iterate_next_cfis]
  rfl

end Table

/-- The frame starts at the sector that is asked for. -/
theorem readFis_lba (fis : FisRegH2d) (startl starth count : Word) :
    (readFis fis startl starth count).lba = starth.setWidth 16 ++ startl := by
  unfold FisRegH2d.lba readFis
  refine BitVec.eq_of_getLsbD_eq fun t ht => ?_
  simp only [BitVec.getLsbD_append, BitVec.getLsbD_setWidth, BitVec.getLsbD_ushiftRight]
  grind

/-- The frame asks for the sectors of a count, modulo `2^16`. -/
theorem readFis_sectors (fis : FisRegH2d) (startl starth count : Word) :
    (readFis fis startl starth count).sectors = count.setWidth 16 := by
  unfold FisRegH2d.sectors readFis
  refine BitVec.eq_of_getLsbD_eq fun t ht => ?_
  simp only [BitVec.getLsbD_append, BitVec.getLsbD_setWidth, BitVec.getLsbD_and,
    BitVec.getLsbD_ushiftRight]
  have hmask : ∀ k < 8, (0xff : Word).getLsbD k = true := by decide
  grind

/-! ## The command -/

section Command

variable {count : Word}

/-- An entry for every sixteen sectors. -/
theorem toNat_readHeader_prdtl (header : HbaCmdHeader) (hpos : 1 ≤ count.toNat)
    (hmax : count.toNat ≤ 128) :
    (readHeader header count).prdtl.toNat = (count.toNat - 1) / 16 + 1 := by
  have hshift : ((count - 1) >>> 4).toNat = (count.toNat - 1) / 16 := by
    rw [BitVec.toNat_ushiftRight, Nat.shiftRight_eq_div_pow]
    bv_omega
  have hone : (1 : BitVec 16).toNat = 1 := rfl
  rw [readHeader, BitVec.toNat_add, BitVec.toNat_setWidth, hshift, hone]
  omega

variable {cap startl starth buf : Word} {port : HbaPort} {cmdheader : ℕ → HbaCmdHeader}
  {cmdtbl : ℕ → HbaCmdTbl} {c : Command}

/-- A command that is issued has this header and this table. -/
theorem ahciRead_eq_some
    (h : ahciRead cap port cmdheader cmdtbl startl starth count buf = some c) :
    c.header = readHeader (cmdheader c.slot) count ∧
      c.table = readTable (cmdtbl c.slot) c.header.prdtl.toNat startl starth count buf := by
  obtain ⟨slot, -, hslot⟩ := Option.bind_eq_some_iff.1 h
  dsimp only at hslot
  split_ifs at hslot
  cases hslot
  exact ⟨rfl, rfl⟩

/-- A command is issued when a slot is free and the port gets ready. -/
theorem ahciRead_of_slot {slot : ℕ} (hslot : findCmdslot cap port = some slot)
    (hready : ¬PortHung port) :
    ahciRead cap port cmdheader cmdtbl startl starth count buf =
      some ⟨slot, readHeader (cmdheader slot) count,
        readTable (cmdtbl slot) (readHeader (cmdheader slot) count).prdtl.toNat startl starth count
          buf⟩ := by
  rw [ahciRead, hslot, Option.bind_some]
  exact if_neg hready

/-- The frame asks for what the entries before the last one leave. -/
theorem ahciRead_sectors (hpos : 1 ≤ count.toNat) (hmax : count.toNat ≤ 128)
    (h : ahciRead cap port cmdheader cmdtbl startl starth count buf = some c) :
    c.table.cfis.sectors.toNat = (count.toNat - 1) % 16 + 1 := by
  obtain ⟨hheader, htable⟩ := ahciRead_eq_some h
  have hprdtl := toNat_readHeader_prdtl (cmdheader c.slot) hpos hmax
  rw [← hheader] at hprdtl
  rw [htable, readTable_cfis, readFis_sectors, hprdtl]
  bv_omega

/-- The entries hold a byte each more than the sectors. -/
theorem ahciRead_total (hpos : 1 ≤ count.toNat) (hmax : count.toNat ≤ 128)
    (h : ahciRead cap port cmdheader cmdtbl startl starth count buf = some c) :
    total HbaPrdtEntry.bytes c.entries = 512 * count.toNat + c.header.prdtl.toNat := by
  obtain ⟨hheader, htable⟩ := ahciRead_eq_some h
  have hprdtl := toNat_readHeader_prdtl (cmdheader c.slot) hpos hmax
  rw [← hheader] at hprdtl
  set n := (count.toNat - 1) / 16 with hn
  have hfull : ∀ j < n, (c.table.prdtEntry j).bytes = 8193 := by
    intro j hj
    rw [htable, readTable_entry _ _ _ _ _ _ (by omega)]
    rfl
  have hlast : (c.table.prdtEntry n).bytes = 512 * (count.toNat - 16 * n) + 1 := by
    have hentry := readTable_entry_last (cmdtbl c.slot) (n + 1) startl starth count buf
      (Nat.succ_pos n)
    rw [Nat.add_sub_cancel] at hentry
    have hrest : (count - BitVec.ofNat 32 (16 * n)).toNat = count.toNat - 16 * n := by bv_omega
    rw [htable, hprdtl, hentry, HbaPrdtEntry.bytes, BitVec.toNat_setWidth, BitVec.toNat_shiftLeft,
      Nat.shiftLeft_eq, hrest]
    omega
  rw [Command.entries, hprdtl, List.range_succ, List.map_append, total_append,
    total_map_range hfull, List.map_singleton, total_cons, total_nil, hlast]
  omega

/-- No command that `read` issues is consistent. -/
theorem ahciRead_not_consistent (cap startl starth count buf : Word) (port : HbaPort)
    (cmdheader : ℕ → HbaCmdHeader) (cmdtbl : ℕ → HbaCmdTbl) (hpos : 1 ≤ count.toNat)
    (hmax : count.toNat ≤ 128) (c : Command)
    (h : ahciRead cap port cmdheader cmdtbl startl starth count buf = some c) :
    ¬c.Consistent count buf := by
  intro hc
  obtain ⟨hheader, -⟩ := ahciRead_eq_some h
  have htotal := ahciRead_total hpos hmax h
  have hprdtl := toNat_readHeader_prdtl (cmdheader c.slot) hpos hmax
  rw [hc.total, hheader] at htotal
  omega

end Command

/-- A port that has a free slot and is ready. -/
def readyPort : HbaPort where
  ssts := 0x103
  sig := 0
  sact := 0
  ci := 0
  tfd := fun _ => 0

/-- The command for twenty sectors at `0x8000`. -/
theorem ahciRead_twenty :
    ∃ c, ahciRead 0x100 readyPort (fun _ => ⟨0, 0, 0⟩) (fun _ => ⟨.zero, fun _ => .zero⟩) 0 0 20
      0x8000 = some c :=
  ⟨_, ahciRead_of_slot (show findCmdslot 0x100 readyPort = some 0 by decide)
    (not_portHung (by decide))⟩

/-- It is not consistent. -/
theorem ahciRead_twenty_not_consistent :
    ∃ c, ahciRead 0x100 readyPort (fun _ => ⟨0, 0, 0⟩) (fun _ => ⟨.zero, fun _ => .zero⟩) 0 0 20
      0x8000 = some c ∧ ¬c.Consistent 20 0x8000 := by
  obtain ⟨c, hc⟩ := ahciRead_twenty
  exact ⟨c, hc, ahciRead_not_consistent _ _ _ _ _ _ _ _ (by decide) (by decide) c hc⟩

/-- The frame asks for four of the twenty sectors, and the entries hold two bytes too much. -/
theorem ahciRead_twenty_sectors :
    ∃ c, ahciRead 0x100 readyPort (fun _ => ⟨0, 0, 0⟩) (fun _ => ⟨.zero, fun _ => .zero⟩) 0 0 20
      0x8000 = some c ∧ c.table.cfis.sectors.toNat = 4 ∧
        total HbaPrdtEntry.bytes c.entries = 512 * 20 + 2 := by
  obtain ⟨c, hc⟩ := ahciRead_twenty
  have htotal := ahciRead_total (by decide) (by decide) hc
  rw [(ahciRead_eq_some hc).1] at htotal
  exact ⟨c, hc, ahciRead_sectors (by decide) (by decide) hc, htotal⟩

end Scorch
