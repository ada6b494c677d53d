import Scorch.ClusterChain

/-!
# The FAT12 encoding

Two entries of twelve bits share three bytes : the low eight bits of the first, its high
four with the low four of the second above them, and the high eight of the second.
`packFat` writes a table so, and the sectors from sector `1` on hold the bytes.

`fsysFatRead` copies two sectors and decodes 16 bits at `FAT_Offset`. What it gets is the
entry of the cluster, odd or even and in one sector or two (`fsysFatRead_inverts_packFat`).

The three bytes of a pair are the same bytes whether they lie in one sector or in two, since the
driver reads two sectors behind each other into one buffer.
-/

open ByteMemory

namespace Scorch

/-- The bytes of a table. A last entry without a second takes two. -/
def packFat : List (BitVec 12) → List Byte
  | [] => []
  | [e] => [e.setWidth 8, (e >>> 8).setWidth 8]
  | e :: f :: es =>
    e.setWidth 8 :: ((e >>> 8).setWidth 8 ||| f.setWidth 8 <<< 4) :: (f >>> 4).setWidth 8 ::
      packFat es

/-- The sectors of the FAT hold the bytes of the table. -/
def HoldsFat (disk : Disk) (es : List (BitVec 12)) : Prop :=
  ∀ (j : ℕ) (hj : j < (packFat es).length),
    disk (BitVec.ofNat 32 (1 + j / 512)) (j % 512) = (packFat es)[j]

/-- The twelve bits of entry `n` in the bytes. -/
def entryBits (bytes : ℕ → ℕ) (n : ℕ) : ℕ :=
  if n % 2 = 0 then bytes (n + n / 2) + bytes (n + n / 2 + 1) % 16 * 256
  else bytes (n + n / 2) / 16 + bytes (n + n / 2 + 1) * 16

/-- The entry of a cluster by the bytes of the table. -/
theorem fatEntry_eq_entryBits (disk : Disk) (n : ℕ) :
    fatEntry disk n = entryBits (fatByte disk) n :=
  rfl

theorem entryBits_congr {b b' : ℕ → ℕ} {n : ℕ} (h0 : b (n + n / 2) = b' (n + n / 2))
    (h1 : b (n + n / 2 + 1) = b' (n + n / 2 + 1)) : entryBits b n = entryBits b' n := by
  rw [entryBits, entryBits, h0, h1]

/-- Two entries further on the bits are three bytes further on. -/
theorem entryBits_add_two (b : ℕ → ℕ) (n : ℕ) :
    entryBits b (n + 2) = entryBits (fun j => b (j + 3)) n := by
  rw [entryBits, entryBits, Nat.add_mod_right, show n + 2 + (n + 2) / 2 = n + n / 2 + 3 by omega,
    show n + n / 2 + 3 + 1 = n + n / 2 + 1 + 3 by omega]

/-- The middle byte of a pair. -/
theorem toNat_middle (e f : BitVec 12) :
    ((e >>> 8).setWidth 8 ||| f.setWidth 8 <<< 4 : Byte).toNat =
      f.toNat % 16 * 16 + e.toNat / 256 := by
  have he : e.toNat / 256 < 2 ^ 4 := by have := e.isLt; omega
  rw [BitVec.toNat_or, Nat.or_comm, BitVec.toNat_shiftLeft, BitVec.toNat_setWidth,
    BitVec.toNat_setWidth, BitVec.toNat_ushiftRight, Nat.shiftRight_eq_div_pow,
    Nat.shiftLeft_eq, show f.toNat % 2 ^ 8 * 2 ^ 4 % 2 ^ 8 = (f.toNat % 16) * 2 ^ 4 by omega,
    show e.toNat / 2 ^ 8 % 2 ^ 8 = e.toNat / 256 by omega, ← Nat.shiftLeft_eq,
    ← Nat.shiftLeft_add_eq_or_of_lt he, Nat.shiftLeft_eq]

/-- Every entry can be read back from the bytes of the table. -/
theorem entryBits_packFat (es : List (BitVec 12)) (n : ℕ) (hn : n < es.length) :
    entryBits (fun j => ((packFat es).getD j 0).toNat) n = es[n].toNat ∧
      n + n / 2 + 1 < (packFat es).length := by
  induction es using packFat.induct generalizing n with
  | case1 => exact absurd hn (Nat.not_lt_zero n)
  | case2 e =>
    obtain rfl : n = 0 := Nat.lt_one_iff.1 hn
    have he := e.isLt
    refine ⟨?_, by simp [packFat]⟩
    simp [entryBits, packFat, Nat.shiftRight_eq_div_pow]
    omega
  | case3 e f es ih =>
    have he := e.isLt
    have hf := f.isLt
    match n, hn with
    | 0, _ =>
      refine ⟨?_, by simp [packFat]⟩
      simp only [entryBits, packFat, List.getD_cons_zero, List.getD_cons_succ, toNat_middle]
      simp
      omega
    | 1, _ =>
      refine ⟨?_, by simp [packFat]⟩
      simp only [entryBits, packFat, List.getD_cons_zero, List.getD_cons_succ, toNat_middle]
      simp [Nat.shiftRight_eq_div_pow]
      omega
    | n + 2, hn =>
      obtain ⟨hbits, hlen⟩ := ih n (by simpa using hn)
      rw [entryBits_add_two]
      simp only [packFat, List.getD_cons_succ, List.length_cons, List.getElem_cons_succ]
      exact ⟨hbits, by omega⟩

/-- The disk has the entries of the table that its sectors hold. -/
theorem HoldsFat.fatEntry_eq {disk : Disk} {es : List (BitVec 12)} (h : HoldsFat disk es) {n : ℕ}
    (hn : n < es.length) : fatEntry disk n = es[n].toNat := by
  obtain ⟨hbits, hlen⟩ := entryBits_packFat es n hn
  have hbyte : ∀ j < (packFat es).length, fatByte disk j = ((packFat es).getD j 0).toNat := by
    intro j hj
    rw [fatByte, h j hj, List.getD_eq_getElem?_getD, List.getElem?_eq_getElem hj, Option.getD_some]
  rw [fatEntry_eq_entryBits, ← hbits]
  exact entryBits_congr (hbyte _ (by omega)) (hbyte _ hlen)

/-- What the driver decodes is the entry that was packed. -/
theorem HoldsFat.fatLink_eq {disk : Disk} {es : List (BitVec 12)} (h : HoldsFat disk es) {c : Word}
    (hc : c.toNat < es.length) (hoff : c.toNat + c.toNat / 2 < 2 ^ 32) :
    fatLink disk c = es[c.toNat].setWidth 16 := by
  have hlink := toNat_fatLink_of_offset disk hoff
  rw [BitVec.ofNat_toNat, BitVec.setWidth_eq, h.fatEntry_eq hc] at hlink
  apply BitVec.eq_of_toNat_eq
  have hlt := es[c.toNat].isLt
  rw [hlink, BitVec.toNat_setWidth, Nat.mod_eq_of_lt (by omega)]

/-- The array `FAT` after a call. -/
theorem fat_fsysFatRead (disk : Disk) (r : Reading) (length : Word) :
    nextCluster (fsysFatRead disk r length).state.fat r.file.currentCluster
        (fatOffset r.file.currentCluster % sectorSize) = fatLink disk r.file.currentCluster := by
  rw [← nextCluster_memcpy disk r.state.fat]
  simp only [fsysFatRead, apply_ite Reading.state, ite_self]
  rfl

/-- The link that a call extracts is the entry of the current cluster, and the file moves to it,
or to its end where the entry is a mark. -/
theorem fsysFatRead_inverts_packFat {disk : Disk} {es : List (BitVec 12)} (h : HoldsFat disk es)
    (r : Reading) (length : Word) (hc : r.file.currentCluster.toNat < es.length)
    (hoff : r.file.currentCluster.toNat + r.file.currentCluster.toNat / 2 < 2 ^ 32) :
    nextCluster (fsysFatRead disk r length).state.fat r.file.currentCluster
        (fatOffset r.file.currentCluster % sectorSize) =
        es[r.file.currentCluster.toNat].setWidth 16 ∧
      (fsysFatRead disk r length).file =
        if 0xff8 ≤ es[r.file.currentCluster.toNat] ∨ es[r.file.currentCluster.toNat] = 0 then
          { r.file with eof := 1 }
        else
          { r.file with
            currentCluster := es[r.file.currentCluster.toNat].setWidth 32 } := by
  have hlink := h.fatLink_eq hc hoff
  refine ⟨(fat_fsysFatRead disk r length).trans hlink, ?_⟩
  rw [fsysFatRead_file, hlink]
  generalize es[r.file.currentCluster.toNat] = e
  have hmark : EndMark (e.setWidth 16) ↔ 0xff8 ≤ e ∨ e = 0 := by
    rw [EndMark]
    bv_omega
  have hwide : (e.setWidth 16).setWidth 32 = e.setWidth 32 := by bv_omega
  rw [hwide]
  exact if_congr hmark rfl rfl

/-- A disk with the table and nothing else. -/
def tableDisk (es : List (BitVec 12)) : Disk :=
  fun s k => (packFat es).getD ((s.toNat - 1) * 512 + k) 0

theorem holdsFat_tableDisk {es : List (BitVec 12)} (h : (packFat es).length ≤ 2 ^ 40) :
    HoldsFat (tableDisk es) es := by
  intro j hj
  have hplace : ((BitVec.ofNat 32 (1 + j / 512)).toNat - 1) * 512 + j % 512 = j := by
    rw [BitVec.toNat_ofNat]
    omega
  rw [tableDisk, hplace, List.getD_eq_getElem?_getD, List.getElem?_eq_getElem hj, Option.getD_some]

/-- A table of 342 entries, the last of them in two sectors. -/
def splitTable : List (BitVec 12) :=
  List.replicate 341 0 ++ [0xabc]

/-- The entry of a cluster that lies across two sectors. -/
theorem fsysFatRead_inverts_splitTable :
    nextCluster (fsysFatRead (tableDisk splitTable) (openedAt 341) 512).state.fat 341
        (fatOffset 341 % sectorSize) = 0xabc ∧
      (fsysFatRead (tableDisk splitTable) (openedAt 341) 512).file =
        { (openedAt 341).file with currentCluster := 0xabc } := by
  have hbytes : (packFat splitTable).length ≤ 2 ^ 40 := by decide +kernel
  have hlen : (openedAt 341).file.currentCluster.toNat < splitTable.length := by
    simp [splitTable, openedAt, -List.reduceReplicate]
  have hentry : splitTable[(openedAt 341).file.currentCluster.toNat] = 0xabc := by
    simp [splitTable, openedAt, -List.reduceReplicate]
  have hread := fsysFatRead_inverts_packFat (holdsFat_tableDisk hbytes) (openedAt 341) 512 hlen
    (by decide)
  rw [hentry] at hread
  exact hread

end Scorch
