import Scorch.FirstFit

/-!
# Memory initialisation at boot

`main` of `kernel.c` from the memory report to the last `pmmngr_deinit_region`. The
multiboot map is the list of its entries. Their 64-bit address and length are cut to the
low 32 bits, and the length is read as an `int` by `pmmngr_init_region`.

`cleared_iff` says which frames the loop over the map clears. An entry clears a frame
that is not wholly its own when it starts at or above 4 GiB, or off a frame boundary
(`strayFrames`), and the loop clears available frames only exactly when every such frame
lies in another available entry (`cleared_inside_iff`).

`bootClear` and `bootFree` are the frames and the free count the whole sequence leaves, in
terms of its inputs. A frame is handed out by some later `pmmngr_alloc_block` when it is
clear and fewer clear frames lie below it than the free count allows, which is when
the allocator reaches the kernel, its own map or the first 64 KiB
(`allocsUnprotected_iff`).
-/

open ByteMemory

namespace Scorch

open Pmm

/-- `multiboot_mmap_entry` : the fields `main` reads. -/
structure MultibootMmapEntry where
  addr : BitVec 64
  len : BitVec 64
  type : Word

/-- `multiboot_info` : the memory sizes and the map. -/
structure MultibootInfo where
  memLower : Word
  memUpper : Word
  mmap : List MultibootMmapEntry

namespace MultibootMmapEntry

/-- `startLo`. -/
def startLo (e : MultibootMmapEntry) : Word :=
  (e.addr &&& 0xFFFFFFFF).setWidth 32

/-- `sizeLo`. -/
def sizeLo (e : MultibootMmapEntry) : Word :=
  (e.len &&& 0xFFFFFFFF).setWidth 32

end MultibootMmapEntry

/-- One round of the loop over the map. -/
def mainMmapEntry (s : Pmm) (e : MultibootMmapEntry) : Pmm :=
  if e.type = 1 then pmmngrInitRegion s e.startLo e.sizeLo else s

/-- The loop over the map. -/
def mainMmapLoop (s : Pmm) (entries : List MultibootMmapEntry) : Pmm :=
  entries.foldl mainMmapEntry s

/-- `mem_kb`. -/
def MultibootInfo.memKb (mbi : MultibootInfo) : Word :=
  mbi.memLower + mbi.memUpper

/-- The memory manager's part of `main`. -/
def mainInitMemory (s : Pmm) (sizekernel : Word) (mbi : MultibootInfo) : Pmm :=
  let s := pmmngrInit s mbi.memKb (0xC0100000 + sizekernel)
  let s := mainMmapLoop s mbi.mmap
  let s := pmmngrDeinitRegion s 0x100000 sizekernel
  pmmngrDeinitRegion s 0x0 0x10000

/-! ## The loop over the map -/

namespace MultibootMmapEntry

/-- The frames the loop clears for an available entry. -/
def freedFrames (e : MultibootMmapEntry) : Set ℕ :=
  regionFrames e.startLo e.sizeLo

/-- The whole frame lies in the 64-bit range of the entry. -/
def Contains (e : MultibootMmapEntry) (f : ℕ) : Prop :=
  e.addr.toNat ≤ f * 4096 ∧ f * 4096 + 4096 ≤ e.addr.toNat + e.len.toNat

/-- The frames an entry clears without containing them : all of them when it starts at or
above 4 GiB, the first one when it starts inside a frame. -/
def strayFrames (e : MultibootMmapEntry) : Set ℕ :=
  if 2 ^ 32 ≤ e.addr.toNat then e.freedFrames
  else if e.addr.toNat % 4096 = 0 then ∅
  else e.freedFrames ∩ {e.addr.toNat / 4096}

/-- `main` takes the low half of the address. -/
theorem toNat_startLo (e : MultibootMmapEntry) : e.startLo.toNat = e.addr.toNat % 2 ^ 32 := by
  have h : e.startLo = e.addr.setWidth 32 := by
    refine BitVec.eq_of_getLsbD_eq fun i hi => ?_
    have hmask : ∀ i < 32, (0xFFFFFFFF : BitVec 64).getLsbD i = true := by decide
    rw [startLo, BitVec.getLsbD_setWidth, BitVec.getLsbD_setWidth, BitVec.getLsbD_and, hmask i hi,
      Bool.and_true]
  rw [h, BitVec.toNat_setWidth]

theorem toNat_sizeLo (e : MultibootMmapEntry) : e.sizeLo.toNat = e.len.toNat % 2 ^ 32 :=
  toNat_startLo ⟨e.len, 0, 0⟩

/-- A freed frame that is not a stray one is within the entry. -/
theorem contains_of_notMem_strayFrames {e : MultibootMmapEntry} {f : ℕ} (hf : f ∈ e.freedFrames)
    (hstray : f ∉ e.strayFrames) : e.Contains f := by
  have hmem := hf
  unfold strayFrames at hstray
  obtain ⟨hlo, hhi⟩ := hf
  rw [blockCount_eq, toNat_sizeLo] at hhi
  rw [toNat_startLo] at hlo hhi
  split_ifs at hstray with h32 hal
  · exact absurd hmem hstray
  · refine ⟨by omega, ?_⟩
    split_ifs at hhi <;> omega
  · have hne : f ≠ e.addr.toNat / 4096 := fun h => hstray ⟨hmem, h⟩
    refine ⟨by omega, ?_⟩
    split_ifs at hhi <;> omega

theorem strayFrames_subset (e : MultibootMmapEntry) : e.strayFrames ⊆ e.freedFrames := by
  unfold strayFrames
  split_ifs
  · exact subset_rfl
  · exact Set.empty_subset _
  · exact Set.inter_subset_left

end MultibootMmapEntry

/-- After the loop over the map, a frame is in use when it was and no available entry freed it. -/
theorem mem_used_mainMmapLoop (entries : List MultibootMmapEntry) (s : Pmm) {f : ℕ}
    (hf : f ≠ 0) :
    f ∈ (mainMmapLoop s entries).used ↔
      f ∈ s.used ∧ ∀ e ∈ entries, e.type = 1 → f ∉ e.freedFrames := by
  induction entries generalizing s with
  | nil => simp [mainMmapLoop]
  | cons e entries ih =>
    have hstep : f ∈ (mainMmapEntry s e).used ↔
        f ∈ s.used ∧ (e.type = 1 → f ∉ e.freedFrames) := by
      unfold mainMmapEntry
      split_ifs with ht
      · rw [used_pmmngrInitRegion, Set.mem_insert_iff, Set.mem_sdiff]
        simp [hf, ht, MultibootMmapEntry.freedFrames]
      · exact ⟨fun h => ⟨h, fun h1 => absurd h1 ht⟩, And.left⟩
    show f ∈ (mainMmapLoop (mainMmapEntry s e) entries).used ↔ _
    rw [ih, hstep, List.forall_mem_cons, and_assoc]

theorem zero_mem_used_mainMmapLoop (entries : List MultibootMmapEntry) (s : Pmm)
    (h : 0 ∈ s.used) : 0 ∈ (mainMmapLoop s entries).used := by
  induction entries generalizing s with
  | nil => exact h
  | cons e entries ih =>
    refine ih _ ?_
    unfold mainMmapEntry
    split_ifs
    · rw [used_pmmngrInitRegion]
      exact Set.mem_insert _ _
    · exact h

/-- The loop clears a used frame other than `0` when some available entry frees it. -/
theorem cleared_iff (s : Pmm) (entries : List MultibootMmapEntry) (f : ℕ) :
    f ∈ s.used ∧ f ∉ (mainMmapLoop s entries).used ↔
      f ∈ s.used ∧ f ≠ 0 ∧ ∃ e ∈ entries, e.type = 1 ∧ f ∈ e.freedFrames := by
  refine and_congr_right fun hf => ?_
  by_cases h0 : f = 0
  · subst h0
    simp [zero_mem_used_mainMmapLoop entries s hf]
  · rw [mem_used_mainMmapLoop entries s h0]
    simp [hf, h0]

/-- The bytes of the frame at an address. -/
def frameBytes (p : Word) : Set ℕ :=
  Set.Ico p.toNat (p.toNat + 4096)

/-- The kernel image, the allocator's map behind it, one bit for each block, and the first
64 KiB, at their physical addresses. -/
def protectedBytes (sizekernel maxBlocks : Word) : Set ℕ :=
  Set.Ico 0x100000 (0x100000 + sizekernel.toNat) ∪
    Set.Ico (0x100000 + sizekernel.toNat)
      (0x100000 + sizekernel.toNat + (maxBlocks.toNat + 7) / 8) ∪
    Set.Iio 0x10000

/-- The frames with a non-null address whose bytes meet those. -/
def protectedFrames (sizekernel maxBlocks : Word) : Set ℕ :=
  {f | frameAddr f ≠ 0 ∧
    ¬Disjoint (frameBytes (frameAddr f)) (protectedBytes sizekernel maxBlocks)}

/-- The frames the boot sequence leaves clear : those an available entry frees, the last
four of every eight the `memset` covers, and those past it whose bit was clear before,
but for the first 16 and the whole frames of the kernel. -/
def bootClear (s : Pmm) (sizekernel : Word) (mbi : MultibootInfo) : Set ℕ :=
  let maxBlocks := initBlockCount mbi.memKb
  {f | f < maxBlocks.toNat * 32 ∧ 16 ≤ f ∧ f ∉ regionFrames 0x100000 sizekernel ∧
    ((∃ e ∈ mbi.mmap, e.type = 1 ∧ f ∈ e.freedFrames) ∨
      if f / 8 < maxBlocks.toNat / 8 then 4 ≤ f % 8
      else { s with mmngrMemoryMap := 0xC0100000 + sizekernel }.frameUsed f = false)}

/-- The blocks the available entries add to the free count. -/
def mmapBlocks : List MultibootMmapEntry → Word
  | [] => 0
  | e :: entries =>
    (if e.type = 1 then BitVec.ofNat 32 (blockCount e.sizeLo) else 0) + mmapBlocks entries

/-- The free count after the boot sequence. -/
def bootFree (sizekernel : Word) (mbi : MultibootInfo) : Word :=
  mmapBlocks mbi.mmap - BitVec.ofNat 32 (blockCount sizekernel) - 16

@[simp] theorem mmngrMaxBlocks_mainMmapLoop (entries : List MultibootMmapEntry) (s : Pmm) :
    (mainMmapLoop s entries).mmngrMaxBlocks = s.mmngrMaxBlocks := by
  induction entries generalizing s with
  | nil => rfl
  | cons e entries ih =>
    refine (ih _).trans ?_
    unfold mainMmapEntry
    split_ifs
    · exact mmngrMaxBlocks_pmmngrInitRegion s _ _
    · rfl

/-- Each available entry adds its blocks to the free count, whatever was free before. -/
theorem freeCount_mainMmapLoop (entries : List MultibootMmapEntry) (s : Pmm) :
    pmmngrGetFreeBlockCount (mainMmapLoop s entries) =
      pmmngrGetFreeBlockCount s + mmapBlocks entries := by
  induction entries generalizing s with
  | nil => exact (BitVec.add_zero _).symm
  | cons e entries ih =>
    refine (ih _).trans ?_
    rw [mmapBlocks, ← BitVec.add_assoc]
    congr 1
    unfold mainMmapEntry
    split_ifs
    · unfold pmmngrGetFreeBlockCount
      rw [mmngrMaxBlocks_pmmngrInitRegion, mmngrUsedBlocks_pmmngrInitRegion]
      bv_omega
    · exact (BitVec.add_zero _).symm

variable (s : Pmm) (sizekernel : Word) (mbi : MultibootInfo)

/-- The number of blocks comes from the memory that the loader reports. -/
theorem mmngrMaxBlocks_mainInitMemory :
    (mainInitMemory s sizekernel mbi).mmngrMaxBlocks = initBlockCount mbi.memKb := by
  unfold mainInitMemory
  rw [mmngrMaxBlocks_pmmngrDeinitRegion, mmngrMaxBlocks_pmmngrDeinitRegion,
    mmngrMaxBlocks_mainMmapLoop, mmngrMaxBlocks_pmmngrInit]

theorem freeCount_mainInitMemory :
    pmmngrGetFreeBlockCount (mainInitMemory s sizekernel mbi) = bootFree sizekernel mbi := by
  have hdeinit : ∀ (t : Pmm) (base size : Word),
      pmmngrGetFreeBlockCount (pmmngrDeinitRegion t base size) =
        pmmngrGetFreeBlockCount t - BitVec.ofNat 32 (blockCount size) := by
    intro t base size
    unfold pmmngrGetFreeBlockCount
    rw [mmngrMaxBlocks_pmmngrDeinitRegion, mmngrUsedBlocks_pmmngrDeinitRegion]
    bv_omega
  have hinit : pmmngrGetFreeBlockCount (pmmngrInit s mbi.memKb (0xC0100000 + sizekernel)) = 0 := by
    unfold pmmngrGetFreeBlockCount
    rw [mmngrMaxBlocks_pmmngrInit, mmngrUsedBlocks_pmmngrInit, BitVec.sub_self]
    rfl
  have h16 : blockCount 0x10000 = 16 := by decide
  unfold mainInitMemory bootFree
  rw [hdeinit, hdeinit, freeCount_mainMmapLoop, hinit, h16]
  bv_omega

theorem mem_clear_mainInitMemory {f : ℕ} (hf : f < frameLimit) :
    f ∈ (mainInitMemory s sizekernel mbi).clear ↔ f ∈ bootClear s sizekernel mbi := by
  have hlow : f ∈ regionFrames 0x0 0x10000 ↔ f < 16 := by
    have h16 : blockCount 0x10000 = 16 := by decide
    rw [regionFrames, h16, Set.mem_Ico]
    exact ⟨And.right, fun h => ⟨Nat.zero_le _, h⟩⟩
  have hbit : (mainInitMemory s sizekernel mbi).frameUsed f = false ↔
      f ∉ (mainInitMemory s sizekernel mbi).used := by
    rw [mem_used]
    simp [hf]
  rw [mem_clear, mmngrMaxBlocks_mainInitMemory, bootClear, Set.mem_ofPred_eq, hbit]
  refine and_congr_right fun _ => ?_
  unfold mainInitMemory
  rw [used_pmmngrDeinitRegion, used_pmmngrDeinitRegion, Set.mem_insert_iff, Set.mem_union,
    Set.mem_insert_iff, Set.mem_union, hlow]
  by_cases h16 : f < 16
  · simp [h16]
  have h0 : f ≠ 0 := by omega
  have hbit0 : f ∈ (pmmngrInit s mbi.memKb (0xC0100000 + sizekernel)).used ↔
      ¬if f / 8 < (initBlockCount mbi.memKb).toNat / 8 then 4 ≤ f % 8
        else { s with mmngrMemoryMap := 0xC0100000 + sizekernel }.frameUsed f = false := by
    rw [mem_used, frameUsed_pmmngrInit s _ _ hf]
    split_ifs <;> simp [hf]
  rw [mem_used_mainMmapLoop _ _ h0, hbit0]
  simp only [h0, h16, false_or, or_false, not_or, not_and_or, not_not, not_forall, exists_prop]
  rw [and_comm, or_comm]
  exact (and_iff_right (not_lt.1 h16)).symm

theorem clearBelow_mainInitMemory {f : ℕ} (hf : f ≤ frameLimit) :
    (mainInitMemory s sizekernel mbi).clearBelow f =
      bootClear s sizekernel mbi ∩ Set.Iio f := by
  ext g
  rw [clearBelow, Set.mem_inter_iff, Set.mem_inter_iff]
  exact and_congr_left fun hg =>
    mem_clear_mainInitMemory s sizekernel mbi ((Set.mem_Iio.1 hg).trans_le hf)

/-- On a map that long, frame `2^20 + 4` is clear and its address wraps into the first
64 KiB. -/
theorem wrapped_protected (h : 2 ^ 32 - 2 ^ 19 ≤ (initBlockCount mbi.memKb).toNat) :
    2 ^ 20 + 4 ∈ bootClear s sizekernel mbi ∧
      2 ^ 20 + 4 ∈ protectedFrames sizekernel (initBlockCount mbi.memKb) := by
  refine ⟨⟨by omega, by norm_num, fun hmem => ?_, Or.inr ?_⟩, by decide, ?_⟩
  · have h2 := hmem.2
    have hbase : (0x100000 : Word).toNat = 0x100000 := rfl
    rw [hbase, blockCount_eq] at h2
    split_ifs at h2 <;> omega
  · rw [if_pos (by omega)]
    norm_num
  · have haddr : (frameAddr (2 ^ 20 + 4)).toNat = 0x4000 := by decide
    refine Set.not_disjoint_iff.2 ⟨0x4000, ?_, Or.inr (by norm_num)⟩
    rw [frameBytes, haddr]
    norm_num

/-- No later `pmmngr_alloc_block` returns a frame that meets `P`. -/
def AllocsUnprotected (b : Pmm) (P : Set ℕ) : Prop :=
  ∀ n, (pmmngrAllocBlock (b.afterAllocs n)).1 ≠ 0 →
    Disjoint (frameBytes (pmmngrAllocBlock (b.afterAllocs n)).1) P

variable {s sizekernel mbi} in
/-- The frames below a clear frame that must stay free are taken before the frame is. -/
theorem AllocsUnprotected.freeCount_le
    (h : AllocsUnprotected (mainInitMemory s sizekernel mbi)
      (protectedBytes sizekernel (initBlockCount mbi.memKb)))
    {f : ℕ} (hf : f < 2 ^ 31) (hclear : f ∈ bootClear s sizekernel mbi)
    (hprot : f ∈ protectedFrames sizekernel (initBlockCount mbi.memKb)) :
    (bootFree sizekernel mbi).toNat ≤ (bootClear s sizekernel mbi ∩ Set.Iio f).ncard := by
  have hlim : 2 ^ 31 < frameLimit := by norm_num
  by_contra hlt
  rw [← clearBelow_mainInitMemory s sizekernel mbi (hf.trans hlim).le,
    ← freeCount_mainInitMemory s sizekernel mbi, not_le] at hlt
  obtain ⟨n, hn⟩ := exists_alloc_frameAddr hf _
    ((mem_clear_mainInitMemory s sizekernel mbi (hf.trans hlim)).2 hclear) rfl hlt
  refine hprot.2 ?_
  rw [← hn]
  exact h n (by rw [hn]; exact hprot.1)

/-- After boot no later `pmmngr_alloc_block` returns a frame that overlaps the kernel, the
allocator's map or the first 64 KiB exactly when every clear frame that does has as many
clear frames below it as the free count admits. -/
theorem allocsUnprotected_iff :
    AllocsUnprotected (mainInitMemory s sizekernel mbi)
        (protectedBytes sizekernel (initBlockCount mbi.memKb)) ↔
      ∀ f < 2 ^ 31, f ∈ bootClear s sizekernel mbi →
        f ∈ protectedFrames sizekernel (initBlockCount mbi.memKb) →
        (bootFree sizekernel mbi).toNat ≤ (bootClear s sizekernel mbi ∩ Set.Iio f).ncard := by
  refine ⟨fun h f hf hclear hprot => h.freeCount_le hf hclear hprot, fun h n hne => ?_⟩
  have hguard : (mainInitMemory s sizekernel mbi).Guarded
      (protectedFrames sizekernel (initBlockCount mbi.memKb)) := by
    intro f hprot hf hfl
    rw [freeCount_mainInitMemory, clearBelow_mainInitMemory s sizekernel mbi hfl.le]
    rw [mem_clear_mainInitMemory s sizekernel mbi hfl] at hf
    rcases Nat.lt_or_ge f (2 ^ 31) with hlt | hge
    · exact h f hlt hf hprot
    -- A clear frame this high exists only on a map where a lower one is protected too.
    have hmax : 2 ^ 32 - 2 ^ 19 ≤ (initBlockCount mbi.memKb).toNat := by
      have := hf.1
      rcases initBlockCount_bounds mbi.memKb with hb | hb <;> omega
    obtain ⟨hwc, hwp⟩ := wrapped_protected s sizekernel mbi hmax
    refine (h _ (by norm_num) hwc hwp).trans (Set.ncard_le_ncard ?_ ?_)
    · exact Set.inter_subset_inter_right _ (Set.Iio_subset_Iio (by omega))
    · exact (Set.finite_Iio f).inter_of_right _
  obtain ⟨f, hf, haddr⟩ := notMem_of_guarded hguard n hne
  by_contra hdisj
  rw [haddr] at hne hdisj
  exact hf ⟨hne, hdisj⟩

/-- Below frame `f` there are at most `f` of them. -/
theorem ncard_inter_Iio_le (S : Set ℕ) (f : ℕ) : (S ∩ Set.Iio f).ncard ≤ f := by
  have hle := Set.ncard_le_ncard (Set.inter_subset_right : S ∩ Set.Iio f ⊆ _) (Set.finite_Iio f)
  rwa [Set.ncard_eq_toFinset_card' (Set.Iio f), Set.toFinset_Iio, Nat.card_Iio] at hle

/-- A kernel of `0x1800` bytes on a machine of 16 MiB. Frame `257` holds its tail and
the allocator's map, and the region loop rounds the kernel down to frame `256`. -/
theorem not_allocsUnprotected :
    ¬∀ (s : Pmm) (sizekernel : Word) (mbi : MultibootInfo),
      AllocsUnprotected (mainInitMemory s sizekernel mbi)
        (protectedBytes sizekernel (initBlockCount mbi.memKb)) := by
  intro h
  have hle := (h fullPmm 0x1800
    ⟨640, 15360, [⟨0, 0x9FC00, 1⟩, ⟨0x100000, 0xF00000, 1⟩]⟩).freeCount_le (f := 257) (by norm_num)
    ⟨by decide, by norm_num, fun hk => absurd hk.2 (by decide), Or.inl
      ⟨⟨0x100000, 0xF00000, 1⟩, by simp, rfl, by decide, by decide⟩⟩
    ⟨by decide, Set.not_disjoint_iff.2 ⟨0x101000, ⟨by decide, by decide⟩,
      Or.inl (Or.inl ⟨by norm_num, by decide⟩)⟩⟩
  have hfree : (bootFree 0x1800 ⟨640, 15360, [⟨0, 0x9FC00, 1⟩, ⟨0x100000, 0xF00000, 1⟩]⟩).toNat =
      3982 := by decide
  have hcard := ncard_inter_Iio_le (bootClear fullPmm 0x1800
    ⟨640, 15360, [⟨0, 0x9FC00, 1⟩, ⟨0x100000, 0xF00000, 1⟩]⟩) 257
  omega

end Scorch
