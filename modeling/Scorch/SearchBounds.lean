import Scorch.FreeRuns
import Scorch.Lib.GuardedRun

/-!
# The words an allocation looks at

The map has a bit for each of `max_blocks` frames, in `mapWords` words. The searches count
their words up to `max_blocks`, 32 times as many, and the tests of `mmap_first_free_s` and
the run that is granted may go beyond the word of the candidate.

Each function that reads or writes the map has a second one beside it that lists the
indices it uses (`mmapFirstFreeWords`, `countFreeWords` and so on). The words a search looks
at are those up to its first match (`FirstMatch.mem_scanLog`). A request stays in the map
just when the search finds a candidate there, tests no frame outside the map on its way, and
the run that begins at the candidate lies in the map (`request_iff`). So in a run of
operations from `pmmngr_init` the allocations keep to the words and the frames of the map
just when each of them does so (`allocsInMap_iff`).
-/

open ByteMemory GuardedRun

namespace Scorch

/-! ## Indices of words -/

/-- The words `mmap_test` reads in the innermost loop of `mmap_first_free_s`. -/
def countFreeWords (s : Pmm) (size startingBit : Word) : ℕ → Word → Word → List Word
  | 0, _, _ => []
  | rounds + 1, count, free =>
    let next := if mmapTest s (startingBit + count) then free else free + 1
    (startingBit + count).sdiv 32 ::
      if next = size then [] else countFreeWords s size startingBit rounds (count + 1) next

/-- The words `mmap_first_free` reads, each for the comparison and for its bits. -/
def mmapFirstFreeWords (s : Pmm) : List Word :=
  FirstMatch.scanLog (pmmngrGetBlockCount s).toNat 32 (mapWordFull s) (mapBitClear s)
    (fun i => [BitVec.ofNat 32 i]) fun i _ => [BitVec.ofNat 32 i]

/-- The words `mmap_first_free_s` reads. -/
def mmapFirstFreeSWords (s : Pmm) (size : Word) : List Word :=
  if size = 0 then []
  else if size = 1 then mmapFirstFreeWords s
  else
    FirstMatch.scanLog (pmmngrGetBlockCount s).toNat 32 (mapWordFull s)
      (fun i j => mapBitClear s i j && runFree s size i j) (fun i => [BitVec.ofNat 32 i])
      fun i j => BitVec.ofNat 32 i ::
        if mapBitClear s i j then
          countFreeWords s size (BitVec.ofNat 32 i * 32 + bitMask (BitVec.ofNat 32 j))
            (size.toNat + 1) 0 0
        else []

/-- The words the `mmap_set` loop of `pmmngr_alloc_blocks` reads and writes. -/
def setBlocksWords : ℕ → Word → List Word
  | 0, _ => []
  | n + 1, frame => frame.sdiv 32 :: setBlocksWords n (frame + 1)

/-- The words `pmmngr_alloc_block` uses. -/
def pmmngrAllocBlockWords (s : Pmm) : List Word :=
  if pmmngrGetFreeBlockCount s ≤ 0 then []
  else
    let frame := mmapFirstFree s
    mmapFirstFreeWords s ++ if frame = -1 then [] else [frame.sdiv 32]

/-- The words `pmmngr_alloc_blocks` uses. -/
def pmmngrAllocBlocksWords (s : Pmm) (size : Word) : List Word :=
  if pmmngrGetFreeBlockCount s ≤ size then []
  else
    let frame := mmapFirstFreeS s size
    mmapFirstFreeSWords s size ++ if frame = -1 then [] else setBlocksWords size.toNat frame

namespace Pmm

/-- The words that hold a bit of the map. -/
def mapWords (s : Pmm) : ℕ :=
  (s.mmngrMaxBlocks.toNat + 31) / 32

/-- The word of a bit is one of the map. -/
def InMap (s : Pmm) (bit : Word) : Prop :=
  (bit.sdiv 32).toNat < s.mapWords

/-- The frames tested for the candidate `g` are in the map. The last of the `size + 1` is
tested when one of the others is used. -/
def TestsInMap (s : Pmm) (size : Word) (g : ℕ) : Prop :=
  ∀ c ≤ size.toNat,
    (c = size.toNat → ∃ d < size.toNat, s.frameUsed (testedFrame g d) = true) →
      s.InMap (startingBit g + BitVec.ofNat 32 c)

/-- The search for `size` frames stays in the map : there is a candidate in its words, or the
map has no more than one bit, and so are the frames tested for all clear frames up to the
first candidate. -/
structure SearchInMap (s : Pmm) (size : Word) : Prop where
  found : s.mmngrMaxBlocks.toNat ≤ 1 ∨ ∃ f ∈ s.candidates size, f < s.mapWords * 32
  tests : size ≠ 1 → ∀ g ∈ s.clear, (∀ f ∈ s.candidates size, g ≤ f) → s.TestsInMap size g

/-- The run that begins at the first candidate has its bits in the map, and is below
`max_blocks` if its address is not null. -/
def GrantInMap (s : Pmm) (size : Word) : Prop :=
  ∀ f, IsLeast (s.candidates size) f → BitVec.ofNat 32 f ≠ (-1 : Word) → ∀ k < size.toNat,
    s.InMap (BitVec.ofNat 32 f + BitVec.ofNat 32 k) ∧
      (frameAddr f ≠ 0 →
        (BitVec.ofNat 32 f + BitVec.ofNat 32 k).toNat < s.mmngrMaxBlocks.toNat)

/-! ## The words of the searches -/

/-- Looking at the words up to the first of `P` stays in the map when one of `P` is in it. -/
theorem rows_lt_mapWords_iff (s : Pmm) (P : Set ℕ) :
    (∀ i < s.mmngrMaxBlocks.toNat, (∀ f ∈ P, i * 32 ≤ f) → i < s.mapWords) ↔
      s.mmngrMaxBlocks.toNat ≤ 1 ∨ ∃ f ∈ P, f < s.mapWords * 32 := by
  simp only [mapWords]
  constructor
  · intro h
    by_contra hcon
    rw [not_or, not_exists] at hcon
    obtain ⟨hmax, hnone⟩ := hcon
    -- The first word behind the map would be looked at.
    have := h ((s.mmngrMaxBlocks.toNat + 31) / 32) (by omega) fun f hf =>
      not_lt.1 fun hlt => hnone f ⟨hf, hlt⟩
    omega
  · rintro (hmax | ⟨f, hf, hlt⟩) i hi hle
    · omega
    · have := hle f hf
      omega

/-- A word that the search looks at has a small index. -/
theorem toNat_row {s : Pmm} {i : ℕ} (hi : i < s.mmngrMaxBlocks.toNat) :
    (BitVec.ofNat 32 i).toNat = i :=
  toNat_ofNat_of_lt (hi.trans s.mmngrMaxBlocks.isLt)

/-- The search looks at the words up to the first with a clear bit. -/
theorem mem_mmapFirstFreeWords {s : Pmm} {w : Word} : w ∈ mmapFirstFreeWords s ↔
    ∃ i < s.mmngrMaxBlocks.toNat, (∀ f ∈ s.clear, i * 32 ≤ f) ∧ w = BitVec.ofNat 32 i := by
  rw [mmapFirstFreeWords, FirstMatch.mem_scanLog (eq_false_of_mapWordFull s fun _ _ h => h),
    positions_mapBitClear]
  simp only [List.mem_singleton]
  constructor
  · rintro (h | ⟨i, hi, j, hj, -, hle, hw⟩)
    · exact h
    · exact ⟨i, hi, fun f hf => (Nat.le_add_right _ _).trans (hle f hf), hw⟩
  · exact Or.inl

/-- The inner loop reads a word in each round until it has counted `size` clear bits. -/
theorem mem_countFreeWords {s : Pmm} {size start w : Word} :
    ∀ n k free : ℕ, free < size.toNat →
      (w ∈ countFreeWords s size start n (BitVec.ofNat 32 k) (BitVec.ofNat 32 free) ↔
        ∃ c < n, (free + (List.range' k c).countP fun c =>
            !mmapTest s (start + BitVec.ofNat 32 c)) < size.toNat ∧
          w = (start + BitVec.ofNat 32 (k + c)).sdiv 32)
  | 0, k, free, _ => by simp [countFreeWords]
  | n + 1, k, free, hfree => by
    have hsize := size.isLt
    have hnext : ∀ {P : ℕ → Prop}, (∃ c < n + 1, P c) ↔ P 0 ∨ ∃ c < n, P (c + 1) := by
      intro P
      constructor
      · rintro ⟨c, hc, hP⟩
        cases c with
        | zero => exact Or.inl hP
        | succ c => exact Or.inr ⟨c, by omega, hP⟩
      · rintro (hP | ⟨c, hc, hP⟩)
        · exact ⟨0, by omega, hP⟩
        · exact ⟨c + 1, by omega, hP⟩
    have hshift : ∀ {free : ℕ}, free < size.toNat →
        (w ∈ countFreeWords s size start n (BitVec.ofNat 32 (k + 1)) (BitVec.ofNat 32 free) ↔
          ∃ c < n, (free + (List.range' (k + 1) c).countP fun c =>
              !mmapTest s (start + BitVec.ofNat 32 c)) < size.toNat ∧
            w = (start + BitVec.ofNat 32 (k + (c + 1))).sdiv 32) := fun {free} hfree => by
      rw [mem_countFreeWords n (k + 1) free hfree]
      simp only [Nat.add_right_comm k 1, Nat.add_assoc]
    rw [countFreeWords, List.mem_cons, ofNat_succ, ofNat_succ, hnext]
    simp only [List.range'_zero, List.countP_nil, Nat.add_zero, hfree, true_and, List.range'_succ,
      List.countP_cons]
    refine or_congr_right ?_
    cases htest : mmapTest s (start + BitVec.ofNat 32 k) with
    | true =>
      have hne : BitVec.ofNat 32 free ≠ size := mt (ofNat_eq_iff_eq_toNat (by omega)).1 hfree.ne
      rw [if_pos rfl, if_neg hne, hshift hfree]
      simp
    | false =>
      have hiff : BitVec.ofNat 32 (free + 1) = size ↔ free + 1 = size.toNat :=
        ofNat_eq_iff_eq_toNat (by omega)
      by_cases hlast : free + 1 = size.toNat
      · rw [if_neg Bool.false_ne_true, if_pos (hiff.2 hlast)]
        refine iff_of_false List.not_mem_nil ?_
        rintro ⟨c, -, hlt, -⟩
        simp only [Bool.not_false, if_true] at hlt
        omega
      · rw [if_neg Bool.false_ne_true, if_neg (mt hiff.1 hlast), hshift (by omega)]
        refine exists_congr fun c => and_congr_right fun _ => and_congr_left fun _ => ?_
        simp only [Bool.not_false, if_true]
        omega

/-- Round `c` is reached when fewer than `size` clear bits are counted before it. -/
theorem countP_tests_lt_iff (s : Pmm) {size : Word} {c : ℕ} (g : ℕ) (hc : c ≤ size.toNat) :
    ((List.range c).countP fun d => !s.frameUsed (testedFrame g d)) < size.toNat ↔
      (c = size.toNat → ∃ d < size.toNat, s.frameUsed (testedFrame g d) = true) := by
  have hle := List.countP_le_length (p := fun d => !s.frameUsed (testedFrame g d))
    (l := List.range c)
  have hall := List.countP_eq_length (p := fun d => !s.frameUsed (testedFrame g d))
    (l := List.range c)
  rw [List.length_range] at hle hall
  constructor
  · rintro hlt rfl
    by_contra hnone
    refine hlt.ne (hall.2 fun d hd => ?_)
    rw [Bool.not_eq_true']
    by_contra hused
    exact hnone ⟨d, List.mem_range.1 hd, by simpa using hused⟩
  · intro h
    rcases Nat.lt_or_ge c size.toNat with hlt | hge
    · exact hle.trans_lt hlt
    · obtain ⟨d, hd, hused⟩ := h (Nat.le_antisymm hc hge)
      refine lt_of_le_of_ne (hle.trans hc) fun heq => ?_
      have := hall.1 (by omega) d (List.mem_range.2 (by omega))
      simp [hused] at this

/-- The tests for a run from a bit on stay in the map. -/
theorem testsInMap_iff (s : Pmm) {size : Word} (hsize : size ≠ 0) (g : ℕ) :
    (∀ w ∈ countFreeWords s size (startingBit g) (size.toNat + 1) 0 0, w.toNat < s.mapWords) ↔
      s.TestsInMap size g := by
  have hpos : 0 < size.toNat := by bv_omega
  have hmem : ∀ w, w ∈ countFreeWords s size (startingBit g) (size.toNat + 1) 0 0 ↔
      ∃ c < size.toNat + 1, (0 + (List.range' 0 c).countP fun d =>
          !mmapTest s (startingBit g + BitVec.ofNat 32 d)) < size.toNat ∧
        w = (startingBit g + BitVec.ofNat 32 (0 + c)).sdiv 32 :=
    fun w => mem_countFreeWords (size.toNat + 1) 0 0 hpos
  simp only [mmapTest_eq, ← List.range_eq_range', Nat.zero_add] at hmem
  constructor
  · intro h c hc hused
    have hlt := (countP_tests_lt_iff s g hc).2 hused
    exact h _ ((hmem _).2 ⟨c, by omega, hlt, rfl⟩)
  · intro h w hw
    obtain ⟨c, hc, hlt, rfl⟩ := (hmem w).1 hw
    exact h c (by omega) ((countP_tests_lt_iff s g (by omega)).1 hlt)

/-- The words read by a search for more than one frame are those up to the first candidate
and those of the tests on the way. -/
theorem forall_mem_mmapFirstFreeSWords (s : Pmm) {size : Word} (hsize : size ≠ 0)
    (h1 : size ≠ 1) :
    (∀ w ∈ mmapFirstFreeSWords s size, w.toNat < s.mapWords) ↔
      (∀ i < s.mmngrMaxBlocks.toNat, (∀ f ∈ s.candidates size, i * 32 ≤ f) → i < s.mapWords) ∧
        ∀ g ∈ s.clear, (∀ f ∈ s.candidates size, g ≤ f) → s.TestsInMap size g := by
  have hskip := eq_false_of_mapWordFull s
    (p := fun i j => mapBitClear s i j && runFree s size i j) fun i j h =>
      (Bool.and_eq_true_iff.1 h).1
  rw [mmapFirstFreeSWords, if_neg hsize, if_neg h1]
  simp only [FirstMatch.mem_scanLog hskip, positions_runFree s h1,
    runStarts_eq_candidates s hsize]
  constructor
  · intro h
    refine ⟨fun i hi hle => ?_, fun g hg hle => (testsInMap_iff s hsize g).1 fun w hw => ?_⟩
    · rw [← toNat_row hi]
      exact h _ (Or.inl ⟨i, hi, hle, List.mem_singleton.2 rfl⟩)
    · obtain ⟨hrow, hopen, hbit⟩ := mapBitClear_of_mem_clear hg
      have hsplit : g / 32 * 32 + g % 32 = g := by omega
      refine h w (Or.inr ⟨g / 32, hrow, g % 32, Nat.mod_lt _ (by norm_num), hopen,
        fun f hf => hsplit.trans_le (hle f hf), List.mem_cons_of_mem _ ?_⟩)
      rw [if_pos hbit]
      exact hw
  · rintro ⟨hrows, htests⟩ w (⟨i, hi, hle, hw⟩ | ⟨i, hi, j, hj, -, hle, hw⟩)
    · rw [List.mem_singleton.1 hw, toNat_row hi]
      exact hrows i hi hle
    · rcases List.mem_cons.1 hw with rfl | hw
      · rw [toNat_row hi]
        exact hrows i hi fun f hf => (Nat.le_add_right _ _).trans (hle f hf)
      · split_ifs at hw with hbit
        · have hdiv : (i * 32 + j) / 32 = i := by omega
          have hmod : (i * 32 + j) % 32 = j := by omega
          have hstart : startingBit (i * 32 + j) =
              BitVec.ofNat 32 i * 32 + bitMask (BitVec.ofNat 32 j) := by
            rw [startingBit, hdiv, hmod]
          have hclear := mem_clear_of_mapBitClear hi hj hbit
          refine (testsInMap_iff s hsize _).2 (htests _ hclear hle) w ?_
          rw [hstart]
          exact hw
        · exact absurd hw List.not_mem_nil

/-- The search stays in the map when the words before the first clear bit are in it. -/
theorem forall_mem_mmapFirstFreeWords (s : Pmm) :
    (∀ w ∈ mmapFirstFreeWords s, w.toNat < s.mapWords) ↔
      ∀ i < s.mmngrMaxBlocks.toNat, (∀ f ∈ s.candidates 1, i * 32 ≤ f) → i < s.mapWords := by
  have hone : s.candidates 1 = s.clear := by
    rw [← runStarts_eq_candidates s (by decide), runStarts_one]
  rw [hone]
  constructor
  · intro h i hi hle
    rw [← toNat_row hi]
    exact h _ (mem_mmapFirstFreeWords.2 ⟨i, hi, hle, rfl⟩)
  · intro h w hw
    obtain ⟨i, hi, hle, rfl⟩ := mem_mmapFirstFreeWords.1 hw
    rw [toNat_row hi]
    exact h i hi hle

/-- The words a search reads are in the map just when the search stays in it. -/
theorem searchInMap_iff (s : Pmm) {size : Word} (hsize : size ≠ 0) :
    (∀ w ∈ mmapFirstFreeSWords s size, w.toNat < s.mapWords) ↔ s.SearchInMap size := by
  by_cases h1 : size = 1
  · subst h1
    rw [mmapFirstFreeSWords, if_neg hsize, if_pos rfl, forall_mem_mmapFirstFreeWords,
      rows_lt_mapWords_iff]
    exact ⟨fun h => ⟨h, fun hne => absurd rfl hne⟩, fun h => h.found⟩
  · rw [forall_mem_mmapFirstFreeSWords s hsize h1, rows_lt_mapWords_iff]
    exact ⟨fun h => ⟨h.1, fun _ => h.2⟩, fun h => ⟨h.found, h.tests h1⟩⟩

/-! ## Requests -/

/-- The words that are stored to while a run is taken into use. -/
theorem mem_setBlocksWords {w : Word} : ∀ (n : ℕ) (frame : Word),
    w ∈ setBlocksWords n frame ↔ ∃ k < n, w = (frame + BitVec.ofNat 32 k).sdiv 32
  | 0, frame => by simp [setBlocksWords]
  | n + 1, frame => by
    rw [setBlocksWords, List.mem_cons, mem_setBlocksWords n (frame + 1)]
    have hzero : frame + BitVec.ofNat 32 0 = frame := BitVec.add_zero _
    have hsucc : ∀ k, frame + BitVec.ofNat 32 (k + 1) = frame + 1 + BitVec.ofNat 32 k := fun k => by
      rw [← ofNat_succ]
      bv_omega
    constructor
    · rintro (rfl | ⟨k, hk, rfl⟩)
      · exact ⟨0, by omega, by rw [hzero]⟩
      · exact ⟨k + 1, by omega, by rw [hsucc]⟩
    · rintro ⟨k, hk, rfl⟩
      cases k with
      | zero => exact Or.inl (by rw [hzero])
      | succ k => exact Or.inr ⟨k, by omega, by rw [hsucc]⟩

/-- The words of a request that passes the guard. -/
def requestWords (s : Pmm) (size : Word) : List Word :=
  mmapFirstFreeSWords s size ++
    if mmapFirstFreeS s size = -1 then [] else setBlocksWords size.toNat (mmapFirstFreeS s size)

/-- The address a request returns that passes the guard. -/
def requestAddr (s : Pmm) (size : Word) : Word :=
  if mmapFirstFreeS s size = -1 then 0 else mmapFirstFreeS s size * pmmngrBlockSize

/-- A request that passes the guard uses words of the map only and hands out frames below
`max_blocks` just when its search stays in the map and so does the run it grants. -/
theorem request_iff (s : Pmm) {size : Word} (hsize : size ≠ 0) :
    ((∀ w ∈ s.requestWords size, w.toNat < s.mapWords) ∧
        (s.requestAddr size ≠ 0 → ∀ k < size.toNat,
          (mmapFirstFreeS s size + BitVec.ofNat 32 k).toNat < s.mmngrMaxBlocks.toNat)) ↔
      s.SearchInMap size ∧ s.GrantInMap size := by
  rw [requestWords, requestAddr, List.forall_mem_append, searchInMap_iff s hsize, and_assoc]
  refine and_congr_right fun _ => ?_
  have hspec := mmapFirstFreeS_spec s hsize
  rw [runStarts_eq_candidates s hsize] at hspec
  rcases hspec with ⟨f, hf, hres⟩ | ⟨hnone, hres⟩
  · have hgrant : s.GrantInMap size ↔ BitVec.ofNat 32 f ≠ (-1 : Word) → ∀ k < size.toNat,
        s.InMap (BitVec.ofNat 32 f + BitVec.ofNat 32 k) ∧ (frameAddr f ≠ 0 →
          (BitVec.ofNat 32 f + BitVec.ofNat 32 k).toNat < s.mmngrMaxBlocks.toNat) :=
      ⟨fun h => h f hf, fun h g hg => hg.unique hf ▸ h⟩
    rw [hres, hgrant, ofNat_mul_blockSize]
    by_cases hneg : BitVec.ofNat 32 f = (-1 : Word)
    · rw [if_pos hneg, if_pos hneg]
      exact iff_of_true ⟨List.forall_mem_nil _, fun h => absurd rfl h⟩
        fun h => absurd hneg h
    · rw [if_neg hneg, if_neg hneg]
      constructor
      · rintro ⟨hwords, haddr⟩ - k hk
        exact ⟨hwords _ ((mem_setBlocksWords _ _).2 ⟨k, hk, rfl⟩), fun h => haddr h k hk⟩
      · intro h
        refine ⟨fun w hw => ?_, fun haddr k hk => (h hneg k hk).2 haddr⟩
        obtain ⟨k, hk, rfl⟩ := (mem_setBlocksWords _ _).1 hw
        exact (h hneg k hk).1
  · rw [if_pos hres, if_pos hres]
    refine iff_of_true ⟨List.forall_mem_nil _, fun h => absurd rfl h⟩ ?_
    intro f hf
    rw [hnone] at hf
    exact absurd hf.1 (Set.notMem_empty f)

/-- A run of one block is searched like a block. -/
theorem mmapFirstFreeS_one (s : Pmm) : mmapFirstFreeS s 1 = mmapFirstFree s := by
  rw [mmapFirstFreeS, if_neg (by decide), if_pos rfl]

/-- What a request for one block looks at, with a block free. -/
theorem pmmngrAllocBlockWords_of_free (s : Pmm) (h : ¬pmmngrGetFreeBlockCount s ≤ 0) :
    pmmngrAllocBlockWords s = s.requestWords 1 ∧ (pmmngrAllocBlock s).1 = s.requestAddr 1 := by
  have hwords : mmapFirstFreeSWords s 1 = mmapFirstFreeWords s := by
    rw [mmapFirstFreeSWords, if_neg (by decide), if_pos rfl]
  rw [pmmngrAllocBlockWords, pmmngrAllocBlock, if_neg h, if_neg h, requestWords, requestAddr,
    hwords, mmapFirstFreeS_one]
  refine ⟨rfl, ?_⟩
  dsimp only
  split_ifs <;> rfl

/-- What a request for a run looks at, with enough blocks free. -/
theorem pmmngrAllocBlocksWords_of_free (s : Pmm) {size : Word}
    (h : ¬pmmngrGetFreeBlockCount s ≤ size) :
    pmmngrAllocBlocksWords s size = s.requestWords size ∧
      (pmmngrAllocBlocks s size).1 = s.requestAddr size := by
  rw [pmmngrAllocBlocksWords, pmmngrAllocBlocks, if_neg h, if_neg h]
  refine ⟨rfl, ?_⟩
  rw [requestAddr]
  dsimp only
  split_ifs <;> rfl

end Pmm

/-! ## Runs -/

/-- The operations of the interface, with any arguments. -/
inductive PmmStep where
  | initRegion (base size : Word)
  | deinitRegion (base size : Word)
  | allocBlock
  | allocBlocks (size : Word)
  | freeBlock (p : Word)
  | freeBlocks (p size : Word)

namespace Pmm

/-- The state after an operation. -/
def perform (s : Pmm) : PmmStep → Pmm
  | .initRegion base size => pmmngrInitRegion s base size
  | .deinitRegion base size => pmmngrDeinitRegion s base size
  | .allocBlock => (pmmngrAllocBlock s).2
  | .allocBlocks size => (pmmngrAllocBlocks s size).2
  | .freeBlock p => pmmngrFreeBlock s p
  | .freeBlocks p size => pmmngrFreeBlocks s p size

/-- An allocation uses words of the map only, and the frames it hands out are below
`max_blocks`. -/
def KeepsToMap (s : Pmm) : PmmStep → Prop
  | .allocBlock => (∀ w ∈ pmmngrAllocBlockWords s, w.toNat < s.mapWords) ∧
      ((pmmngrAllocBlock s).1 ≠ 0 → (mmapFirstFree s).toNat < s.mmngrMaxBlocks.toNat)
  | .allocBlocks size => (∀ w ∈ pmmngrAllocBlocksWords s size, w.toNat < s.mapWords) ∧
      ((pmmngrAllocBlocks s size).1 ≠ 0 → ∀ k < size.toNat,
        (mmapFirstFreeS s size + BitVec.ofNat 32 k).toNat < s.mmngrMaxBlocks.toNat)
  | _ => True

/-- An allocation is refused at once, or its search and the run it grants stay in the map. -/
def RequestInMap (s : Pmm) : PmmStep → Prop
  | .allocBlock => pmmngrGetFreeBlockCount s = 0 ∨ s.SearchInMap 1 ∧ s.GrantInMap 1
  | .allocBlocks size => pmmngrGetFreeBlockCount s ≤ size ∨ size = 0 ∨
      s.SearchInMap size ∧ s.GrantInMap size
  | _ => True

/-- A request for one block keeps to the map when it is refused, or its search and its grant
stay there. -/
theorem keepsToMap_allocBlock_iff (s : Pmm) :
    s.KeepsToMap .allocBlock ↔ s.RequestInMap .allocBlock := by
  unfold KeepsToMap RequestInMap
  by_cases hfree : pmmngrGetFreeBlockCount s = 0
  · have hguard : pmmngrGetFreeBlockCount s ≤ 0 := BitVec.le_zero_iff.2 hfree
    rw [pmmngrAllocBlockWords, pmmngrAllocBlock, if_pos hguard, if_pos hguard]
    exact iff_of_true ⟨List.forall_mem_nil _, fun h => absurd rfl h⟩ (Or.inl hfree)
  · have hguard : ¬pmmngrGetFreeBlockCount s ≤ 0 := fun h => hfree (BitVec.le_zero_iff.1 h)
    obtain ⟨hwords, haddr⟩ := s.pmmngrAllocBlockWords_of_free hguard
    have hone : (∀ k < (1 : Word).toNat, (mmapFirstFreeS s 1 + BitVec.ofNat 32 k).toNat <
        s.mmngrMaxBlocks.toNat) ↔ (mmapFirstFree s).toNat < s.mmngrMaxBlocks.toNat := by
      have hzero : mmapFirstFree s + BitVec.ofNat 32 0 = mmapFirstFree s := BitVec.add_zero _
      rw [mmapFirstFreeS_one]
      constructor
      · intro h
        have h0 := h 0 (by decide)
        rwa [hzero] at h0
      · intro h k hk
        have hk' : k < 1 := hk
        rwa [Nat.lt_one_iff.1 hk', hzero]
    rw [or_iff_right hfree, hwords, haddr, ← request_iff s (by decide), hone]

/-- The same for a request for a run. -/
theorem keepsToMap_allocBlocks_iff (s : Pmm) (size : Word) :
    s.KeepsToMap (.allocBlocks size) ↔ s.RequestInMap (.allocBlocks size) := by
  simp only [KeepsToMap, RequestInMap]
  by_cases hguard : pmmngrGetFreeBlockCount s ≤ size
  · rw [pmmngrAllocBlocksWords, pmmngrAllocBlocks, if_pos hguard, if_pos hguard]
    exact iff_of_true ⟨List.forall_mem_nil _, fun h => absurd rfl h⟩
      (Or.inl hguard)
  · obtain ⟨hwords, haddr⟩ := s.pmmngrAllocBlocksWords_of_free hguard
    rw [or_iff_right hguard, hwords, haddr]
    by_cases hsize : size = 0
    · subst hsize
      exact iff_of_true ⟨List.forall_mem_nil _, fun _ k hk => absurd hk (Nat.not_lt_zero k)⟩
        (Or.inl rfl)
    · rw [or_iff_right hsize, request_iff s hsize]

/-- The other operations make no request. -/
theorem keepsToMap_iff (s : Pmm) (op : PmmStep) : s.KeepsToMap op ↔ s.RequestInMap op := by
  cases op with
  | allocBlock => exact keepsToMap_allocBlock_iff s
  | allocBlocks size => exact keepsToMap_allocBlocks_iff s size
  | _ => exact Iff.rfl

/-- In a run of operations from `pmmngr_init`, the allocations use words of the map only and
hand out frames below `max_blocks` just when each of them is refused at once or stays in the
map with its search and its grant. -/
theorem allocsInMap_iff (s : Pmm) (memSize bitmap : Word) (ops : List PmmStep) :
    (∀ js op, js ++ [op] <+: ops →
      (run perform (pmmngrInit s memSize bitmap) js).KeepsToMap op) ↔
      Meets perform RequestInMap (pmmngrInit s memSize bitmap) ops := by
  rw [← meets_iff_forall_prefix]
  exact meets_congr keepsToMap_iff _ ops

/-- With four frames, all used, releasing frame `4` lets it be handed out, and releasing
frame `0`, which stays used, makes the next search read three words behind the map. -/
theorem not_allocsInMap :
    (pmmngrInit fullPmm 16 0).mmngrMaxBlocks = 4 ∧ (pmmngrInit fullPmm 16 0).mapWords = 1 ∧
      (pmmngrAllocBlock (run perform (pmmngrInit fullPmm 16 0) [.initRegion 0x4000 0x1000])).1 =
        frameAddr 4 ∧
      3 ∈ pmmngrAllocBlockWords (run perform (pmmngrInit fullPmm 16 0) [.initRegion 0 0x1000]) := by
  decide

end Pmm

end Scorch
