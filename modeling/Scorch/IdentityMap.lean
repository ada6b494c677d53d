import Mathlib.Tactic.NormNum
import Scorch.EntryLasts
import Scorch.PageRange

/-!
# Identity mappings

`vmmngr_identMap` maps a range of bytes to itself. It counts pages by the size alone and maps
as many from the address on, and the address goes into every entry as it is. So an address
inside a page puts its low bits into the attributes, and the last page of the bytes may not
be counted.

The rest is what the tables do that are created on the way. Every store of the loop is an
entry that maps a page to itself, a page of the range or the frame of a new table, so an
entry is right after its last store, and the range is mapped when all its entries last
(`Sound.identMapped_iff_lasts`).

The entry that is stored is the address itself with the flags, so it is the entry of the frame
exactly when the range starts low enough in a page that the offset is lost in the flags.
-/

open ByteMemory GuardedRun

namespace Scorch

open Pmm

/-! ## The function -/

/-- `num_pages`, with `PAGE_SIZE`. -/
def numPages (size : Word) : Word :=
  size / 4096 + if 0 < size % 4096 then 1 else 0

/-- `vmmngr_identMap` maps every page of the range to itself, in the current directory. -/
def vmmngrIdentMap (s : Vmm) (virt size : Word) : Vmm :=
  let dir := s.curDirectory
  mapPages dir (numPages size).toNat virt virt s

theorem toNat_numPages (size : Word) : (numPages size).toNat = (size.toNat + 4095) / 4096 := by
  have h4096 : (4096 : Word).toNat = 4096 := rfl
  have hsize := size.isLt
  have hpos : 0 < size % 4096 ↔ 0 < size.toNat % 4096 := by
    rw [BitVec.lt_def, BitVec.toNat_umod, h4096]
    rfl
  rw [numPages, BitVec.toNat_add, BitVec.toNat_udiv, h4096]
  split_ifs with h
  · have hmod := hpos.1 h
    have h1 : (1 : Word).toNat = 1 := rfl
    omega
  · have hmod := mt hpos.2 h
    have h0 : (0 : Word).toNat = 0 := rfl
    omega

/-- Bytes that end at `2^32` or before. -/
structure ByteRange where
  virt : Word
  size : Word
  fits : virt.toNat + size.toNat ≤ 2 ^ 32

namespace ByteRange

variable (r : ByteRange)

/-- The page of the first byte. -/
def page : ℕ :=
  r.virt.toNat / 4096

/-- The place of the first byte in its page. -/
def offset : ℕ :=
  r.virt.toNat % 4096

/-- The number of pages that are mapped. -/
def pages : ℕ :=
  (numPages r.size).toNat

/-- A page with a byte of the range. -/
def Touches (p : ℕ) : Prop :=
  0 < r.size.toNat ∧ r.page ≤ p ∧ p * 4096 < r.virt.toNat + r.size.toNat

/-- The last page of the bytes is not counted. -/
def Missed : Prop :=
  0 < r.size.toNat ∧ r.pages * 4096 < r.offset + r.size.toNat

/-- The number of pages, from the size alone. -/
theorem pages_eq : r.pages = (r.size.toNat + 4095) / 4096 :=
  toNat_numPages r.size

/-- The pages that the loop goes over are in the address space. -/
theorem page_add_pages_le : r.page + r.pages ≤ 2 ^ 20 := by
  have hfits := r.fits
  rw [page, pages_eq]
  omega

/-- The loop goes over pages that the bytes touch. -/
theorem touches_of_lt {j : ℕ} (hj : j < r.pages) : r.Touches (r.page + j) := by
  rw [pages_eq] at hj
  unfold Touches page
  omega

/-- A page of the bytes is counted, or the one that is missed. -/
theorem touches_iff {p : ℕ} :
    r.Touches p ↔ (∃ j < r.pages, p = r.page + j) ∨ r.Missed ∧ p = r.page + r.pages := by
  constructor
  · rintro ⟨hpos, hlo, hhi⟩
    obtain ⟨j, rfl⟩ := Nat.exists_eq_add_of_le hlo
    rcases Nat.lt_or_ge j r.pages with hj | hj
    · exact Or.inl ⟨j, hj, rfl⟩
    · refine Or.inr ?_
      rw [Missed, pages_eq] at *
      unfold page offset at *
      omega
  · rintro (⟨j, hj, rfl⟩ | ⟨⟨hpos, hlt⟩, rfl⟩)
    · exact r.touches_of_lt hj
    · unfold Touches page offset at *
      omega

/-- A page with a byte of the range is in the address space. -/
theorem Touches.lt {r : ByteRange} {p : ℕ} (h : r.Touches p) : p < 2 ^ 20 := by
  have hfits := r.fits
  have hlast := h.2.2
  omega

end ByteRange

/-! ## The effects of a range -/

namespace Stock

/-- The frames last for the tables that mapping `n` pages from `q` on to themselves takes. -/
def Supplies (st : Stock) (q n : ℕ) : Prop :=
  ∀ i < n, Meets after Served (st.afterPages q q i) (st.pageEffects q q i)

/-- What mapping the pages does. -/
def rangeEffects (st : Stock) (q n : ℕ) : List Effect :=
  (List.range n).flatMap (st.pageEffects q q)

theorem rangeEffects_succ (st : Stock) (q n : ℕ) :
    st.rangeEffects q (n + 1) = st.rangeEffects q n ++ st.pageEffects q q n := by
  rw [rangeEffects, List.range_succ, List.flatMap_append, List.flatMap_singleton, rangeEffects]

/-- The stock after the effects of a range is that after the loop. -/
theorem run_rangeEffects (st : Stock) (q n : ℕ) :
    run after st (st.rangeEffects q n) = st.afterPages q q n := by
  induction n with
  | zero => rfl
  | succ n ih =>
    rw [rangeEffects_succ, run_append, ih]
    rfl

/-- What the effects of every page meet, those of the range meet. -/
theorem meets_rangeEffects {P : Stock → Effect → Prop} {st : Stock} {q n : ℕ}
    (h : ∀ i < n, Meets after P (st.afterPages q q i) (st.pageEffects q q i)) :
    Meets after P st (st.rangeEffects q n) := by
  induction n with
  | zero => trivial
  | succ n ih =>
    rw [rangeEffects_succ, meets_append, run_rangeEffects]
    exact ⟨ih fun i hi => h i (by omega), h n (Nat.lt_succ_self n)⟩

/-- Each effect of a range can happen when its turn comes. -/
theorem meets_ready_rangeEffects {st : Stock} (hframes : ∀ f ∈ st.frames, f < 2 ^ 20) (q n : ℕ) :
    Meets after Ready st (st.rangeEffects q n) :=
  meets_rangeEffects fun i _ => meets_ready_effects _ _ _ (Nat.mod_lt _ (by norm_num))
    fun f hf => hframes f (frames_afterPages_subset st q q i hf)

/-- Every entry maps its page to itself. -/
theorem entry_mem_rangeEffects {st : Stock} {q n p : ℕ} {value : Word} (hn : q + n ≤ 2 ^ 20)
    (h : Effect.entry p value ∈ st.rangeEffects q n) : value = frameEntry p := by
  obtain ⟨i, hi, hmem⟩ := List.mem_flatMap.1 h
  have hlt := List.mem_range.1 hi
  rcases entry_mem_effects _ _ hmem with ⟨rfl, rfl⟩ | ⟨-, hvalue⟩
  · rw [Nat.mod_eq_of_lt (by omega)]
  · exact hvalue

/-- The last effect of a page is its own entry. -/
theorem entry_mem_pageEffects (st : Stock) {q j : ℕ} (hj : q + j < 2 ^ 20) :
    Effect.entry (q + j) (frameEntry (q + j)) ∈ st.pageEffects q q j := by
  obtain ⟨es, hes⟩ := exists_effects_append (st.afterPages q q j).frames
    (st.afterPages q q j).table (q + j) (frameEntry (q + j))
  rw [pageEffects, mapping, Nat.mod_eq_of_lt hj, hes]
  exact List.mem_append_right _ (List.mem_singleton_self _)

/-- Every page of the range has an entry. -/
theorem stored_rangeEffects (st : Stock) {q n j : ℕ} (hn : q + n ≤ 2 ^ 20) (hj : j < n) :
    Stored (q + j) (st.rangeEffects q n) :=
  ⟨_, List.mem_flatMap.2 ⟨j, List.mem_range.2 hj, st.entry_mem_pageEffects (by omega)⟩⟩

end Stock

/-! ## Addresses as entries -/

/-- The flags take the place of the two low bits. -/
theorem or_three (n : ℕ) : n ||| 3 = n / 4 * 4 + 3 := by
  have hlow : ∀ m < 4, m ||| 3 = 3 := by decide
  have hsplit := Nat.two_pow_add_eq_or_of_lt (i := 2) (Nat.mod_lt n (by norm_num)) (n / 4)
  have hjoin := Nat.two_pow_add_eq_or_of_lt (i := 2) (b := 3) (by norm_num) (n / 4)
  have hn : 2 ^ 2 * (n / 4) + n % 4 = n := by omega
  rw [hn] at hsplit
  rw [hsplit, Nat.or_assoc, hlow _ (Nat.mod_lt n (by norm_num)), ← hjoin]
  omega

/-- An address makes the entry of its page when its low bits are flags of the entry. -/
theorem or_eq_frameEntry_iff (a : Word) :
    a ||| ptePresentWritable = frameEntry (a.toNat / 4096) ↔ a.toNat % 4096 < 4 := by
  have hflags : ptePresentWritable.toNat = 3 := rfl
  rw [frameEntry, ← pageOf_eq_frameAddr, ← BitVec.toNat_inj, BitVec.toNat_or, BitVec.toNat_or,
    hflags, or_three, or_three, toNat_pageOf]
  omega

theorem frameEntry_mod (f : ℕ) : frameEntry (f % 2 ^ 20) = frameEntry f := by
  have haddr : frameAddr (f % 2 ^ 20) = frameAddr f := by
    rw [← BitVec.toNat_inj, toNat_frameAddr, toNat_frameAddr, Nat.mod_mod]
  rw [frameEntry, haddr, frameEntry]

/-- Every page of the range is entered at the offset of the first byte. -/
theorem toNat_rangePage_mod (virt : Word) (i : ℕ) :
    (rangePage virt i).toNat % 4096 = virt.toNat % 4096 := by
  have h4096 : (4096 : Word).toNat = 4096 := rfl
  rw [rangePage, BitVec.toNat_add, BitVec.toNat_mul, BitVec.toNat_ofNat, h4096]
  omega

/-- The entry that a round stores is that of its page when the range starts as low in a page. -/
theorem rangePage_or_eq_iff (virt : Word) (i : ℕ) :
    rangePage virt i ||| ptePresentWritable = frameEntry (virt.toNat / 4096 + i) ↔
      virt.toNat % 4096 < 4 := by
  rw [← frameEntry_mod, ← toNat_rangePage_div, or_eq_frameEntry_iff, toNat_rangePage_mod]

/-- Only the address and the flags together count for a mapping. -/
theorem mapPhysicalAddress_congr {p p' flags : Word} (h : p ||| flags = p' ||| flags) (s : Vmm)
    (dir virt : Word) :
    vmmngrMapPhysicalAddress s dir virt p flags = vmmngrMapPhysicalAddress s dir virt p' flags := by
  rw [vmmngrMapPhysicalAddress, vmmngrMapPhysicalAddress, h]

/-- A range that starts low in a page is mapped as the range of its pages. -/
theorem mapPages_eq_of_low {virt : Word} {n : ℕ} (h : 0 < n → virt.toNat % 4096 < 4) (dir : Word)
    (s : Vmm) :
    mapPages dir n virt virt s = mapPages dir n virt (frameAddr (virt.toNat / 4096)) s := by
  induction n with
  | zero => rfl
  | succ n ih =>
    have hlow := h (Nat.zero_lt_succ n)
    rw [mapPages_succ, mapPages_succ, ih fun _ => hlow, frameAddr_add]
    exact mapPhysicalAddress_congr ((rangePage_or_eq_iff virt n).2 hlow) _ _ _

/-! ## The loop -/

namespace Vmm

section Loop

variable {s : Vmm} {dir : Word} (h : s.Sound dir)

include h

/-- The free frames are frames of the address space. -/
theorem Sound.frames_lt {f : ℕ} (hf : f ∈ (s.stock dir).frames) : f < 2 ^ 20 :=
  (h.unused f hf).lt

/-- The loop performs the effects of its range. -/
theorem Sound.mapPages_eq_run (virt : Word) (n : ℕ) :
    Scorch.mapPages dir n virt (frameAddr (virt.toNat / 4096)) s =
      GuardedRun.run (Vmm.perform dir) s ((s.stock dir).rangeEffects (virt.toNat / 4096) n) := by
  induction n with
  | zero => rfl
  | succ n ih =>
    rw [h.mapPages_succ, ih, Stock.rangeEffects_succ, run_append]

end Loop

/-! ## Ranges in a given address space -/

/-- Every byte of the range is in a page that is mapped to itself, present and writable. -/
def IdentMapped (s : Vmm) (r : ByteRange) : Prop :=
  ∀ a : Word, r.virt.toNat ≤ a.toNat → a.toNat < r.virt.toNat + r.size.toNat →
    vmmngrGetPhysicalAddress (vmmngrIdentMap s r.virt r.size) s.curDirectory a =
      pageOf a ||| ptePresentWritable

/-- A range is mapped to itself when each page that it touches is. -/
theorem identMapped_iff_pages (s : Vmm) (r : ByteRange) :
    s.IdentMapped r ↔ ∀ p, r.Touches p →
      vmmngrGetPhysicalAddress (vmmngrIdentMap s r.virt r.size) s.curDirectory (frameAddr p) =
        frameEntry p := by
  have hsame : ∀ a : Word, vmmngrGetPhysicalAddress (vmmngrIdentMap s r.virt r.size)
      s.curDirectory a = vmmngrGetPhysicalAddress (vmmngrIdentMap s r.virt r.size)
      s.curDirectory (frameAddr (a.toNat / 4096)) := fun a =>
    getPhysicalAddress_of_pageOf_eq _ _ (by rw [pageOf_eq_frameAddr, pageOf_frameAddr])
  constructor
  · rintro h p hp
    obtain ⟨a, hlo, hhi, hdiv⟩ : ∃ a : Word, r.virt.toNat ≤ a.toNat ∧
        a.toNat < r.virt.toNat + r.size.toNat ∧ a.toNat / 4096 = p := by
      obtain ⟨hpos, hpage, hlt⟩ := hp
      have hfits := r.fits
      rw [ByteRange.page] at hpage
      rcases Nat.eq_or_lt_of_le hpage with heq | hgt
      · exact ⟨r.virt, le_rfl, by omega, heq⟩
      · have haddr := toNat_frameAddr p
        exact ⟨frameAddr p, by omega, by omega, by omega⟩
    have hget := h a hlo hhi
    rw [hsame, hdiv, pageOf_eq_frameAddr, hdiv] at hget
    exact hget
  · intro h a hlo hhi
    rw [hsame, pageOf_eq_frameAddr]
    exact h _ ⟨by omega, Nat.div_le_div_right hlo, by omega⟩

section Range

variable {s : Vmm} (h : s.Sound s.curDirectory) (r : ByteRange)
  (hsup : (s.stock s.curDirectory).Supplies r.page r.pages)

include h hsup

/-- A range that starts too high in a page has the wrong entry at its last page. -/
theorem Sound.not_identMapped (hpos : 0 < r.size.toNat) (hoff : ¬r.offset < 4) :
    ¬s.IdentMapped r := by
  rw [identMapped_iff_pages]
  intro hall
  obtain ⟨n, hn⟩ : ∃ n, r.pages = n + 1 := ⟨r.pages - 1, by rw [r.pages_eq]; omega⟩
  rw [hn] at hsup
  have hget := hall _ (r.touches_of_lt (j := n) (by omega))
  have hlast := h.getPhysicalAddress_mapPages_blocks r.virt r.page r.virt
    (Stock.isSome_of_meets_served (hsup n (Nat.lt_succ_self n)))
  have hle := r.page_add_pages_le
  rw [← ByteRange.page, Nat.mod_eq_of_lt (by omega)] at hlast
  rw [vmmngrIdentMap, ← ByteRange.pages, hn] at hget
  exact hoff ((rangePage_or_eq_iff r.virt n).1 (hlast.symm.trans hget))

/-- The range is mapped when it starts low in a page, and every page of it has a right entry
that lasts. A page that is missed has it from before, or from a new table in its frame, or from
what its own table finds in a frame. -/
theorem Sound.identMapped_iff_lasts :
    s.IdentMapped r ↔ (0 < r.size.toNat → r.offset < 4) ∧ ∀ p, r.Touches p →
      (vmmngrGetPhysicalAddress s s.curDirectory (frameAddr p) = frameEntry p ∨
          Stock.Stored p ((s.stock s.curDirectory).rangeEffects r.page r.pages) ∨
          s.Stale p (frameEntry p) ((s.stock s.curDirectory).rangeEffects r.page r.pages)) ∧
        (s.stock s.curDirectory).Lasts p
          ((s.stock s.curDirectory).rangeEffects r.page r.pages) := by
  by_cases hoff : 0 < r.size.toNat → r.offset < 4
  · have hlow : 0 < r.pages → r.virt.toNat % 4096 < 4 := fun hpages =>
      hoff (by rw [r.pages_eq] at hpages; omega)
    have hrun : vmmngrIdentMap s r.virt r.size = GuardedRun.run (Vmm.perform s.curDirectory) s
        ((s.stock s.curDirectory).rangeEffects r.page r.pages) := by
      rw [vmmngrIdentMap, ← ByteRange.pages]
      exact (mapPages_eq_of_low hlow _ s).trans (h.mapPages_eq_run r.virt r.pages)
    rw [identMapped_iff_pages, and_iff_right hoff, hrun]
    refine forall_congr' fun p => imp_congr_right fun hp => ?_
    exact h.getPhysicalAddress_run_iff_lasts
      (Stock.meets_ready_rangeEffects (fun f hf => h.frames_lt hf) r.page r.pages)
      (Stock.meets_rangeEffects hsup) hp.lt (frameEntry_present p)
      fun w hw => Stock.entry_mem_rangeEffects r.page_add_pages_le hw
  · obtain ⟨hpos, hhigh⟩ := Classical.not_imp.1 hoff
    exact iff_of_false (h.not_identMapped r hsup hpos hhigh) fun hand => hoff hand.1

end Range

end Vmm

end Scorch
