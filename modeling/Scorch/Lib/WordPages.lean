import Scorch.Lib.ByteMemory

/-!
# Pages of words

A 4 KiB page as an array of 1024 words. Two words of pages are apart when the pages or
the indices differ (`apart_of_ne`), so a store to one word of a page is seen there and
nowhere else in any page. The low twelve bits of a word that points to a page may carry
flags : `pageOf` drops them, and `pageOf_or` reads the page back.
-/

namespace ByteMemory

/-- The first address of a page. -/
def IsPage (a : Word) : Prop :=
  a.toNat % 4096 = 0

/-- The page of an address. -/
def pageOf (a : Word) : Word :=
  a &&& ~~~0xfff

instance (a : Word) : Decidable (IsPage a) :=
  inferInstanceAs (Decidable (a.toNat % 4096 = 0))

/-- The start of the page of an address. -/
theorem toNat_pageOf (a : Word) : (pageOf a).toNat = a.toNat / 4096 * 4096 :=
  toNat_and_not_low (k := 12) a 0xfff fun t ht => by interval_cases t <;> rfl

theorem isPage_pageOf (a : Word) : IsPage (pageOf a) := by
  rw [IsPage, toNat_pageOf]
  omega

theorem IsPage.pageOf_eq {p : Word} (hp : IsPage p) : pageOf p = p := by
  rw [IsPage] at hp
  rw [← BitVec.toNat_inj, toNat_pageOf]
  omega

/-- Flags of twelve bits are added to the address of a page. -/
theorem IsPage.or_eq_add {p flags : Word} (hp : IsPage p) (hflags : flags.toNat < 4096) :
    p ||| flags = p + flags := by
  rw [IsPage] at hp
  have hor := Nat.two_pow_add_eq_or_of_lt (i := 12) hflags (p.toNat / 4096)
  have hdiv : 2 ^ 12 * (p.toNat / 4096) = p.toNat := by omega
  apply BitVec.eq_of_toNat_eq
  rw [BitVec.toNat_or, ← hdiv, ← hor, hdiv]
  bv_omega

/-- The page of an address that carries flags. -/
theorem IsPage.pageOf_or {p flags : Word} (hp : IsPage p) (hflags : flags.toNat < 4096) :
    pageOf (p ||| flags) = p := by
  apply BitVec.eq_of_toNat_eq
  have hadd : (p + flags).toNat = p.toNat + flags.toNat := by
    rw [IsPage] at hp
    bv_omega
  rw [hp.or_eq_add hflags, toNat_pageOf, hadd]
  rw [IsPage] at hp
  omega

/-! ## Words of pages -/

/-- Words of two pages are apart when the pages or the indices differ. -/
theorem apart_of_ne {p q i j : Word} (hp : IsPage p) (hq : IsPage q) (hi : i.toNat < 1024)
    (hj : j.toNat < 1024) (h : p ≠ q ∨ i ≠ j) : Mem.Apart (p + 4 * i) (q + 4 * j) := by
  rw [IsPage] at hp hq
  have h' : p.toNat ≠ q.toNat ∨ i.toNat ≠ j.toNat :=
    h.imp BitVec.toNat_ne_iff_ne.2 BitVec.toNat_ne_iff_ne.2
  constructor <;> bv_omega

/-- Two words of one block are apart, wherever the block begins. -/
theorem apart_of_index_ne (p : Word) {i j : Word} (hi : i.toNat < 1024) (hj : j.toNat < 1024)
    (h : i ≠ j) : Mem.Apart (p + 4 * i) (p + 4 * j) := by
  have h' := BitVec.toNat_ne_iff_ne.2 h
  constructor <;> bv_omega

/-- The bytes of a word of a page lie in the page. -/
theorem mem_block_page {p i x : Word} (hi : i.toNat < 1024) (hx : x ∈ Mem.block (p + 4 * i) 4) :
    x ∈ Mem.block p 4096 := by
  rw [Mem.mem_block] at hx ⊢
  bv_omega

/-- Pages have no byte in common. -/
theorem notMem_block_page {p q x : Word} (hp : IsPage p) (hq : IsPage q) (hne : p ≠ q)
    (hx : x ∈ Mem.block p 4096) : x ∉ Mem.block q 4096 := by
  rw [IsPage] at hp hq
  have hne' := BitVec.toNat_ne_iff_ne.2 hne
  rw [Mem.mem_block] at hx ⊢
  bv_omega

theorem isPage_add {p : Word} (hp : IsPage p) : IsPage (p + 4096) := by
  rw [IsPage] at hp ⊢
  bv_omega

/-- Every byte of a page is a byte of one of its words. -/
theorem exists_word_of_mem_page {p x : Word} (hx : x ∈ Mem.block p 4096) :
    ∃ i : Word, i.toNat < 1024 ∧ x ∈ Mem.block (p + 4 * i) 4 := by
  rw [Mem.mem_block] at hx
  set d := x - p with hd
  have hi : (BitVec.ofNat 32 (d.toNat / 4)).toNat = d.toNat / 4 := by
    rw [BitVec.toNat_ofNat]
    omega
  refine ⟨BitVec.ofNat 32 (d.toNat / 4), by omega, ?_⟩
  have hoff : x - (p + 4 * BitVec.ofNat 32 (d.toNat / 4)) =
      d - 4 * BitVec.ofNat 32 (d.toNat / 4) := by bv_omega
  rw [Mem.mem_block, hoff]
  bv_omega

/-- The words of a page other than word `j` are zero exactly when its bytes outside word `j`
are. -/
theorem words_eq_zero_iff (m : Mem) {p j : Word} (hp : IsPage p) (hj : j.toNat < 1024) :
    (∀ i : Word, i.toNat < 1024 → i ≠ j → m.load32 (p + 4 * i) = 0) ↔
      ∀ x ∈ Mem.block p 4096, x ∉ Mem.block (p + 4 * j) 4 → m x = 0 := by
  refine ⟨fun h x hx hxj => ?_, fun h i hi hne => ?_⟩
  · obtain ⟨i, hi, hxi⟩ := exists_word_of_mem_page hx
    have hne : i ≠ j := fun hij => hxj (hij ▸ hxi)
    exact (Mem.load32_eq_zero_iff _ _).1 (h i hi hne) x hxi
  · refine (Mem.load32_eq_zero_iff _ _).2 fun x hx => h x (mem_block_page hi hx) fun hxj => ?_
    obtain ⟨h1, h2⟩ := apart_of_ne hp hp hi hj (Or.inr hne)
    rw [Mem.mem_block] at hx hxj
    bv_omega

end ByteMemory
