import Scorch.Lib.Ia32
import Mathlib.Data.Fin.VecNotation
import Mathlib.Data.List.FinRange
import Mathlib.Tactic.FinCases

/-!
# The descriptor tables

`gdt.c` fills the five entries of the global descriptor table and hands the processor a limit
that covers the first three. `idt.c` clears the interrupt descriptor table, and `isrs_install`
and `irq_install` put a gate for each routine of `start.s` into it.

An entry has its base and its limit in pieces. What `gdt_set_gate` and `idt_set_gate` write, the
processor puts together again (`base_descriptor`, `gate_interruptGate`). With the tables of the
kernel it loads the selectors of the kernel and the null selector (`loadsData_gdtInstall`,
`loadsCode_gdtInstall`), and every vector below 48 leads to its own routine and every other one
nowhere (`gate_bootIdt`).
-/

open ByteMemory Ia32

namespace Scorch

/-! ## The global descriptor table -/

/-- `struct gdt_entry` -/
structure GdtEntry where
  limitLow : BitVec 16
  baseLow : BitVec 16
  baseMiddle : Byte
  access : Byte
  granularity : Byte
  baseHigh : Byte

/-- `gdt` and `gp.limit`. -/
structure Gdt where
  gdt : Fin 5 → GdtEntry
  limit : BitVec 16

/-- The entry that `gdt_set_gate` writes. -/
def descriptor (base limit : Word) (access gran : Byte) : GdtEntry :=
  let granularity : Byte := ((limit >>> 16) &&& 0x0F).setWidth 8
  { baseLow := (base &&& 0xFFFF).setWidth 16
    baseMiddle := ((base >>> 16) &&& 0xFF).setWidth 8
    baseHigh := ((base >>> 24) &&& 0xFF).setWidth 8
    limitLow := (limit &&& 0xFFFF).setWidth 16
    granularity := granularity ||| (gran &&& 0xF0)
    access := access }

/-- `gdt_set_gate` -/
def gdtSetGate (g : Gdt) (num : Fin 5) (base limit : Word) (access gran : Byte) : Gdt :=
  { g with gdt := Function.update g.gdt num (descriptor base limit access gran) }

/-- `gdt_install`, up to the call of `gdt_flush`. -/
def gdtInstall (g : Gdt) : Gdt :=
  let g := { g with limit := 8 * 3 - 1 }
  let g := gdtSetGate g 0 0 0 0 0
  let g := gdtSetGate g 1 0 0xFFFFFFFF 0x9A 0xCF
  let g := gdtSetGate g 2 0 0xFFFFFFFF 0x92 0xCF
  let g := gdtSetGate g 3 0 0xFFFFFFFF 0xFA 0xCF
  gdtSetGate g 4 0 0xFFFFFFFF 0xF2 0xCF

/-! ## How the processor reads it -/

namespace GdtEntry

variable (d : GdtEntry)

/-- The base that the three fields make. -/
def base : Word :=
  d.baseHigh ++ d.baseMiddle ++ d.baseLow

/-- The limit in units of the granularity bit. -/
def units : BitVec 20 :=
  d.granularity.extractLsb' 0 4 ++ d.limitLow

/-- The last offset in the segment. -/
def limit : Word :=
  if d.granularity.getLsbD 7 then d.units ++ (0xFFF : BitVec 12) else d.units.setWidth 32

/-- The privilege that it asks for. -/
def dpl : ℕ :=
  (d.access.extractLsb' 5 2).toNat

/-- Present, and a code or data segment. -/
def isSegment : Bool :=
  d.access.getLsbD 7 && d.access.getLsbD 4

/-- Whether it is for code. -/
def isCode : Bool :=
  d.access.getLsbD 3

/-- Readable, if it is code. -/
def isReadable : Bool :=
  d.access.getLsbD 1

end GdtEntry

/-- The requested privilege of a selector. -/
def requested (s : Selector) : ℕ :=
  s.toNat % 4

/-- The entry of a selector, unless it lies behind the limit. There is no local table. -/
def Gdt.lookup (g : Gdt) (s : Selector) : Option GdtEntry :=
  if h : s.toNat / 8 < 5 then
    if s.getLsbD 2 = false ∧ s.toNat / 8 * 8 + 7 ≤ g.limit.toNat then
      some (g.gdt ⟨s.toNat / 8, h⟩)
    else none
  else none

/-- A data segment register takes the selector in kernel mode. -/
def Gdt.loadsData (g : Gdt) (s : Selector) : Bool :=
  decide (s.toNat < 4) ||
    match g.lookup s with
    | none => false
    | some d => d.isSegment && (!d.isCode || d.isReadable) && decide (requested s ≤ d.dpl)

/-- The code segment register takes the selector in kernel mode, without a change of
privilege. -/
def Gdt.loadsCode (g : Gdt) (s : Selector) : Bool :=
  match g.lookup s with
  | none => false
  | some d => d.isSegment && d.isCode && decide (requested s = 0 ∧ d.dpl = 0)

section GlobalTable

variable (base limit : Word) (access gran : Byte)

theorem toNat_append_low {k l : ℕ} (x : BitVec k) (y : BitVec l) :
    (x ++ y).toNat = x.toNat * 2 ^ l + y.toNat := by
  rw [BitVec.toNat_append, ← Nat.shiftLeft_add_eq_or_of_lt y.isLt, Nat.shiftLeft_eq]

/-- The base comes back from its three pieces. -/
theorem base_descriptor : (descriptor base limit access gran).base = base := by
  have hhigh : ((base >>> 24) &&& 0xFF).toNat = (base >>> 24).toNat % 2 ^ 8 :=
    toNat_and_low _ rfl
  have hmiddle : ((base >>> 16) &&& 0xFF).toNat = (base >>> 16).toNat % 2 ^ 8 :=
    toNat_and_low _ rfl
  have hlow : (base &&& 0xFFFF).toNat = base.toNat % 2 ^ 16 := toNat_and_low _ rfl
  have hlt := base.isLt
  apply BitVec.eq_of_toNat_eq
  simp only [GdtEntry.base, descriptor, toNat_append_low, BitVec.toNat_setWidth, hhigh, hmiddle,
    hlow, BitVec.toNat_ushiftRight, Nat.shiftRight_eq_div_pow]
  omega

/-- The low twenty bits of the limit come back from its two pieces, whatever the flags. -/
theorem units_descriptor :
    (descriptor base limit access gran).units = limit.setWidth 20 := by
  have hlow : (limit &&& 0xFFFF).setWidth 16 = limit.setWidth 16 := by
    have hmask : (limit &&& 0xFFFF).toNat = limit.toNat % 2 ^ 16 := toNat_and_low _ rfl
    apply BitVec.eq_of_toNat_eq
    rw [BitVec.toNat_setWidth, BitVec.toNat_setWidth, hmask, Nat.mod_mod]
  refine BitVec.eq_of_getLsbD_eq fun i hi => ?_
  rw [GdtEntry.units, descriptor, hlow, BitVec.getLsbD_append]
  by_cases h : i < 16
  · simp [h, hi]
  · have hcases : i = 16 ∨ i = 17 ∨ i = 18 ∨ i = 19 := by omega
    rcases hcases with rfl | rfl | rfl | rfl <;> simp

/-- The flags are the high half of the last argument, whatever the limit. -/
theorem flags_descriptor :
    (descriptor base limit access gran).granularity.extractLsb' 4 4 = gran.extractLsb' 4 4 := by
  refine BitVec.eq_of_getLsbD_eq fun i hi => ?_
  have hcases : i = 0 ∨ i = 1 ∨ i = 2 ∨ i = 3 := by omega
  rcases hcases with rfl | rfl | rfl | rfl <;> simp [descriptor]

variable (g : Gdt) (s : Selector)

/-- The table does not depend on what was there before. -/
theorem gdt_gdtInstall : (gdtInstall g).gdt =
    ![descriptor 0 0 0 0, descriptor 0 0xFFFFFFFF 0x9A 0xCF, descriptor 0 0xFFFFFFFF 0x92 0xCF,
      descriptor 0 0xFFFFFFFF 0xFA 0xCF, descriptor 0 0xFFFFFFFF 0xF2 0xCF] := by
  funext i
  fin_cases i <;> rfl

/-- Every segment but the null segment is flat. -/
theorem flat_gdtInstall {i : Fin 5} (hi : i ≠ 0) :
    ((gdtInstall g).gdt i).base = 0 ∧ ((gdtInstall g).gdt i).limit = 0xFFFFFFFF := by
  rw [gdt_gdtInstall]
  revert hi
  fin_cases i <;> decide

/-- The limit covers the selectors below 24. -/
theorem lookup_gdtInstall (hs : 24 ≤ s.toNat) : (gdtInstall g).lookup s = none := by
  unfold Gdt.lookup
  split_ifs with h h'
  · have hlimit : (gdtInstall g).limit.toNat = 23 := rfl
    omega
  · rfl
  · rfl

/-- With the limit of the kernel, what a table says of a selector is decided below 24. -/
theorem gdtInstall_eq (g g' : Gdt) : gdtInstall g = gdtInstall g' := by
  have hgdt : (gdtInstall g).gdt = (gdtInstall g').gdt := by
    rw [gdt_gdtInstall, gdt_gdtInstall]
  calc gdtInstall g = ⟨(gdtInstall g).gdt, (gdtInstall g).limit⟩ := rfl
    _ = ⟨(gdtInstall g').gdt, (gdtInstall g').limit⟩ := by rw [hgdt]; rfl

/-- The table of nothing but zeros, as it is before `gdt_install`. -/
def Gdt.zero : Gdt where
  gdt _ := descriptor 0 0 0 0
  limit := 0

/-- In kernel mode a data segment register takes the null selectors and the two segments of the
kernel, and not those for user mode. -/
theorem loadsData_gdtInstall :
    (gdtInstall g).loadsData s = true ↔ s.toNat < 4 ∨ s = 0x08 ∨ s = 0x10 := by
  by_cases hs : s.toNat < 24
  · have hall : ∀ n < 24, (gdtInstall Gdt.zero).loadsData (BitVec.ofNat 16 n) = true ↔
        n < 4 ∨ BitVec.ofNat 16 n = 0x08 ∨ BitVec.ofNat 16 n = 0x10 := by
      decide +kernel
    have h := hall s.toNat hs
    rwa [BitVec.ofNat_toNat, BitVec.setWidth_eq, gdtInstall_eq Gdt.zero g] at h
  · rw [Gdt.loadsData, lookup_gdtInstall g s (by omega)]
    simp only [Bool.or_false, decide_eq_true_eq]
    bv_omega

/-- In kernel mode the code segment register takes the code segment of the kernel alone. -/
theorem loadsCode_gdtInstall : (gdtInstall g).loadsCode s = true ↔ s = 0x08 := by
  by_cases hs : s.toNat < 24
  · have hall : ∀ n < 24, (gdtInstall Gdt.zero).loadsCode (BitVec.ofNat 16 n) = true ↔
        BitVec.ofNat 16 n = 0x08 := by
      decide +kernel
    have h := hall s.toNat hs
    rwa [BitVec.ofNat_toNat, BitVec.setWidth_eq, gdtInstall_eq Gdt.zero g] at h
  · rw [Gdt.loadsCode, lookup_gdtInstall g s (by omega)]
    simp only [Bool.false_eq_true, false_iff]
    bv_omega

end GlobalTable

/-! ## The interrupt descriptor table -/

/-- `struct idt_entry` -/
structure IdtEntry where
  baseLo : BitVec 16
  sel : BitVec 16
  always0 : Byte
  flags : Byte
  baseHi : BitVec 16

/-- `idt` and `idtp.limit`. -/
structure Idt where
  idt : Byte → IdtEntry
  limit : BitVec 16

/-- The entry that `idt_set_gate` writes. -/
def interruptGate (base : Word) (sel : BitVec 16) (flags : Byte) : IdtEntry :=
  { baseLo := (base &&& 0xFFFF).setWidth 16
    baseHi := ((base >>> 16) &&& 0xFFFF).setWidth 16
    sel := sel
    always0 := 0
    flags := flags }

/-- `idt_set_gate` -/
def idtSetGate (t : Idt) (num : Byte) (base : Word) (sel : BitVec 16) (flags : Byte) : Idt :=
  { t with idt := Function.update t.idt num (interruptGate base sel flags) }

/-- `idt_install`, up to the call of `idt_load`. -/
def idtInstall : Idt where
  limit := 8 * 256 - 1
  idt _ := { baseLo := 0, sel := 0, always0 := 0, flags := 0, baseHi := 0 }

/-- One call of `idt_set_gate` in a row of them, the first for vector `first`. -/
def installGate {n : ℕ} (routine : Fin n → Word) (first : ℕ) (t : Idt) (i : Fin n) : Idt :=
  idtSetGate t (BitVec.ofNat 8 (first + i.val)) (routine i) 0x08 0x8E

/-- `isrs_install` -/
def isrsInstall (t : Idt) (isr : Fin 32 → Word) : Idt :=
  (List.finRange 32).foldl (installGate isr 0) t

/-- `irq_install`, behind the call of `irq_remap`. -/
def irqInstall (t : Idt) (irq : Fin 16 → Word) : Idt :=
  (List.finRange 16).foldl (installGate irq 32) t

/-- The two tables of routines, into a table that is clear. -/
def bootIdt (isr : Fin 32 → Word) (irq : Fin 16 → Word) : Idt :=
  irqInstall (isrsInstall idtInstall isr) irq

/-- An entry, as the processor reads it. -/
def IdtEntry.gate (d : IdtEntry) : Gate :=
  ⟨d.baseHi ++ d.baseLo, d.sel, d.flags⟩

/-- The gate of a vector, unless it lies behind the limit. -/
def Idt.gate (t : Idt) (v : Byte) : Option Gate :=
  if v.toNat * 8 + 7 ≤ t.limit.toNat then some (t.idt v).gate else none

section InterruptTable

/-- The address of a routine comes back from its two halves. -/
theorem gate_interruptGate (base : Word) (sel : BitVec 16) (flags : Byte) :
    (interruptGate base sel flags).gate = ⟨base, sel, flags⟩ := by
  have hlow : (base &&& 0xFFFF).toNat = base.toNat % 2 ^ 16 := toNat_and_low _ rfl
  have hhigh : ((base >>> 16) &&& 0xFFFF).toNat = (base >>> 16).toNat % 2 ^ 16 :=
    toNat_and_low _ rfl
  have hlt := base.isLt
  have hbase : ((base >>> 16) &&& 0xFFFF).setWidth 16 ++ (base &&& 0xFFFF).setWidth 16 =
      base := by
    apply BitVec.eq_of_toNat_eq
    simp only [toNat_append_low, BitVec.toNat_setWidth, hlow, hhigh, BitVec.toNat_ushiftRight,
      Nat.shiftRight_eq_div_pow]
    omega
  exact congrArg (fun b => Gate.mk b sel flags) hbase

variable {n first : ℕ} (t : Idt) (routine : Fin n → Word)

/-- A row of calls leaves the entries of other vectors alone. -/
theorem idt_foldl_of_ne {v : Byte} (l : List (Fin n))
    (hv : ∀ i ∈ l, BitVec.ofNat 8 (first + i.val) ≠ v) :
    (l.foldl (installGate routine first) t).idt v = t.idt v := by
  induction l generalizing t with
  | nil => rfl
  | cons a l ih =>
    rw [List.foldl_cons, ih _ fun i hi => hv i (List.mem_cons_of_mem _ hi)]
    exact Function.update_of_ne (hv a List.mem_cons_self).symm _ _

/-- A row of calls writes the entry of each of its vectors. -/
theorem idt_foldl_of_mem (hn : first + n ≤ 256) {i : Fin n} {l : List (Fin n)} (hi : i ∈ l) :
    (l.foldl (installGate routine first) t).idt (BitVec.ofNat 8 (first + i.val)) =
      interruptGate (routine i) 0x08 0x8E := by
  induction l generalizing t with
  | nil => simp at hi
  | cons a l ih =>
    rw [List.foldl_cons]
    by_cases hil : i ∈ l
    · exact ih _ hil
    · have hia : i = a := (List.mem_cons.1 hi).resolve_right hil
      have hl : ∀ j ∈ l, BitVec.ofNat 8 (first + j.val) ≠ BitVec.ofNat 8 (first + i.val) := by
        intro j hj hij
        have hval : j.val = i.val := by
          have := i.isLt
          have := j.isLt
          bv_omega
        exact hil (Fin.ext hval ▸ hj)
      rw [idt_foldl_of_ne _ _ _ hl, hia]
      exact Function.update_self _ _ _

/-- Installing gates does not move the end of the table. -/
theorem limit_foldl (l : List (Fin n)) :
    (l.foldl (installGate routine first) t).limit = t.limit := by
  induction l generalizing t with
  | nil => rfl
  | cons a l ih => exact ih _

variable (isr : Fin 32 → Word) (irq : Fin 16 → Word)

theorem limit_bootIdt : (bootIdt isr irq).limit = 8 * 256 - 1 :=
  (limit_foldl _ _ _).trans (limit_foldl _ _ _)

/-- Every vector lies within the limit. -/
theorem gate_bootIdt (v : Byte) :
    (bootIdt isr irq).gate v = some ((bootIdt isr irq).idt v).gate := by
  have hlt := v.isLt
  have hlimit : (bootIdt isr irq).limit.toNat = 2047 := by
    rw [limit_bootIdt]
    rfl
  exact if_pos (by omega)

/-- The first 32 vectors lead to the routines of the exceptions. -/
theorem gate_bootIdt_isr (n : Fin 32) :
    (bootIdt isr irq).gate (BitVec.ofNat 8 n) = some ⟨isr n, 0x08, 0x8E⟩ := by
  have hne : ∀ i ∈ List.finRange 16, BitVec.ofNat 8 (32 + i.val) ≠ BitVec.ofNat 8 n.val := by
    intro i _
    have := i.isLt
    have := n.isLt
    bv_omega
  have hentry : (bootIdt isr irq).idt (BitVec.ofNat 8 n) = interruptGate (isr n) 0x08 0x8E := by
    have hn : 0 + 32 ≤ 256 := by omega
    have hmem := idt_foldl_of_mem idtInstall isr hn (List.mem_finRange n)
    rw [bootIdt, irqInstall, isrsInstall, idt_foldl_of_ne _ irq _ hne, ← hmem, Nat.zero_add]
  rw [gate_bootIdt, hentry, gate_interruptGate]

/-- The next 16 lead to the routines of the interrupt controllers. -/
theorem gate_bootIdt_irq (n : Fin 16) :
    (bootIdt isr irq).gate (BitVec.ofNat 8 (32 + n)) = some ⟨irq n, 0x08, 0x8E⟩ := by
  have hentry : (bootIdt isr irq).idt (BitVec.ofNat 8 (32 + n)) =
      interruptGate (irq n) 0x08 0x8E := by
    rw [bootIdt, irqInstall, idt_foldl_of_mem _ irq (by omega) (List.mem_finRange n)]
  rw [gate_bootIdt, hentry, gate_interruptGate]

/-- The gates of the other vectors are not present. -/
theorem not_isInterrupt_bootIdt {v : Byte} (hv : 48 ≤ v.toNat) {g : Gate}
    (hg : (bootIdt isr irq).gate v = some g) : ¬g.IsInterrupt := by
  have hirq : ∀ i ∈ List.finRange 16, BitVec.ofNat 8 (32 + i.val) ≠ v := by
    intro i _
    have := i.isLt
    bv_omega
  have hisr : ∀ i ∈ List.finRange 32, BitVec.ofNat 8 (0 + i.val) ≠ v := by
    intro i _
    have := i.isLt
    bv_omega
  have hentry : (bootIdt isr irq).idt v = idtInstall.idt v := by
    rw [bootIdt, irqInstall, isrsInstall, idt_foldl_of_ne _ irq _ hirq,
      idt_foldl_of_ne _ isr _ hisr]
  rw [gate_bootIdt, hentry] at hg
  cases hg
  show ¬(0 : Byte) &&& 0x9F = 0x8E
  decide

end InterruptTable

end Scorch
