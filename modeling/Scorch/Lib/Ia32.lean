import Scorch.Lib.WordStack
import Mathlib.Logic.Function.Basic

/-!
# Interrupts of an IA-32 processor

The part of the processor that an interrupt without a change of privilege goes through : the
general registers, the segment registers, the flags and the stack. `Cpu.deliver` is what the
processor does when an interrupt arrives, down to the first instruction of the gate, and `run`
runs straight-line code. `mem` is the memory of the stack. Everything else that code can change
is `world`, and only the functions that the code calls change it.

`pushAll` puts a list of words on the stack, where they stand until they are popped
(`holds_pushAll`), and writes nothing but the bytes below the old top (`frame_pushAll`). Of a
function that is called the rules need that it leaves the stack of its caller alone
(`ReturnsWithin`).

An interrupt leaves its bytes below the stack. Code that does not depend on them is `Blind` to
them, and `spoiled` are the bytes that still depend on them when it has run.
-/

open ByteMemory Mem

namespace Ia32

/-! ## The processor -/

/-- What a segment register holds. -/
abbrev Selector := BitVec 16

/-- The general registers, without the stack pointer. -/
inductive Reg where
  | eax
  | ecx
  | edx
  | ebx
  | ebp
  | esi
  | edi
deriving DecidableEq

/-- The segment registers for data. -/
inductive SegReg where
  | ds
  | es
  | fs
  | gs
deriving DecidableEq

/-- The registers, the memory, and the world outside. -/
structure Cpu (σ : Type*) where
  gpr : Reg → Word
  esp : Word
  seg : SegReg → Selector
  cs : Selector
  eip : Word
  eflags : Word
  mem : Mem
  world : σ

/-- Why code does not go on : the processor refuses an instruction, or a function never returns
and leaves the world as it is. -/
inductive Stop (σ : Type*) where
  | fault
  | halted (world : σ)

/-- What the code finds around it : the selectors that the descriptor table lets the processor
load, and the functions in memory, by address. A function is entered with the return address on
top of the stack. -/
structure Env (σ : Type*) where
  data : Selector → Bool
  code : Selector → Bool
  fn : Word → Cpu σ → Except (Stop σ) (Cpu σ)

namespace Cpu

variable {σ : Type*}

/-- The same processor in another world. -/
def withWorld {τ : Type*} (c : Cpu σ) (w : τ) : Cpu τ :=
  { gpr := c.gpr, esp := c.esp, seg := c.seg, cs := c.cs, eip := c.eip, eflags := c.eflags
    mem := c.mem, world := w }

/-- A register with a new value. -/
def setReg (c : Cpu σ) (r : Reg) (v : Word) : Cpu σ :=
  { c with gpr := Function.update c.gpr r v }

/-- A segment register with a new value. -/
def setSeg (c : Cpu σ) (s : SegReg) (v : Selector) : Cpu σ :=
  { c with seg := Function.update c.seg s v }

/-- A word on the stack. -/
def push (c : Cpu σ) (w : Word) : Cpu σ :=
  { c with esp := c.esp - 4, mem := c.mem.store32 (c.esp - 4) w }

/-- The word on top of the stack. -/
def top (c : Cpu σ) : Word :=
  c.mem.load32 c.esp

/-- `n` bytes off the stack. -/
def drop (c : Cpu σ) (n : Word) : Cpu σ :=
  { c with esp := c.esp + n }

end Cpu

/-! ## Instructions -/

/-- The instructions that the stubs use. -/
inductive Instr where
  | cli
  | pushByte (b : Byte)
  | push (r : Reg)
  | pop (r : Reg)
  | pushSeg (s : SegReg)
  | popSeg (s : SegReg)
  | pusha
  | popa
  | movAx (v : BitVec 16)
  | movSegAx (s : SegReg)
  | movEsp (r : Reg)
  | mov (r : Reg) (v : Word)
  | call (r : Reg) (ret : Word)
  | addEsp (n : Word)
  | iret

/-- The interrupt flag. -/
def flagIF : Word := 0x200

section Exec

variable {σ : Type*}

/-- Take the word on top of the stack into a register. -/
def Cpu.popReg (c : Cpu σ) (r : Reg) : Cpu σ :=
  (c.setReg r c.top).drop 4

/-- `pusha` -/
def Cpu.pusha (c : Cpu σ) : Cpu σ :=
  let esp := c.esp
  let c := c.push (c.gpr .eax)
  let c := c.push (c.gpr .ecx)
  let c := c.push (c.gpr .edx)
  let c := c.push (c.gpr .ebx)
  let c := c.push esp
  let c := c.push (c.gpr .ebp)
  let c := c.push (c.gpr .esi)
  c.push (c.gpr .edi)

/-- `popa`, which skips the word of `esp`. -/
def Cpu.popa (c : Cpu σ) : Cpu σ :=
  let c := c.popReg .edi
  let c := c.popReg .esi
  let c := c.popReg .ebp
  let c := c.drop 4
  let c := c.popReg .ebx
  let c := c.popReg .edx
  let c := c.popReg .ecx
  c.popReg .eax

/-- Load a segment register, if the selector can be loaded. -/
def Cpu.loadSeg (e : Env σ) (c : Cpu σ) (s : SegReg) (v : Selector) :
    Except (Stop σ) (Cpu σ) :=
  if e.data v then .ok (c.setSeg s v) else .error .fault

/-- `iret` to the same privilege. -/
def Cpu.iret (e : Env σ) (c : Cpu σ) : Except (Stop σ) (Cpu σ) :=
  let eip := c.top
  let c := c.drop 4
  let cs := c.top.setWidth 16
  let c := c.drop 4
  let eflags := c.top
  let c := c.drop 4
  if e.code cs then .ok { c with eip := eip, cs := cs, eflags := eflags } else .error .fault

/-- One instruction. A byte that is pushed is extended by its sign, a selector by zeros. -/
def exec (e : Env σ) (c : Cpu σ) : Instr → Except (Stop σ) (Cpu σ)
  | .cli => .ok { c with eflags := c.eflags &&& ~~~flagIF }
  | .pushByte b => .ok (c.push (b.signExtend 32))
  | .push r => .ok (c.push (c.gpr r))
  | .pop r => .ok (c.popReg r)
  | .pushSeg s => .ok (c.push ((c.seg s).setWidth 32))
  | .popSeg s => (c.loadSeg e s (c.top.setWidth 16)).map fun c => c.drop 4
  | .pusha => .ok c.pusha
  | .popa => .ok c.popa
  | .movAx v => .ok (c.setReg .eax (((c.gpr .eax).extractLsb' 16 16) ++ v))
  | .movSegAx s => c.loadSeg e s ((c.gpr .eax).setWidth 16)
  | .movEsp r => .ok (c.setReg r c.esp)
  | .mov r v => .ok (c.setReg r v)
  | .call r ret => e.fn (c.gpr r) (c.push ret)
  | .addEsp n => .ok (c.drop n)
  | .iret => c.iret e

/-- Straight-line code. -/
def run (e : Env σ) : List Instr → Cpu σ → Except (Stop σ) (Cpu σ)
  | [], c => .ok c
  | i :: is, c => exec e c i >>= run e is

/-- An instruction that succeeds is followed by the next. -/
theorem ok_bind (c : Cpu σ) (f : Cpu σ → Except (Stop σ) (Cpu σ)) : (Except.ok c >>= f) = f c :=
  rfl

theorem error_bind (s : Stop σ) (f : Cpu σ → Except (Stop σ) (Cpu σ)) :
    (Except.error s >>= f) = .error s :=
  rfl

/-- An instruction that is not refused. -/
theorem run_cons {e : Env σ} {i : Instr} {c c' : Cpu σ} (h : exec e c i = .ok c')
    (is : List Instr) : run e (i :: is) c = run e is c' := by
  rw [run, h]
  rfl

theorem run_last (e : Env σ) (i : Instr) (c : Cpu σ) : run e [i] c = exec e c i := by
  rw [run]
  cases exec e c i <;> rfl

theorem run_cli (e : Env σ) (is : List Instr) (c : Cpu σ) :
    run e (.cli :: is) c = run e is { c with eflags := c.eflags &&& ~~~flagIF } :=
  rfl

theorem run_pushByte (e : Env σ) (b : Byte) (is : List Instr) (c : Cpu σ) :
    run e (.pushByte b :: is) c = run e is (c.push (b.signExtend 32)) :=
  rfl

/-- A register that was set is read back. -/
theorem gpr_setReg_self (c : Cpu σ) (r : Reg) (v : Word) : (c.setReg r v).gpr r = v :=
  Function.update_self _ _ _

/-- Segment registers are not general ones. -/
theorem gpr_setSeg (c : Cpu σ) (s : SegReg) (v : Selector) : (c.setSeg s v).gpr = c.gpr :=
  rfl

/-- A segment register takes a data selector. -/
theorem exec_movSegAx {e : Env σ} {c : Cpu σ} {v : Selector} (hv : e.data v = true)
    (hax : (c.gpr .eax).setWidth 16 = v) (s : SegReg) :
    exec e c (.movSegAx s) = .ok (c.setSeg s v) := by
  rw [exec, hax, Cpu.loadSeg, if_pos hv]

/-- The selector in `ax` goes to several segment registers. -/
theorem run_movSegAx {e : Env σ} {v : Selector} (hv : e.data v = true) (is : List Instr)
    (ss : List SegReg) {c : Cpu σ} (hax : (c.gpr .eax).setWidth 16 = v) :
    run e (ss.map .movSegAx ++ is) c = run e is (ss.foldl (fun c s => c.setSeg s v) c) := by
  induction ss generalizing c with
  | nil => rfl
  | cons s ss ih =>
    rw [List.map_cons, List.cons_append, run_cons (exec_movSegAx hv hax s), ih]
    · rfl
    · rw [gpr_setSeg, hax]

/-- The rest of the stack, once its top is in a segment register. -/
theorem holds_popSeg {c : Cpu σ} {w : Word} {ws : List Word} (hc : c.mem.Holds c.esp (w :: ws))
    (s : SegReg) (v : Selector) :
    ((c.setSeg s v).drop 4).mem.Holds ((c.setSeg s v).drop 4).esp ws :=
  hc.tail

/-- A selector on top of the stack goes to a segment register. -/
theorem run_popSeg {e : Env σ} {c : Cpu σ} {v : Selector} {ws : List Word}
    (hv : e.data v = true) (hc : c.mem.Holds c.esp (v.setWidth 32 :: ws)) (s : SegReg)
    (is : List Instr) : run e (.popSeg s :: is) c = run e is ((c.setSeg s v).drop 4) := by
  have htop : c.top.setWidth 16 = v := by
    rw [Cpu.top, hc.head]
    simp
  refine run_cons ?_ is
  rw [exec, htop, Cpu.loadSeg, if_pos hv]
  rfl

/-- Go on at a place, if the processor lets its code segment be loaded. -/
def Cpu.resume (e : Env σ) (c : Cpu σ) (eip : Word) (cs : Selector) (eflags : Word) :
    Except (Stop σ) (Cpu σ) :=
  if e.code cs then .ok { c with eip := eip, cs := cs, eflags := eflags } else .error .fault

/-- A return takes the place and the flags from the stack. -/
theorem exec_iret {e : Env σ} {c : Cpu σ} {eip cs eflags : Word}
    (hc : c.mem.Holds c.esp [eip, cs, eflags]) :
    exec e c .iret = (c.drop 12).resume e eip (cs.setWidth 16) eflags := by
  obtain ⟨rfl, rfl, rfl, -⟩ := hc
  have hdrop : ((c.drop 4).drop 4).drop 4 = c.drop 12 := by
    have hesp : c.esp + 4 + 4 + 4 = c.esp + 12 := by
      bv_omega
    simp only [Cpu.drop, hesp]
  rw [← hdrop]
  rfl

end Exec

/-! ## Interrupts -/

/-- A gate of the interrupt descriptor table, as the processor reads it. -/
structure Gate where
  offset : Word
  selector : Selector
  flags : Byte

/-- The gate is present, and a 32-bit interrupt gate. -/
def Gate.IsInterrupt (g : Gate) : Prop :=
  g.flags &&& 0x9F = 0x8E

instance (g : Gate) : Decidable g.IsInterrupt :=
  inferInstanceAs (Decidable (_ = _))

/-- The flags that an interrupt gate clears : `TF`, `IF`, `NT`, `RF` and `VM`. -/
def gateFlags : Word := 0x34300

section Deliver

variable {σ : Type*}

/-- Push words, the last of the list first. -/
def Cpu.pushAll (c : Cpu σ) : List Word → Cpu σ
  | [] => c
  | w :: ws => (c.pushAll ws).push w

/-- The place and the flags of the code that is interrupted, and the error code if the vector
has one, as they stand on the stack. -/
def Cpu.returnWords (c : Cpu σ) (err : Option Word) : List Word :=
  err.toList ++ [c.eip, c.cs.setWidth 32, c.eflags]

/-- The processor at the first instruction behind a gate. -/
def Cpu.enter (c : Cpu σ) (g : Gate) (err : Option Word) : Cpu σ :=
  { c.pushAll (c.returnWords err) with
    cs := g.selector
    eip := g.offset
    eflags := c.eflags &&& ~~~gateFlags }

/-- An interrupt, through the gate of its vector. -/
def Cpu.deliver (e : Env σ) (c : Cpu σ) (gate : Option Gate) (err : Option Word) :
    Except (Stop σ) (Cpu σ) :=
  match gate with
  | none => .error .fault
  | some g =>
    if g.IsInterrupt ∧ e.code g.selector then .ok (c.enter g err) else .error .fault

/-! ## The stack -/

namespace Cpu

variable (c : Cpu σ) (ws : List Word) {n : ℕ}

@[simp] theorem pushAll_nil : c.pushAll [] = c :=
  rfl

@[simp] theorem pushAll_cons (w : Word) : c.pushAll (w :: ws) = (c.pushAll ws).push w :=
  rfl

@[simp] theorem world_pushAll : (c.pushAll ws).world = c.world := by
  induction ws with
  | nil => rfl
  | cons w ws ih => rw [pushAll_cons, push, ih]

theorem pushAll_append (vs : List Word) : c.pushAll (vs ++ ws) = (c.pushAll ws).pushAll vs := by
  induction vs with
  | nil => rfl
  | cons v vs ih => rw [List.cons_append, pushAll_cons, ih, pushAll_cons]

theorem esp_pushAll : (c.pushAll ws).esp = c.esp - BitVec.ofNat 32 (4 * ws.length) := by
  induction ws with
  | nil => simp
  | cons w ws ih =>
    rw [pushAll_cons, push, ih, List.length_cons]
    bv_omega

/-- What is pushed stands on what was on the stack. -/
theorem holds_pushAll {vs : List Word} (hlen : 4 * (ws.length + vs.length) ≤ 2 ^ 32)
    (hc : c.mem.Holds c.esp vs) :
    (c.pushAll ws).mem.Holds (c.pushAll ws).esp (ws ++ vs) := by
  induction ws with
  | nil => exact hc
  | cons w ws ih =>
    rw [List.length_cons] at hlen
    refine (ih (by omega)).push ?_ w
    rw [List.length_append]
    omega

/-- Words are pushed below the old top of the stack. -/
theorem frame_pushAll (hlen : 4 * ws.length ≤ n) (hn : n ≤ 2 ^ 32) :
    Frame (below c.esp n) c.mem (c.pushAll ws).mem := by
  induction ws with
  | nil => exact Frame.refl _ _
  | cons w ws ih =>
    rw [List.length_cons] at hlen
    refine (ih (by omega)).trans ((frame_store32 _ _ _).mono ?_)
    have hsp : (c.pushAll ws).esp - 4 = c.esp - BitVec.ofNat 32 (4 * (ws.length + 1)) := by
      rw [esp_pushAll]
      bv_omega
    rw [hsp]
    exact block_subset_below hlen hn (by omega)

end Cpu

/-- A function returns, with the return address taken off the stack, and has written nothing of
the stack but `n` bytes below it, the return address and the word of its argument. -/
structure ReturnsWithin (n : ℕ) (c c' : Cpu σ) : Prop where
  esp : c'.esp = c.esp + 4
  frame : Frame (below (c.esp + 8) (n + 8)) c.mem c'.mem

/-- The words above the argument are on the stack when the function has returned. -/
theorem ReturnsWithin.holds {n : ℕ} {c c' : Cpu σ} {ret arg : Word} {ws : List Word}
    (h : ReturnsWithin n c c') (hroom : 4 * ws.length + (n + 8) ≤ 2 ^ 32)
    (hc : c.mem.Holds c.esp (ret :: arg :: ws)) : c'.mem.Holds (c'.esp + 4) ws := by
  have hsp : c'.esp + 4 = c.esp + 8 := by
    rw [h.esp]
    bv_omega
  have hws : c.mem.Holds (c.esp + 8) ws := by
    have htail := hc.tail.tail
    rwa [show c.esp + 4 + 4 = c.esp + 8 by bv_omega] at htail
  rw [hsp]
  exact hws.congr (by omega) fun x hx => h.frame x (notMem_below hroom hx)

end Deliver

/-! ## Code that does not depend on some bytes -/

section Blind

variable {σ : Type*} {f : Cpu σ → Cpu σ} {c : Cpu σ} {S : Set Word} {m : Mem}

/-- Whatever the bytes in `S` are, the code makes the same of everything but memory. -/
def Blind (f : Cpu σ → Cpu σ) (c : Cpu σ) (S : Set Word) : Prop :=
  ∀ m, Frame S c.mem m →
    f { c with mem := m } = { f c with mem := (f { c with mem := m }).mem }

/-- The bytes of which the code makes something else when the bytes in `S` are others. -/
def spoiled (f : Cpu σ → Cpu σ) (c : Cpu σ) (S : Set Word) : Set Word :=
  {x | ∃ m, Frame S c.mem m ∧ (f { c with mem := m }).mem x ≠ (f c).mem x}

/-- Other bytes in `S` change nothing but the bytes that they spoil. -/
theorem frame_spoiled (h : Frame S c.mem m) :
    Frame (spoiled f c S) (f c).mem (f { c with mem := m }).mem := by
  intro x hx
  by_contra hne
  exact hx ⟨m, h, hne⟩

/-- Code that leaves memory alone spoils no other byte. -/
theorem spoiled_subset (hmem : ∀ m, (f { c with mem := m }).mem = m) : spoiled f c S ⊆ S := by
  rintro x ⟨m, hm, hne⟩
  by_contra hx
  have hself : (f c).mem = c.mem := hmem c.mem
  rw [hmem, hself] at hne
  exact hne (hm x hx)

/-- A register is pushed whatever lies below the stack. -/
theorem blind_push (r : Reg) (c : Cpu σ) (S : Set Word) :
    Blind (fun c => c.push (c.gpr r)) c S :=
  fun _ _ => rfl

/-- The bytes of a word that is pushed are not spoiled any more. -/
theorem spoiled_push (r : Reg) (c : Cpu σ) (S : Set Word) :
    spoiled (fun c => c.push (c.gpr r)) c S ⊆ S \ block (c.esp - 4) 4 := by
  rintro x ⟨m, hm, hne⟩
  have hbyte : ∀ m : Mem, (({ c with mem := m } : Cpu σ).push (c.gpr r)).mem x =
      if (x - (c.esp - 4)).toNat < 4 then byteOf (c.gpr r) (x - (c.esp - 4)).toNat else m x :=
    fun m => store32_apply m _ _ x
  have hself : (c.push (c.gpr r)).mem x =
      if (x - (c.esp - 4)).toNat < 4 then byteOf (c.gpr r) (x - (c.esp - 4)).toNat
      else c.mem x := hbyte c.mem
  dsimp only at hne
  rw [hbyte, hself] at hne
  by_cases hx : (x - (c.esp - 4)).toNat < 4
  · rw [if_pos hx, if_pos hx] at hne
    exact absurd rfl hne
  · rw [if_neg hx, if_neg hx] at hne
    exact ⟨by_contra fun hS => hne (hm x hS), mt mem_block.1 hx⟩

/-- A register is taken from the stack whatever the other bytes are. -/
theorem blind_popReg (r : Reg) (hS : ∀ x ∈ block c.esp 4, x ∉ S) :
    Blind (fun c => c.popReg r) c S := by
  intro m hm
  have htop : ({ c with mem := m } : Cpu σ).top = c.top := hm.load32 hS
  simp only [Cpu.popReg, htop]
  rfl

/-- Room is made on the stack, whatever is in it. -/
theorem blind_drop (n : Word) (c : Cpu σ) (S : Set Word) : Blind (fun c => c.drop n) c S :=
  fun _ _ => rfl

/-- Taking a word from the stack spoils nothing. -/
theorem spoiled_popReg (r : Reg) (c : Cpu σ) (S : Set Word) :
    spoiled (fun c => c.popReg r) c S ⊆ S :=
  spoiled_subset fun _ => rfl

theorem spoiled_drop (n : Word) (c : Cpu σ) (S : Set Word) :
    spoiled (fun c => c.drop n) c S ⊆ S :=
  spoiled_subset fun _ => rfl

end Blind

end Ia32
