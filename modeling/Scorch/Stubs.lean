import Scorch.Descriptors

/-!
# Interrupt routines

`start.s` has a routine for each of the first 48 vectors. It switches interrupts off, pushes the
number of the vector, behind a zero where the processor pushes no error code, and goes on with
the common stub of its kind. The stub saves the registers, so that the stack is a `struct regs`
from its top on, hands the address of it to the C function and restores the registers from it.

`run_commonStub` says what this comes to : the C function is called on the saved registers, and
when it has returned, the processor is as it was before the interrupt, except for the memory
below its stack and for what the function did.
-/

open ByteMemory Mem Ia32

namespace Scorch

/-! ## Code -/

/-- `isr_common_stub` and `irq_common_stub`, for the C function at `handler`. The call returns
to `ret`. -/
def commonStub (handler ret : Word) : List Instr :=
  [.pusha, .pushSeg .ds, .pushSeg .es, .pushSeg .fs, .pushSeg .gs,
    .movAx 0x10, .movSegAx .ds, .movSegAx .es, .movSegAx .fs, .movSegAx .gs,
    .movEsp .eax, .push .eax, .mov .eax handler, .call .eax ret,
    .pop .eax, .popSeg .gs, .popSeg .fs, .popSeg .es, .popSeg .ds, .popa, .addEsp 8, .iret]

/-- The exceptions whose routine leaves it to the processor to push an error code. -/
def leavesErrorCode (n : Fin 32) : Bool :=
  n ∈ [8, 10, 11, 12, 13, 14]

/-- What the linker makes of the routines : their addresses, which differ, those of the two C
functions and of the instructions behind the two calls. -/
structure Image where
  isr : Fin 32 → Word
  irq : Fin 16 → Word
  faultHandler : Word
  irqHandler : Word
  faultReturn : Word
  irqReturn : Word
  isr_injective : Function.Injective isr
  irq_injective : Function.Injective irq
  isr_ne_irq : ∀ m n, isr m ≠ irq n

namespace Image

variable (i : Image)

/-- `_isr0` to `_isr31`. The jump to the common stub goes on with its code. -/
def isrStub (n : Fin 32) : List Instr :=
  [.cli] ++ (if leavesErrorCode n then [] else [.pushByte 0]) ++ [.pushByte (BitVec.ofNat 8 n)] ++
    commonStub i.faultHandler i.faultReturn

/-- `_irq0` to `_irq15`. -/
def irqStub (n : Fin 16) : List Instr :=
  [.cli, .pushByte 0, .pushByte (BitVec.ofNat 8 (32 + n))] ++
    commonStub i.irqHandler i.irqReturn

/-- The code at an address. -/
def codeAt (a : Word) : Option (List Instr) :=
  ((List.finRange 32).find? fun n => i.isr n = a).map i.isrStub <|>
    ((List.finRange 16).find? fun n => i.irq n = a).map i.irqStub

/-- Different stubs have different addresses, so the address finds the stub. -/
theorem find?_of_injective {n : ℕ} {f : Fin n → Word} (hf : Function.Injective f) (m : Fin n) :
    (List.finRange n).find? (fun k => f k = f m) = some m := by
  cases hk : (List.finRange n).find? (fun k => f k = f m) with
  | none => exact absurd (List.find?_eq_none.1 hk m (List.mem_finRange m)) (by simp)
  | some k =>
    have heq : f k = f m := by simpa using List.find?_some hk
    rw [hf heq]

theorem codeAt_isr (n : Fin 32) : i.codeAt (i.isr n) = some (i.isrStub n) := by
  rw [codeAt, find?_of_injective i.isr_injective]
  rfl

theorem codeAt_irq (n : Fin 16) : i.codeAt (i.irq n) = some (i.irqStub n) := by
  have hnone : (List.finRange 32).find? (fun m => i.isr m = i.irq n) = none := by
    simpa [List.find?_eq_none] using fun m => i.isr_ne_irq m n
  rw [codeAt, hnone, find?_of_injective i.irq_injective]
  rfl

end Image

/-! ## The saved registers -/

variable {σ : Type*}

/-- What the common stub pushes, the last word first. -/
def saved (c : Cpu σ) : List Word :=
  [(c.seg .gs).setWidth 32, (c.seg .fs).setWidth 32, (c.seg .es).setWidth 32,
    (c.seg .ds).setWidth 32, c.gpr .edi, c.gpr .esi, c.gpr .ebp, c.esp, c.gpr .ebx, c.gpr .edx,
    c.gpr .ecx, c.gpr .eax]

/-- The processor at the first instruction of the C function. -/
def called (handler ret : Word) (c : Cpu σ) : Cpu σ :=
  let k := c.pushAll (saved c)
  { k.pushAll [ret, k.esp] with
    gpr := Function.update k.gpr .eax handler
    seg := fun _ => 0x10 }

theorem setWidth_append {k l : ℕ} (x : BitVec k) (v : BitVec l) : (x ++ v).setWidth l = v := by
  apply BitVec.eq_of_toNat_eq
  rw [BitVec.toNat_setWidth, toNat_append_low, Nat.mul_add_mod_self_right,
    Nat.mod_eq_of_lt v.isLt]

/-- The data segments of the kernel. -/
theorem run_segments {e : Env σ} {v : Selector} (hv : e.data v = true) (is : List Instr)
    (c : Cpu σ) :
    run e (.movAx v :: .movSegAx .ds :: .movSegAx .es :: .movSegAx .fs :: .movSegAx .gs :: is) c =
      run e is { c with
        gpr := Function.update c.gpr .eax ((c.gpr .eax).extractLsb' 16 16 ++ v)
        seg := fun _ => v } := by
  have hax : ((c.setReg .eax ((c.gpr .eax).extractLsb' 16 16 ++ v)).gpr .eax).setWidth 16 = v := by
    rw [gpr_setReg_self, setWidth_append]
  have hseg : Function.update (Function.update (Function.update (Function.update c.seg .ds v)
      .es v) .fs v) .gs v = fun _ => v := by
    funext s
    cases s <;> rfl
  refine (run_movSegAx hv is [.ds, .es, .fs, .gs] hax).trans (congrArg (run e is) ?_)
  rw [← hseg]
  rfl

/-- The call of the C function. -/
theorem run_call (e : Env σ) (handler ret : Word) (is : List Instr) (c : Cpu σ) :
    run e (.movEsp .eax :: .push .eax :: .mov .eax handler :: .call .eax ret :: is) c =
      e.fn handler { c.pushAll [ret, c.esp] with
        gpr := Function.update c.gpr .eax handler } >>= run e is := by
  have hgpr : Function.update (Function.update c.gpr .eax c.esp) .eax handler =
      Function.update c.gpr .eax handler :=
    Function.update_idem _ _ _
  rw [← hgpr]
  rfl

/-- The first half of the common stub, down to the call. -/
theorem run_save {e : Env σ} (h10 : e.data 0x10 = true) (handler ret : Word) (is : List Instr)
    (c : Cpu σ) :
    run e (.pusha :: .pushSeg .ds :: .pushSeg .es :: .pushSeg .fs :: .pushSeg .gs ::
      .movAx 0x10 :: .movSegAx .ds :: .movSegAx .es :: .movSegAx .fs :: .movSegAx .gs ::
      .movEsp .eax :: .push .eax :: .mov .eax handler :: .call .eax ret :: is) c =
      e.fn handler (called handler ret c) >>= run e is := by
  have hpush : ∀ is, run e (.pusha :: .pushSeg .ds :: .pushSeg .es :: .pushSeg .fs ::
      .pushSeg .gs :: is) c = run e is (c.pushAll (saved c)) := fun _ => rfl
  have hcalled : ∀ (k : Cpu σ) (v : Word),
      ({ ({ k with gpr := Function.update k.gpr .eax v, seg := fun _ => 0x10 } : Cpu σ).pushAll
          [ret, k.esp] with
        gpr := Function.update (Function.update k.gpr .eax v) .eax handler } : Cpu σ) =
      { k.pushAll [ret, k.esp] with
        gpr := Function.update k.gpr .eax handler
        seg := fun _ => 0x10 } := by
    intro k v
    rw [Function.update_idem]
    rfl
  rw [hpush, run_segments h10, run_call, hcalled]
  rfl

/-- The registers of `popa` come from the stack, the one of `esp` apart. -/
theorem gpr_popa {c p : Cpu σ} {esp : Word} {ws : List Word}
    (hp : p.mem.Holds p.esp (c.gpr .edi :: c.gpr .esi :: c.gpr .ebp :: esp :: c.gpr .ebx ::
      c.gpr .edx :: c.gpr .ecx :: c.gpr .eax :: ws)) : p.popa.gpr = c.gpr := by
  obtain ⟨hedi, hesi, hebp, -, hebx, hedx, hecx, heax, -⟩ := hp
  simp only [Cpu.popa, Cpu.popReg, Cpu.setReg, Cpu.drop, Cpu.top]
  rw [hedi, hesi, hebp, hebx, hedx, hecx, heax]
  funext r
  cases r <;> simp

/-- The last instructions of the common stub. -/
theorem run_return {e : Env σ} {c p : Cpu σ} {esp num err eip cs eflags : Word}
    (hp : p.mem.Holds p.esp [c.gpr .edi, c.gpr .esi, c.gpr .ebp, esp, c.gpr .ebx, c.gpr .edx,
      c.gpr .ecx, c.gpr .eax, num, err, eip, cs, eflags]) :
    run e [.popa, .addEsp 8, .iret] p =
      Cpu.resume e { p with gpr := c.gpr, esp := p.esp + 52 } eip (cs.setWidth 16) eflags := by
  have hesp : p.popa.esp + 8 = p.esp + 40 := by
    simp only [Cpu.popa, Cpu.popReg, Cpu.setReg, Cpu.drop]
    bv_omega
  have hq : p.popa.drop 8 = { p with gpr := c.gpr, esp := p.esp + 40 } := by
    rw [← hesp, ← gpr_popa hp]
    rfl
  have hret : p.mem.Holds (p.esp + 40) [eip, cs, eflags] := by
    have hret := hp.tail.tail.tail.tail.tail.tail.tail.tail.tail.tail
    have hplace : p.esp + 4 + 4 + 4 + 4 + 4 + 4 + 4 + 4 + 4 + 4 = p.esp + 40 := by
      bv_omega
    rwa [hplace] at hret
  have hpopa : exec e p .popa = .ok p.popa := rfl
  have hdrop : exec e p.popa (.addEsp 8) = .ok { p with gpr := c.gpr, esp := p.esp + 40 } := by
    rw [← hq]
    rfl
  have hiret : exec e { p with gpr := c.gpr, esp := p.esp + 40 } .iret =
      Cpu.resume e { p with gpr := c.gpr, esp := p.esp + 52 } eip (cs.setWidth 16) eflags := by
    have hend : p.esp + 40 + 12 = p.esp + 52 := by
      bv_omega
    rw [← hend]
    exact exec_iret hret
  rw [run_cons hpopa, run_cons hdrop, run_last, hiret]

/-- The second half of the common stub, behind the call : the registers come from the stack. -/
theorem run_restore {e : Env σ} {c p : Cpu σ} {num err eip cs eflags : Word}
    (hseg : ∀ s, e.data (c.seg s) = true)
    (hp : p.mem.Holds (p.esp + 4) (saved c ++ [num, err, eip, cs, eflags])) :
    run e [.pop .eax, .popSeg .gs, .popSeg .fs, .popSeg .es, .popSeg .ds, .popa, .addEsp 8, .iret]
      p = Cpu.resume e { p with gpr := c.gpr, esp := p.esp + 72, seg := c.seg } eip
        (cs.setWidth 16) eflags := by
  have hpop : exec e p (.pop .eax) = .ok (p.popReg .eax) := rfl
  have hgs : (p.popReg .eax).mem.Holds (p.popReg .eax).esp
      (saved c ++ [num, err, eip, cs, eflags]) := hp
  have hfs := holds_popSeg hgs .gs (c.seg .gs)
  have hes := holds_popSeg hfs .fs (c.seg .fs)
  have hds := holds_popSeg hes .es (c.seg .es)
  have hregs := holds_popSeg hds .ds (c.seg .ds)
  rw [run_cons hpop, run_popSeg (hseg .gs) hgs, run_popSeg (hseg .fs) hfs,
    run_popSeg (hseg .es) hes, run_popSeg (hseg .ds) hds, run_return hregs]
  have hsegs : Function.update (Function.update (Function.update (Function.update p.seg .gs
      (c.seg .gs)) .fs (c.seg .fs)) .es (c.seg .es)) .ds (c.seg .ds) = c.seg := by
    funext s
    cases s <;> rfl
  have hesp : p.esp + 4 + 4 + 4 + 4 + 4 + 52 = p.esp + 72 := by
    bv_omega
  simp only [Cpu.popReg, Cpu.setReg, Cpu.setSeg, Cpu.drop, hsegs, hesp]

/-- The words of a call stand on what was on the stack. -/
theorem holds_call (ret : Word) {c : Cpu σ} {ws : List Word} (hlen : 4 * (ws.length + 2) ≤ 2 ^ 32)
    (hc : c.mem.Holds c.esp ws) :
    (c.pushAll [ret, c.esp]).mem.Holds (c.pushAll [ret, c.esp]).esp (ret :: c.esp :: ws) := by
  refine (hc.push ?_ c.esp).push ?_ ret
  · omega
  · rw [List.length_cons]
    omega

/-- The stack of the C function : the return address, its argument, and from the argument on
the saved registers. -/
theorem holds_called (handler ret : Word) {c : Cpu σ} {vs : List Word}
    (hlen : vs.length ≤ 2 ^ 29) (hc : c.mem.Holds c.esp vs) :
    (called handler ret c).mem.Holds (called handler ret c).esp
      (ret :: (c.pushAll (saved c)).esp :: (saved c ++ vs)) := by
  have hsaved : (saved c).length = 12 := rfl
  have hregs : (c.pushAll (saved c)).mem.Holds (c.pushAll (saved c)).esp (saved c ++ vs) :=
    c.holds_pushAll (saved c) (by omega) hc
  have hlen' : 4 * ((saved c ++ vs).length + 2) ≤ 2 ^ 32 := by
    rw [List.length_append, hsaved]
    omega
  exact holds_call ret hlen' hregs

/-- Where the stack of a C function ends, behind its return address and its argument. -/
theorem esp_called (handler ret : Word) (c : Cpu σ) :
    (called handler ret c).esp + 8 = c.esp - BitVec.ofNat 32 48 := by
  have hsaved : (c.pushAll (saved c)).esp = c.esp - BitVec.ofNat 32 48 := c.esp_pushAll (saved c)
  have hcall : (called handler ret c).esp = (c.pushAll (saved c)).esp - BitVec.ofNat 32 8 :=
    (c.pushAll (saved c)).esp_pushAll [ret, (c.pushAll (saved c)).esp]
  rw [hcall, hsaved]
  bv_omega

/-- The common stub calls the C function on the saved registers, and goes back to where the
processor was interrupted, with the registers as they were. -/
theorem run_commonStub {e : Env σ} {c : Cpu σ} {n : ℕ} {num err eip cs eflags handler ret : Word}
    (h10 : e.data 0x10 = true) (hseg : ∀ s, e.data (c.seg s) = true)
    (hc : c.mem.Holds c.esp [num, err, eip, cs, eflags]) (hroom : n + 76 ≤ 2 ^ 32)
    (hfn : ∀ p, e.fn handler (called handler ret c) = .ok p →
      ReturnsWithin n (called handler ret c) p) :
    run e (commonStub handler ret) c = e.fn handler (called handler ret c) >>= fun p =>
      Cpu.resume e { p with gpr := c.gpr, esp := c.esp + 20, seg := c.seg } eip
        (cs.setWidth 16) eflags := by
  rw [commonStub, run_save h10]
  cases hp : e.fn handler (called handler ret c) with
  | error s => rfl
  | ok p =>
    have hret := hfn p hp
    have hlen : (saved c ++ [num, err, eip, cs, eflags]).length = 17 := rfl
    have hregs : p.mem.Holds (p.esp + 4) (saved c ++ [num, err, eip, cs, eflags]) :=
      hret.holds (by rw [hlen]; omega) (holds_called handler ret (by simp) hc)
    have hesp : p.esp + 72 = c.esp + 20 := by
      have hsp := esp_called handler ret c
      rw [hret.esp]
      bv_omega
    have hrun := run_restore hseg hregs
    rw [hesp] at hrun
    rw [ok_bind, ok_bind, hrun]

/-! ## An interrupt, from the gate to the return -/

/-- The processor at the common stub : the number of the vector and the error code are on the
stack, above the place and the flags of the code that was interrupted. -/
def stubbed (g : Gate) (num err : Word) (c : Cpu σ) : Cpu σ :=
  { c.pushAll [num, err, c.eip, c.cs.setWidth 32, c.eflags] with
    cs := g.selector
    eip := g.offset
    eflags := c.eflags &&& ~~~gateFlags &&& ~~~flagIF }

/-- The vectors of the kernel are pushed as they are. -/
theorem signExtend_vector : ∀ n < 48,
    (BitVec.ofNat 8 n).signExtend 32 = BitVec.ofNat 32 n := by
  decide

theorem signExtend_zero : (0 : Byte).signExtend 32 = (0 : Word) :=
  signExtend_vector 0 (by omega)

/-- The stub of a line pushes a zero and its vector. -/
theorem run_irqStub (i : Image) (e : Env σ) (g : Gate) (n : Fin 16) (c : Cpu σ) :
    run e (i.irqStub n) (c.enter g none) =
      run e (commonStub i.irqHandler i.irqReturn) (stubbed g (BitVec.ofNat 32 (32 + n)) 0 c) := by
  rw [Image.irqStub, List.cons_append, List.cons_append, List.singleton_append, run_cli,
    run_pushByte, run_pushByte, signExtend_zero, signExtend_vector _ (by omega)]
  exact congrArg (run e _) rfl

/-- What is on the stack at the common stub of an exception, below the number of the vector : what
the processor has pushed, and a zero if the routine does not count on an error code. -/
def faultWords (n : Fin 32) (err : Option Word) (c : Cpu σ) : List Word :=
  (if leavesErrorCode n then [] else [0]) ++ c.returnWords err

/-- The processor at the common stub of an exception. -/
def faulting (g : Gate) (n : Fin 32) (err : Option Word) (c : Cpu σ) : Cpu σ :=
  { c.pushAll (BitVec.ofNat 32 n :: faultWords n err c) with
    cs := g.selector
    eip := g.offset
    eflags := c.eflags &&& ~~~gateFlags &&& ~~~flagIF }

/-- The number of the vector is on top, whatever the processor has pushed. -/
theorem holds_faulting (g : Gate) (n : Fin 32) (err : Option Word) (c : Cpu σ) :
    (faulting g n err c).mem.Holds (faulting g n err c).esp [BitVec.ofNat 32 n] :=
  ⟨load32_store32_self _ _ _, trivial⟩

/-- The stub of an exception pushes its vector, and a zero before it when it does not count on
an error code. -/
theorem run_isrStub (i : Image) (e : Env σ) (g : Gate) (n : Fin 32) (err : Option Word)
    (c : Cpu σ) :
    run e (i.isrStub n) (c.enter g err) =
      run e (commonStub i.faultHandler i.faultReturn) (faulting g n err c) := by
  rw [Image.isrStub, faulting, faultWords]
  cases leavesErrorCode n with
  | true =>
    rw [if_pos rfl, if_pos rfl, List.append_nil, List.append_assoc, List.singleton_append,
      List.singleton_append, run_cli, run_pushByte, signExtend_vector n (by omega)]
    exact congrArg (run e _) rfl
  | false =>
    rw [if_neg Bool.false_ne_true, if_neg Bool.false_ne_true, List.append_assoc,
      List.append_assoc, List.singleton_append, List.singleton_append, List.singleton_append,
      run_cli, run_pushByte, run_pushByte, signExtend_zero, signExtend_vector n (by omega)]
    exact congrArg (run e _) rfl

/-- The common part writes below the stack pointer only. -/
theorem frame_called (handler ret : Word) (c : Cpu σ) {n : ℕ} (hn : 56 ≤ n) (hroom : n ≤ 2 ^ 32) :
    Mem.Frame (below c.esp n) c.mem (called handler ret c).mem := by
  have hlen : 4 * ([ret, (c.pushAll (saved c)).esp] ++ saved c).length ≤ n := by
    rw [List.length_append]
    exact hn
  have hframe := c.frame_pushAll ([ret, (c.pushAll (saved c)).esp] ++ saved c) hlen hroom
  rw [c.pushAll_append] at hframe
  exact hframe

/-- Five words lie on the stack when the common part starts. -/
theorem esp_stubbed (g : Gate) (num err : Word) (c : Cpu σ) :
    (stubbed g num err c).esp = c.esp - BitVec.ofNat 32 20 :=
  c.esp_pushAll [num, err, c.eip, c.cs.setWidth 32, c.eflags]

/-- A stub and its C function write nothing but memory below the stack. -/
theorem frame_stubbed {g : Gate} {num err handler ret : Word} {n : ℕ} {c p : Cpu σ}
    (hroom : n + 76 ≤ 2 ^ 32)
    (hp : ReturnsWithin n (called handler ret (stubbed g num err c)) p) :
    Mem.Frame (below c.esp (n + 76)) c.mem p.mem := by
  have hstub : Mem.Frame (below c.esp (n + 76)) c.mem (stubbed g num err c).mem :=
    c.frame_pushAll [num, err, c.eip, c.cs.setWidth 32, c.eflags] (by simp) hroom
  have hcall := frame_called handler ret (stubbed g num err c) (Nat.le_refl 56) (by omega)
  have hfn := hp.frame
  rw [esp_stubbed] at hcall
  rw [esp_called, esp_stubbed] at hfn
  have hplace : c.esp - BitVec.ofNat 32 20 - BitVec.ofNat 32 48 = c.esp - BitVec.ofNat 32 68 := by
    bv_omega
  rw [hplace] at hfn
  exact (hstub.trans (hcall.mono (below_subset (by omega) hroom))).trans
    (hfn.mono (below_subset (by omega) hroom))

/-- The common part calls the C function and restores what it saved, when that function keeps
within its room. -/
theorem run_stubbed {e : Env σ} {c : Cpu σ} {g : Gate} {n : ℕ} {num err handler ret : Word}
    (h10 : e.data 0x10 = true) (hseg : ∀ s, e.data (c.seg s) = true) (hroom : n + 76 ≤ 2 ^ 32)
    (hfn : ∀ p, e.fn handler (called handler ret (stubbed g num err c)) = .ok p →
      ReturnsWithin n (called handler ret (stubbed g num err c)) p) :
    run e (commonStub handler ret) (stubbed g num err c) =
      e.fn handler (called handler ret (stubbed g num err c)) >>= fun p =>
        Cpu.resume e { c with mem := p.mem, world := p.world } c.eip c.cs c.eflags := by
  have hc : (stubbed g num err c).mem.Holds (stubbed g num err c).esp
      [num, err, c.eip, c.cs.setWidth 32, c.eflags] :=
    c.holds_pushAll [num, err, c.eip, c.cs.setWidth 32, c.eflags] (by simp) (holds_nil _ _)
  have hcs : (c.cs.setWidth 32).setWidth 16 = c.cs := by
    simp
  have hesp : (stubbed g num err c).esp + 20 = c.esp := by
    simp only [stubbed, Cpu.pushAll_cons, Cpu.pushAll_nil, Cpu.push]
    bv_omega
  have hgpr : (stubbed g num err c).gpr = c.gpr := rfl
  have hsegs : (stubbed g num err c).seg = c.seg := rfl
  have hrun := run_commonStub h10 (hsegs ▸ hseg) hc hroom hfn
  rw [hesp, hcs, hgpr, hsegs] at hrun
  exact hrun

/-- The processor at the first instruction of `irq_handler`, after an interrupt of line `l`. -/
def Image.irqCall (i : Image) (l : Fin 16) (c : Cpu σ) : Cpu σ :=
  called i.irqHandler i.irqReturn
    (stubbed ⟨i.irq l, 0x08, 0x8E⟩ (BitVec.ofNat 32 (32 + l)) 0 c)

/-- The processor at the first instruction of `fault_handler`, after exception `v`. -/
def Image.faultCall (i : Image) (v : Fin 32) (err : Option Word) (c : Cpu σ) : Cpu σ :=
  called i.faultHandler i.faultReturn (faulting ⟨i.isr v, 0x08, 0x8E⟩ v err c)

/-- Until the C function is called, nothing outside the processor happens. -/
theorem Image.world_faultCall (i : Image) (v : Fin 32) (err : Option Word) (c : Cpu σ) :
    (i.faultCall v err c).world = c.world := by
  rw [Image.faultCall, called, Cpu.world_pushAll, Cpu.world_pushAll, faulting,
    Cpu.world_pushAll]

/-- The stubs do nothing outside the processor. -/
theorem world_called (handler ret : Word) (g : Gate) (num err : Word) (c : Cpu σ) :
    (called handler ret (stubbed g num err c)).world = c.world := by
  rw [called, Cpu.world_pushAll, Cpu.world_pushAll, stubbed, Cpu.world_pushAll]

/-- An interrupt, with the routines of the image and the gates of a table. -/
def Image.interrupt (i : Image) (e : Env σ) (t : Idt) (v : Byte) (err : Option Word) (c : Cpu σ) :
    Except (Stop σ) (Cpu σ) := do
  let c ← c.deliver e (t.gate v) err
  match i.codeAt c.eip with
  | none => .error .fault
  | some code => run e code c

/-- The gates of the kernel are interrupt gates. -/
theorem isInterrupt_kernel (base : Word) : Gate.IsInterrupt ⟨base, 0x08, 0x8E⟩ := by
  show (0x8E : Byte) &&& 0x9F = 0x8E
  decide

section Interrupt

variable {i : Image} {e : Env σ} {c : Cpu σ} {n : ℕ}

/-- An interrupt of one of the lines of the controllers : the C function is called, and the
processor goes on where it was. -/
theorem interrupt_irq (h08 : e.code 0x08 = true) (h10 : e.data 0x10 = true)
    (hseg : ∀ s, e.data (c.seg s) = true) (hroom : n + 76 ≤ 2 ^ 32)
    (l : Fin 16)
    (hfn : ∀ p, e.fn i.irqHandler (i.irqCall l c) = .ok p → ReturnsWithin n (i.irqCall l c) p) :
    i.interrupt e (bootIdt i.isr i.irq) (BitVec.ofNat 8 (32 + l)) none c =
      e.fn i.irqHandler (i.irqCall l c) >>= fun p =>
        Cpu.resume e { c with mem := p.mem, world := p.world } c.eip c.cs c.eflags := by
  have hdeliver : c.deliver e (some ⟨i.irq l, 0x08, 0x8E⟩) none =
      .ok (c.enter ⟨i.irq l, 0x08, 0x8E⟩ none) :=
    if_pos ⟨isInterrupt_kernel (i.irq l), h08⟩
  have heip : (c.enter ⟨i.irq l, 0x08, 0x8E⟩ none).eip = i.irq l := rfl
  rw [Image.interrupt, gate_bootIdt_irq, hdeliver, ok_bind, heip, i.codeAt_irq]
  dsimp only
  rw [run_irqStub]
  exact run_stubbed h10 hseg hroom hfn

/-- An exception : the C function is called. When it stops, so does the interrupt. -/
theorem interrupt_isr (h08 : e.code 0x08 = true) (h10 : e.data 0x10 = true) (v : Fin 32)
    (err : Option Word) {s : Stop σ}
    (hfn : e.fn i.faultHandler (i.faultCall v err c) = .error s) :
    i.interrupt e (bootIdt i.isr i.irq) (BitVec.ofNat 8 v) err c = .error s := by
  have hdeliver : c.deliver e (some ⟨i.isr v, 0x08, 0x8E⟩) err =
      .ok (c.enter ⟨i.isr v, 0x08, 0x8E⟩ err) :=
    if_pos ⟨isInterrupt_kernel (i.isr v), h08⟩
  have heip : (c.enter ⟨i.isr v, 0x08, 0x8E⟩ err).eip = i.isr v := rfl
  rw [Image.interrupt, gate_bootIdt_isr, hdeliver, ok_bind, heip, i.codeAt_isr]
  dsimp only
  have hcall : e.fn i.faultHandler
      (called i.faultHandler i.faultReturn (faulting ⟨i.isr v, 0x08, 0x8E⟩ v err c)) =
        .error s := hfn
  rw [run_isrStub, commonStub, run_save h10, hcall, error_bind]

end Interrupt

end Scorch
