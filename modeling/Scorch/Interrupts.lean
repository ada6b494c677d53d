import Scorch.Lib.Pic8259
import Scorch.Stubs

/-!
# Interrupt handlers

`irq_handler` of `irq.c` calls the routine that is installed for the line of the interrupt and
ends the interrupt at the controllers. `fault_handler` of `isrs.c` writes the name of an
exception and never returns.

Both get the registers of the code that was interrupted, where the stubs have put them
(`argument_called`). So an interrupt of a line calls the routine of that line (`interrupt_line`)
and leaves the code that was interrupted as it was, and an exception stops the kernel with its
own message on the screen (`interrupt_exception`). Of the two C functions the results assume
what a `Kernel` says : that the compiled code does what the source says, returns when the
routine that it calls does, and keeps within the room below the stack.
-/

open ByteMemory Mem Ia32 Pic8259

namespace Scorch

/-! ## The variables of the kernel -/

/-- `struct regs` -/
structure Regs where
  gs : Word
  fs : Word
  es : Word
  ds : Word
  edi : Word
  esi : Word
  ebp : Word
  esp : Word
  ebx : Word
  edx : Word
  ecx : Word
  eax : Word
  intNo : Word
  errCode : Word
  eip : Word
  cs : Word
  eflags : Word
  useresp : Word
  ss : Word

/-- The structure at an address. -/
def Regs.read (m : Mem) (r : Word) : Regs where
  gs := m.field r 0
  fs := m.field r 1
  es := m.field r 2
  ds := m.field r 3
  edi := m.field r 4
  esi := m.field r 5
  ebp := m.field r 6
  esp := m.field r 7
  ebx := m.field r 8
  edx := m.field r 9
  ecx := m.field r 10
  eax := m.field r 11
  intNo := m.field r 12
  errCode := m.field r 13
  eip := m.field r 14
  cs := m.field r 15
  eflags := m.field r 16
  useresp := m.field r 17
  ss := m.field r 18

/-- What the handlers change : `irq_routines`, the interrupt controllers, the text on the screen
and whatever the drivers keep. -/
structure World (δ : Type*) where
  irqRoutines : Fin 16 → Word
  pics : Pics
  screen : List String
  devices : δ

namespace World

variable {δ : Type*} (w : World δ)

/-- `outportb` to one of the controllers. -/
def outportb (port : BitVec 16) (data : Byte) : World δ :=
  { w with pics := w.pics.outb port data }

/-- `puts`. -/
def puts (text : String) : World δ :=
  { w with screen := w.screen ++ [text] }

/-- `irq_install_handler` -/
def irqInstallHandler (irq : Fin 16) (handler : Word) : World δ :=
  { w with irqRoutines := Function.update w.irqRoutines irq handler }

/-- `irq_remap` -/
def irqRemap : World δ :=
  let w := w.outportb 0x20 0x11
  let w := w.outportb 0xA0 0x11
  let w := w.outportb 0x21 0x20
  let w := w.outportb 0xA1 0x28
  let w := w.outportb 0x21 0x04
  let w := w.outportb 0xA1 0x02
  let w := w.outportb 0x21 0x01
  let w := w.outportb 0xA1 0x01
  let w := w.outportb 0x21 0x0
  w.outportb 0xA1 0x0

end World

/-! ## The handlers -/

section Handlers

variable {σ δ : Type*}

/-- `exception_messages` -/
def exceptionMessages : List String :=
  ["Division By Zero", "Debug", "Non Maskable Interrupt", "Breakpoint", "Into Detected Overflow",
    "Out of Bounds", "Invalid Opcode", "No Coprocessor", "Double Fault",
    "Coprocessor Segment Overrun", "Bad TSS", "Segment Not Present", "Stack Fault",
    "General Protection Fault", "Page Fault", "Unknown Interrupt", "Coprocessor Fault",
    "Alignment Check", "Machine Check", "Reserved", "Reserved", "Reserved", "Reserved",
    "Reserved", "Reserved", "Reserved", "Reserved", "Reserved", "Reserved", "Reserved",
    "Reserved", "Reserved"]

/-- `fault_handler` -/
def faultHandler (r : Regs) (w : World δ) : Except (Stop (World δ)) (World δ) :=
  if r.intNo < 32 then
    let w := w.puts (exceptionMessages.getD r.intNo.toNat "")
    .error (.halted (w.puts " Exception. System Halted!\n"))
  else .ok w

/-- `irq_handler`. The routine at an address is `driver`. There is no result where the number
lies outside `irq_routines`. -/
def irqHandler (driver : Word → Regs → δ → δ) (r : Regs) (w : World δ) : Option (World δ) :=
  if h : (r.intNo - 32).toNat < 16 then
    let handler := w.irqRoutines ⟨(r.intNo - 32).toNat, h⟩
    let w := if handler ≠ 0 then { w with devices := driver handler r w.devices } else w
    let w := if 40 ≤ r.intNo then w.outportb 0xA0 0x20 else w
    some (w.outportb 0x20 0x20)
  else none

/-! ## What the handlers get -/

/-- The registers of the code that is interrupted, with the number of the vector and the error
code. The last two words are those on top of its stack. -/
def Regs.interrupted (num err : Word) (c : Cpu σ) : Regs where
  gs := (c.seg .gs).setWidth 32
  fs := (c.seg .fs).setWidth 32
  es := (c.seg .es).setWidth 32
  ds := (c.seg .ds).setWidth 32
  edi := c.gpr .edi
  esi := c.gpr .esi
  ebp := c.gpr .ebp
  esp := c.esp - 20
  ebx := c.gpr .ebx
  edx := c.gpr .edx
  ecx := c.gpr .ecx
  eax := c.gpr .eax
  intNo := num
  errCode := err
  eip := c.eip
  cs := c.cs.setWidth 32
  eflags := c.eflags
  useresp := c.mem.load32 c.esp
  ss := c.mem.load32 (c.esp + 4)

/-- The structure that a C function is handed. -/
def Regs.argument (c : Cpu σ) : Regs :=
  Regs.read c.mem (c.mem.load32 (c.esp + 4))

/-- The saved registers stand where the argument of a C function points to. -/
theorem holds_argument (handler ret : Word) {k : Cpu σ} {vs : List Word}
    (hlen : vs.length ≤ 2 ^ 29) (hk : k.mem.Holds k.esp vs) :
    (called handler ret k).mem.Holds
      ((called handler ret k).mem.load32 ((called handler ret k).esp + 4)) (saved k ++ vs) := by
  have hcall := holds_called handler ret hlen hk
  have hplace : (called handler ret k).esp + 4 + 4 = (k.pushAll (saved k)).esp := by
    have hcalled := esp_called handler ret k
    have hsaved : (k.pushAll (saved k)).esp = k.esp - BitVec.ofNat 32 48 :=
      k.esp_pushAll (saved k)
    rw [hsaved, ← hcalled]
    bv_omega
  have hregs := hcall.tail.tail
  rw [hplace] at hregs
  rw [hcall.tail.head]
  exact hregs

/-- A C function is handed the registers of the code that is interrupted. -/
theorem argument_called (g : Gate) (num err handler ret : Word) (c : Cpu σ) :
    Regs.argument (called handler ret (stubbed g num err c)) = Regs.interrupted num err c := by
  have hstub : (stubbed g num err c).mem.Holds (stubbed g num err c).esp
      ([num, err, c.eip, c.cs.setWidth 32, c.eflags] ++
        [c.mem.load32 c.esp, c.mem.load32 (c.esp + 4)]) :=
    c.holds_pushAll [num, err, c.eip, c.cs.setWidth 32, c.eflags] (by simp)
      ⟨rfl, rfl, trivial⟩
  have hregs := holds_argument handler ret (by simp) hstub
  have hsaved : saved (stubbed g num err c) = [(c.seg .gs).setWidth 32, (c.seg .fs).setWidth 32,
      (c.seg .es).setWidth 32, (c.seg .ds).setWidth 32, c.gpr .edi, c.gpr .esi, c.gpr .ebp,
      c.esp - 20, c.gpr .ebx, c.gpr .edx, c.gpr .ecx, c.gpr .eax] := by
    rw [saved, esp_stubbed]
    rfl
  rw [hsaved] at hregs
  rw [Regs.argument]
  generalize (called handler ret (stubbed g num err c)).mem = m at hregs ⊢
  generalize m.load32 ((called handler ret (stubbed g num err c)).esp + 4) = r at hregs ⊢
  have hfield : ∀ i (hi : i < 19), m.field r i = _ := fun i hi => hregs.field hi
  simp only [Regs.read, hfield 0 (by omega), hfield 1 (by omega), hfield 2 (by omega),
    hfield 3 (by omega), hfield 4 (by omega), hfield 5 (by omega), hfield 6 (by omega),
    hfield 7 (by omega), hfield 8 (by omega), hfield 9 (by omega), hfield 10 (by omega),
    hfield 11 (by omega), hfield 12 (by omega), hfield 13 (by omega), hfield 14 (by omega),
    hfield 15 (by omega), hfield 16 (by omega), hfield 17 (by omega), hfield 18 (by omega)]
  rfl

/-- A C function finds the number of the vector, whatever lies above it on the stack. -/
theorem intNo_called (handler ret : Word) {num : Word} {k : Cpu σ}
    (hk : k.mem.Holds k.esp [num]) : (Regs.argument (called handler ret k)).intNo = num :=
  (holds_argument handler ret (by simp) hk).field (i := 12) (by simp [saved])

/-! ## What the handlers do -/

/-- `irq_handler` for a line : the routine of the line, if one is installed, and the end of the
interrupt. -/
def World.served (driver : Word → Regs → δ → δ) (r : Regs) (l : Fin 16) (w : World δ) : World δ :=
  let w :=
    if w.irqRoutines l ≠ 0 then { w with devices := driver (w.irqRoutines l) r w.devices } else w
  let w := if 8 ≤ l.val then w.outportb 0xA0 0x20 else w
  w.outportb 0x20 0x20

/-- `irq_handler` runs the routine of the line and ends the interrupt. -/
theorem irqHandler_line (driver : Word → Regs → δ → δ) {r : Regs} {l : Fin 16}
    (hr : r.intNo = BitVec.ofNat 32 (32 + l)) (w : World δ) :
    irqHandler driver r w = some (w.served driver r l) := by
  have hl := l.isLt
  have hindex : (r.intNo - 32).toNat = l := by
    rw [hr]
    bv_omega
  have hlt : (r.intNo - 32).toNat < 16 := by omega
  have hfin : (⟨(r.intNo - 32).toNat, hlt⟩ : Fin 16) = l := Fin.ext hindex
  have hslave : (40 : Word) ≤ r.intNo ↔ 8 ≤ l.val := by
    rw [hr]
    bv_omega
  rw [irqHandler, dif_pos hlt, hfin]
  simp only [hslave]
  rfl

/-- `fault_handler` prints the message of the exception and stops. -/
theorem faultHandler_vector {r : Regs} {v : Fin 32} (hr : r.intNo = BitVec.ofNat 32 v)
    (w : World δ) : faultHandler r w = .error (.halted
      ((w.puts (exceptionMessages.getD v "")).puts " Exception. System Halted!\n")) := by
  have hv := v.isLt
  have hlt : r.intNo < 32 := by
    rw [hr]
    bv_omega
  have hindex : r.intNo.toNat = v := by
    rw [hr]
    bv_omega
  rw [faultHandler, if_pos hlt, hindex]

/-! ## The kernel -/

/-- The data segments are those of the kernel, or null. -/
def KernelSegments (c : Cpu σ) : Prop :=
  ∀ s, (c.seg s).toNat < 4 ∨ c.seg s = 0x08 ∨ c.seg s = 0x10

/-- The linked kernel : the routines of the drivers, which return, and the two C functions as the
compiler makes them, which do what their source says, follow the calling convention and stay
within the room that the stack has for them. -/
structure Kernel (δ : Type*) where
  image : Image
  gdt : Gdt
  driver : Word → Regs → δ → δ
  room : ℕ
  fn : Word → Cpu (World δ) → Except (Stop (World δ)) (Cpu (World δ))
  room_le : room + 84 ≤ 2 ^ 32
  irq_fn : ∀ c w, irqHandler driver (Regs.argument c) c.world = some w →
    ∃ p, fn image.irqHandler c = .ok p ∧ p.world = w ∧ ReturnsWithin room c p
  fault_fn : ∀ c s, faultHandler (Regs.argument c) c.world = .error s →
    fn image.faultHandler c = .error s

/-! ## A kernel with a timer -/

/-- The image of a kernel whose routines stand 16 bytes apart. -/
def Image.spaced : Image where
  isr n := 0x1000 + 16 * BitVec.ofNat 32 n
  irq n := 0x2000 + 16 * BitVec.ofNat 32 n
  faultHandler := 0x3000
  irqHandler := 0x3100
  faultReturn := 0x1200
  irqReturn := 0x2200
  isr_injective m n h := by
    have := m.isLt
    have := n.isLt
    dsimp only at h
    ext
    bv_omega
  irq_injective m n h := by
    have := m.isLt
    have := n.isLt
    dsimp only at h
    ext
    bv_omega
  isr_ne_irq m n h := by
    have := m.isLt
    have := n.isLt
    bv_omega

/-- `PIC_handler` at its address : the ticks are counted. -/
def timerDriver (handler : Word) (_ : Regs) (ticks : Word) : Word :=
  if handler = 0x4000 then ticks + 1 else ticks

/-- The two C functions, which use no stack of their own. -/
def timerFn (a : Word) (c : Cpu (World Word)) : Except (Stop (World Word)) (Cpu (World Word)) :=
  let back (w : World Word) := { c with esp := c.esp + 4, world := w }
  if a = Image.spaced.irqHandler then
    match irqHandler timerDriver (Regs.argument c) c.world with
    | none => .error .fault
    | some w => .ok (back w)
  else (faultHandler (Regs.argument c) c.world).map back

/-- A kernel whose only routine counts the ticks. -/
def Kernel.timer : Kernel Word where
  image := Image.spaced
  gdt := Gdt.zero
  driver := timerDriver
  room := 0
  fn := timerFn
  room_le := by omega
  irq_fn c w h := by
    refine ⟨{ c with esp := c.esp + 4, world := w }, ?_, rfl, rfl, Mem.Frame.refl _ _⟩
    rw [timerFn, if_pos rfl, h]
  fault_fn c s h := by
    have hne : Image.spaced.faultHandler ≠ Image.spaced.irqHandler := by decide
    rw [timerFn, if_neg hne, h]
    rfl

/-- The processor in the main loop of this kernel, with the timer installed. -/
def Kernel.timerCpu : Cpu (World Word) where
  gpr _ := 0
  esp := 0x9000
  seg _ := 0x10
  cs := 0x08
  eip := 0x5000
  eflags := flagIF
  mem _ := 0
  world :=
    let pic : Pic := ⟨.ready, true, true, 0, 0, 0, ∅, ∅, ∅⟩
    World.irqInstallHandler ⟨fun _ => 0, ⟨pic, pic⟩, [], 0⟩ ⟨0, by omega⟩ 0x4000

theorem Kernel.segments_timerCpu : KernelSegments Kernel.timerCpu :=
  fun _ => Or.inr (Or.inr rfl)

namespace Kernel

variable (k : Kernel δ)

/-- What the code of the kernel finds, once the tables are installed. -/
def env : Env (World δ) where
  data := (gdtInstall k.gdt).loadsData
  code := (gdtInstall k.gdt).loadsCode
  fn := k.fn

/-- An interrupt of the kernel. -/
def interrupt (v : Byte) (err : Option Word) (c : Cpu (World δ)) :
    Except (Stop (World δ)) (Cpu (World δ)) :=
  k.image.interrupt k.env (bootIdt k.image.isr k.image.irq) v err c

/-- The table has a data segment for the selectors of the kernel. -/
theorem data_env {s : Selector} (h : s.toNat < 4 ∨ s = 0x08 ∨ s = 0x10) :
    k.env.data s = true :=
  (loadsData_gdtInstall k.gdt s).2 h

theorem code_env : k.env.code 0x08 = true :=
  (loadsCode_gdtInstall k.gdt 0x08).2 rfl

/-- An interrupt of a line calls the routine of the line on the registers of the code that is
interrupted, and ends the interrupt. The processor has its registers back, and its memory but for
the bytes below its stack, and goes on if its code segment can be loaded. -/
theorem interrupt_line {c : Cpu (World δ)} (hseg : KernelSegments c) (l : Fin 16) :
    ∃ m, Mem.Frame (below c.esp (k.room + 76)) c.mem m ∧
      k.interrupt (BitVec.ofNat 8 (32 + l)) none c = Cpu.resume k.env { c with
        mem := m
        world := c.world.served k.driver
          (Regs.interrupted (BitVec.ofNat 32 (32 + l)) 0 c) l } c.eip c.cs c.eflags := by
  have harg : Regs.argument (k.image.irqCall l c) =
      Regs.interrupted (BitVec.ofNat 32 (32 + l)) 0 c :=
    argument_called _ _ _ _ _ c
  have hworld : (k.image.irqCall l c).world = c.world := world_called _ _ _ _ _ c
  have hnum : (Regs.argument (k.image.irqCall l c)).intNo = BitVec.ofNat 32 (32 + l) := by
    rw [harg]
    rfl
  obtain ⟨p, hp, hpw, hret⟩ := k.irq_fn _ _ (irqHandler_line k.driver hnum _)
  have hp' : k.env.fn k.image.irqHandler (k.image.irqCall l c) = .ok p := hp
  have hfn : ∀ q, k.env.fn k.image.irqHandler (k.image.irqCall l c) = .ok q →
      ReturnsWithin k.room (k.image.irqCall l c) q := by
    intro q hq
    rw [hp'] at hq
    cases hq
    exact hret
  have hrun := interrupt_irq (i := k.image) (e := k.env) (c := c) k.code_env
    (k.data_env (Or.inr (Or.inr rfl)))
    (fun s => k.data_env (hseg s)) (by have := k.room_le; omega) l hfn
  rw [hp', ok_bind, hpw, harg, hworld] at hrun
  exact ⟨p.mem, frame_stubbed (by have := k.room_le; omega) hret, hrun⟩

/-- The code that is interrupted goes on, with its registers and its memory, exactly when its
code segment is the one of `gdt_install`, which `gdt_flush` does not load. -/
theorem interrupt_returns_iff {c : Cpu (World δ)} (hseg : KernelSegments c) (l : Fin 16) :
    (∃ m, Mem.Frame (below c.esp (k.room + 76)) c.mem m ∧
      k.interrupt (BitVec.ofNat 8 (32 + l)) none c = .ok { c with
        mem := m
        world := c.world.served k.driver
          (Regs.interrupted (BitVec.ofNat 32 (32 + l)) 0 c) l }) ↔ c.cs = 0x08 := by
  obtain ⟨m, hm, hrun⟩ := k.interrupt_line hseg l
  rw [Cpu.resume] at hrun
  constructor
  · rintro ⟨m', -, hrun'⟩
    by_contra hcs
    have hcode : ¬k.env.code c.cs = true := mt (loadsCode_gdtInstall k.gdt c.cs).1 hcs
    rw [if_neg hcode] at hrun
    rw [hrun] at hrun'
    cases hrun'
  · intro hcs
    rw [if_pos (hcs.symm ▸ k.code_env)] at hrun
    exact ⟨m, hm, hrun⟩

theorem interrupt_returns_iff_timer : KernelSegments timerCpu ∧
    ((∃ m, Mem.Frame (below timerCpu.esp (timer.room + 76)) timerCpu.mem m ∧
      timer.interrupt (BitVec.ofNat 8 (32 + (0 : Fin 16))) none timerCpu = .ok { timerCpu with
        mem := m
        world := timerCpu.world.served timer.driver
          (Regs.interrupted (BitVec.ofNat 32 (32 + (0 : Fin 16))) 0 timerCpu) 0 }) ↔
      timerCpu.cs = 0x08) :=
  ⟨segments_timerCpu, timer.interrupt_returns_iff segments_timerCpu 0⟩

/-- An exception stops the kernel, with its message on the screen, whether the processor has pushed
an error code or not. -/
theorem interrupt_exception (c : Cpu (World δ)) (v : Fin 32) (err : Option Word) :
    k.interrupt (BitVec.ofNat 8 v) err c = .error (.halted
      ((c.world.puts (exceptionMessages.getD v "")).puts " Exception. System Halted!\n")) := by
  have hnum : (Regs.argument (k.image.faultCall v err c)).intNo = BitVec.ofNat 32 v :=
    intNo_called _ _ (holds_faulting _ v err c)
  have hfault := k.fault_fn _ _ (faultHandler_vector hnum _)
  rw [k.image.world_faultCall] at hfault
  exact interrupt_isr k.code_env (k.data_env (Or.inr (Or.inr rfl))) v err hfault

end Kernel

end Handlers

end Scorch
