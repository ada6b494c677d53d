import Scorch.Interrupts
import Scorch.Lib.GuardedRun

/-!
# Runs with interrupts

Devices ask for their lines and give them up, the code of the kernel goes on, exceptions come,
and while the interrupt flag is set the processor takes interrupts, each through the gate, the
routine of `start.s` and `irq_handler`.

To the code this is a machine without any of that (`ideal`) : a set of lines that are asked for,
and between two instructions a call of the routine of the first of them. A step of the code is a
function, and each machine applies it to its own registers and memory.

The two machines differ in the bytes that interrupts leave below the stack. `stale` are those
that the code has not overwritten since, and what it has made of them. A run is clean as long as
nothing else depends on stale bytes, and the code stays in the segments of the kernel. Every
clean run of the kernel from `irq_remap` on follows the run of the other machine
(`mirrors_ideal`) : it never faults, it stops only in an exception, the registers are always the
same, and so is the memory but for the stale bytes.

Whatever the code depends on, no request is lost or served twice : as many interrupts as there
are lines asked for serve them all, in the order of the controllers (`serves_all`).
-/

open ByteMemory Mem Ia32 Pic8259 GuardedRun

namespace Scorch

variable {δ : Type*}

/-! ## The machine that the code sees -/

/-- The number of a line, as `irq_routines` counts them. -/
def lineNumber : Line → Fin 16 :=
  Sum.elim (Fin.castAdd 8) (Fin.natAdd 8)

/-- What the code of the kernel keeps outside the memory of its stack. It has nothing to do with
the controllers. -/
structure Variables (δ : Type*) where
  irqRoutines : Fin 16 → Word
  screen : List String
  devices : δ

/-- What the code can read and write. -/
def World.variables (w : World δ) : Variables δ :=
  ⟨w.irqRoutines, w.screen, w.devices⟩

/-- The world with other values of it. -/
def World.keeping (w : World δ) (v : Variables δ) : World δ :=
  { w with irqRoutines := v.irqRoutines, screen := v.screen, devices := v.devices }

/-- The lines that are asked for, in place of the controllers. -/
structure Queue (δ : Type*) extends Variables δ where
  requests : Finset Line

/-- The same, with the set of requests. -/
def World.queue (w : World δ) : Queue δ :=
  { toVariables := w.variables, requests := w.pics.requests }

/-- The processor with the queue. -/
def seen (c : Cpu (World δ)) : Cpu (Queue δ) :=
  c.withWorld c.world.queue

/-- The routine of a line is called, if there is one. -/
def Queue.call (driver : Word → Regs → δ → δ) (r : Regs) (l : Fin 16) (q : Queue δ) : Queue δ :=
  if q.irqRoutines l ≠ 0 then { q with devices := driver (q.irqRoutines l) r q.devices } else q

/-- A call for a line, on the registers of the code, that leaves the lines `requests`. -/
def Queue.calling (driver : Word → Regs → δ → δ) (l : Fin 16) (requests : Finset Line)
    (a : Cpu (Queue δ)) : Cpu (Queue δ) :=
  let r := Regs.interrupted (BitVec.ofNat 32 (32 + l)) 0 a
  { a with world := Queue.call driver r l { a.world with requests := requests } }

/-- An interrupt is a call, for the first line that is asked for. With none left, it is a call
for line 7. -/
def Queue.interrupt (driver : Word → Regs → δ → δ) (a : Cpu (Queue δ)) : Cpu (Queue δ) :=
  match Pics.order.find? (· ∈ a.world.requests) with
  | none => Queue.calling driver 7 a.world.requests a
  | some l => Queue.calling driver (lineNumber l) (a.world.requests.erase l) a

/-- The machine that the code sees, and the bytes that an interrupt has left below the stack, or
that the code has made of such bytes. -/
structure Ideal (δ : Type*) where
  cpu : Cpu (Queue δ)
  stale : Set Word

/-- With other requests. -/
def Ideal.asking (a : Ideal δ) (requests : Finset Line) : Ideal δ :=
  { a with cpu := { a.cpu with world := { a.cpu.world with requests := requests } } }

/-! ## Runs -/

/-- What can happen between two instructions of the kernel, and one of its instructions. -/
inductive Event (δ : Type*) where
  /-- A device asks for a line. -/
  | raise (l : Line)
  /-- A device gives a line up. -/
  | withdraw (l : Line)
  /-- The code that is not interrupted takes a step. -/
  | code (f : Cpu (Variables δ) → Cpu (Variables δ))
  /-- The processor takes an interrupt, if the flag is set. -/
  | interrupt
  /-- The code causes an exception, with an error code or without. -/
  | exception (v : Fin 32) (err : Option Word)

/-- The code stays in the segments of the kernel. -/
def Event.KeepsSegments : Event δ → Prop
  | .code f => ∀ p, KernelSegments p → p.cs = 0x08 → KernelSegments (f p) ∧ (f p).cs = 0x08
  | _ => True

/-- The kernel at an event. -/
def Kernel.event (k : Kernel δ) (c : Cpu (World δ)) :
    Event δ → Except (Stop (World δ)) (Cpu (World δ))
  | .raise l => .ok { c with world := { c.world with pics := c.world.pics.raise l } }
  | .withdraw l => .ok { c with world := { c.world with pics := c.world.pics.withdraw l } }
  | .code f =>
    let p := f (c.withWorld c.world.variables)
    .ok (p.withWorld (c.world.keeping p.world))
  | .interrupt =>
    if c.eflags &&& flagIF = 0 then .ok c
    else
      let answer := c.world.pics.acknowledge
      k.interrupt answer.1 none { c with world := { c.world with pics := answer.2 } }
  | .exception v err => k.interrupt (BitVec.ofNat 8 v) err c

/-- What the code sees of an event. An interrupt writes to `n` bytes below the stack. -/
def ideal (driver : Word → Regs → δ → δ) (n : ℕ) (a : Ideal δ) :
    Event δ → Except (Queue δ) (Ideal δ)
  | .raise l =>
    .ok (a.asking
      (if l = cascadeLine then a.cpu.world.requests else insert l a.cpu.world.requests))
  | .withdraw l => .ok (a.asking (a.cpu.world.requests.erase l))
  | .code f =>
    let p := a.cpu.withWorld a.cpu.world.toVariables
    .ok {
      cpu := (f p).withWorld
        { toVariables := (f p).world, requests := a.cpu.world.requests }
      stale := spoiled f p a.stale }
  | .interrupt =>
    .ok (if a.cpu.eflags &&& flagIF = 0 then a
      else ⟨Queue.interrupt driver a.cpu, a.stale ∪ below a.cpu.esp n⟩)
  | .exception v _ =>
    .error { a.cpu.world with
      screen := a.cpu.world.screen ++
        [exceptionMessages.getD v "", " Exception. System Halted!\n"] }

/-- Nothing but memory depends on stale bytes : not the registers and the variables of the code,
and not what a routine does. -/
def Ideal.Clean (driver : Word → Regs → δ → δ) (a : Ideal δ) : Event δ → Prop
  | .code f =>
    let p := a.cpu.withWorld a.cpu.world.toVariables
    KernelSegments (f p) ∧ (f p).cs = 0x08 ∧ Blind f p a.stale
  | .interrupt =>
    a.cpu.eflags &&& flagIF ≠ 0 → ∀ m, Mem.Frame a.stale a.cpu.mem m →
      (Queue.interrupt driver { a.cpu with mem := m }).world =
        (Queue.interrupt driver a.cpu).world
  | _ => True

/-- A machine that has stopped stays as it is. -/
def orStopped {ε α ι : Type*} (step : α → ι → Except ε α) (s : Except ε α) (i : ι) :
    Except ε α :=
  match s with
  | .error e => .error e
  | .ok a => step a i

/-- A machine that has stopped depends on nothing. -/
def CleanOrStopped (driver : Word → Regs → δ → δ) (s : Except (Queue δ) (Ideal δ))
    (e : Event δ) : Prop :=
  ∀ a, s = .ok a → a.Clean driver e

/-! ## The two side by side -/

/-- The controllers have nothing in service and the vectors of the kernel, and the code is in the
segments of the kernel. -/
structure Ready (c : Cpu (World δ)) : Prop where
  idle : c.world.pics.Idle
  master : c.world.pics.master.base = 0x20
  slave : c.world.pics.slave.base = 0x28
  segments : KernelSegments c
  code : c.cs = 0x08

/-- The processor is the same but for stale bytes, and the controllers are asked for the lines of
the other machine. -/
structure Mirrors (c : Cpu (World δ)) (a : Ideal δ) : Prop where
  same : c = { a.cpu.withWorld c.world with mem := c.mem }
  frame : Mem.Frame a.stale a.cpu.mem c.mem
  queue : c.world.queue = a.cpu.world
  ready : Ready c

/-- Two machines that have stopped show the same on the screen, and everywhere else. -/
def MirrorsOrStopped :
    Except (Stop (World δ)) (Cpu (World δ)) → Except (Queue δ) (Ideal δ) → Prop
  | .ok c, .ok a => Mirrors c a
  | .error (.halted w), .error q => w.queue = q
  | _, _ => False

/-- What the pair has after `irq_remap`, whatever it was before. -/
theorem pics_irqRemap (w : World δ) :
    w.irqRemap.pics.Idle ∧ w.irqRemap.pics.master.base = 0x20 ∧
      w.irqRemap.pics.slave.base = 0x28 ∧ w.irqRemap.pics.requests = ∅ := by
  have hpics : w.irqRemap.pics =
      ⟨{ w.pics.master with
          stage := .ready, cascaded := true, extended := true, base := 0x20, cascade := 4
          mode := 1, requested := ∅, inService := ∅, masked := ∅ },
        { w.pics.slave with
          stage := .ready, cascaded := true, extended := true, base := 0x28, cascade := 2
          mode := 1, requested := ∅, inService := ∅, masked := ∅ }⟩ := by
    rfl
  rw [hpics]
  refine ⟨⟨rfl, rfl, ⟨rfl, rfl⟩, rfl, rfl, rfl, rfl, Finset.notMem_empty _⟩, rfl, rfl, rfl⟩

section Served

variable (driver : Word → Regs → δ → δ) (r : Regs) (w : World δ)

/-- What serving a line does, apart from the controllers. -/
theorem served_eq (l : Fin 16) : w.served driver r l =
    { w with
      devices := (w.queue.call driver r l).devices
      pics := (if 8 ≤ l.val then w.pics.outb 0xA0 0x20 else w.pics).outb 0x20 0x20 } := by
  unfold World.served Queue.call World.queue World.variables
  split_ifs <;> rfl

/-- What `irq_handler` makes of the queue, but for what the controllers are asked for. -/
theorem queue_served (l : Fin 16) : (w.served driver r l).queue =
    Queue.call driver r l { w.queue with requests := (w.served driver r l).pics.requests } := by
  unfold Queue.call World.queue World.variables World.served
  split_ifs <;> rfl

/-- A line in service has been taken out of the queue when its interrupt has ended. -/
theorem pics_served {p : Pics} (hp : p.Idle) {l : Line} (hw : w.pics = p.serving l) :
    (w.served driver r (lineNumber l)).pics = p.withdraw l := by
  rw [served_eq, hw]
  cases l with
  | inl k =>
    have hk : ¬8 ≤ (lineNumber (.inl k)).val := by
      have := k.isLt
      simp only [lineNumber, Sum.elim_inl, Fin.val_castAdd]
      omega
    rw [if_neg hk]
    exact hp.outb_serving_inl k
  | inr k =>
    have hk : 8 ≤ (lineNumber (.inr k)).val := by
      simp only [lineNumber, Sum.elim_inr, Fin.val_natAdd]
      omega
    rw [if_pos hk]
    exact hp.outb_serving_inr k

/-- The end of an interrupt that no line has asked for leaves the controllers as they are. -/
theorem pics_served_none (hp : w.pics.Idle) : (w.served driver r 7).pics = w.pics := by
  rw [served_eq]
  exact hp.outb_end

end Served

/-- The vector of a line. -/
theorem vector_line {p : Pics} (hm : p.master.base = 0x20) (hs : p.slave.base = 0x28) (l : Line) :
    p.vector l = BitVec.ofNat 8 (32 + lineNumber l) := by
  cases l with
  | inl k =>
    show p.master.base + BitVec.ofNat 8 k = BitVec.ofNat 8 (32 + k.val)
    rw [hm, BitVec.ofNat_add]
    rfl
  | inr k =>
    show p.slave.base + BitVec.ofNat 8 k = BitVec.ofNat 8 (32 + (8 + k.val))
    rw [hs, BitVec.ofNat_add, BitVec.ofNat_add]
    bv_omega

/-! ## One interrupt -/

/-- Registers do not depend on the bytes below the stack. -/
theorem regs_eq_of_frame {σ τ : Type*} {n : ℕ} (hn : n + 8 ≤ 2 ^ 32) {c : Cpu σ} {m : Mem}
    (hm : Mem.Frame (below c.esp n) c.mem m) (num err : Word) (w : τ) :
    Regs.interrupted num err ({ c with mem := m } : Cpu σ) =
      Regs.interrupted num err (c.withWorld w) := by
  have hword : ∀ x, block x 4 ⊆ block c.esp 8 → m.load32 x = c.mem.load32 x := by
    intro x hx
    exact load32_eq_of_bytes fun y hy => hm y (notMem_below (by omega) (hx hy))
  have htop : m.load32 c.esp = c.mem.load32 c.esp := hword _ fun y hy => by
    rw [mem_block] at hy ⊢
    omega
  have hnext : m.load32 (c.esp + 4) = c.mem.load32 (c.esp + 4) := hword _ fun y hy => by
    rw [mem_block] at hy ⊢
    bv_omega
  simp only [Regs.interrupted, Cpu.withWorld, htop, hnext]

namespace Ready

variable {k : Kernel δ} {c c' : Cpu (World δ)}

/-- The processor with other memory, and another world of its controllers. -/
theorem of_pics (h : Ready c) (m : Mem) {w : World δ} (hidle : w.pics.Idle)
    (hmaster : w.pics.master.base = 0x20) (hslave : w.pics.slave.base = 0x28) :
    Ready { c with mem := m, world := w } where
  idle := hidle
  master := hmaster
  slave := hslave
  segments := h.segments
  code := h.code

/-- An interrupt that ends with the controllers at `p`. -/
theorem interrupt (h : Ready c) {p q : Pics} {l : Fin 16}
    (hpics : ∀ w : World δ, w.pics = q → ∀ r, (w.served k.driver r l).pics = p) (hp : p.Idle)
    (hmaster : p.master.base = 0x20) (hslave : p.slave.base = 0x28) :
    ∃ m w, Mem.Frame (below c.esp (k.room + 76)) c.mem m ∧
      k.interrupt (BitVec.ofNat 8 (32 + l)) none { c with world := { c.world with pics := q } } =
        .ok { c with mem := m, world := w } ∧
      Ready { c with mem := m, world := w } ∧
      w.queue = (Queue.calling k.driver l p.requests (seen c)).world := by
  obtain ⟨m, hm, hrun⟩ := k.interrupt_line
    (c := { c with world := { c.world with pics := q } }) h.segments l
  rw [Cpu.resume, if_pos (h.code.symm ▸ k.code_env)] at hrun
  have hserved := hpics { c.world with pics := q } rfl
    (Regs.interrupted (BitVec.ofNat 32 (32 + l)) 0 { c with world := { c.world with pics := q } })
  refine ⟨m, _, hm, hrun, h.of_pics m (hserved ▸ hp) (hserved ▸ hmaster) (hserved ▸ hslave), ?_⟩
  rw [queue_served, hserved]
  rfl

/-- What the processor answers to the controllers, and what becomes of it : a call for the first
line that is asked for. -/
theorem event_interrupt (h : Ready c) (hif : c.eflags &&& flagIF ≠ 0) :
    ∃ m w, Mem.Frame (below c.esp (k.room + 76)) c.mem m ∧
      k.event c .interrupt = .ok { c with mem := m, world := w } ∧
      Ready { c with mem := m, world := w } ∧
      w.queue = (Queue.interrupt k.driver (seen c)).world := by
  have hrequests : (seen c).world.requests = c.world.pics.requests := rfl
  rw [Kernel.event, if_neg hif, h.idle.acknowledge_eq, Queue.interrupt, hrequests]
  cases hfirst : Pics.order.find? (· ∈ c.world.pics.requests) with
  | none =>
    have hvector : c.world.pics.vector (.inl 7) = BitVec.ofNat 8 (32 + (7 : Fin 16)) :=
      vector_line h.master h.slave (.inl 7)
    dsimp only
    rw [hvector]
    refine h.interrupt (p := c.world.pics) (fun w hw r => ?_) h.idle h.master h.slave
    rw [pics_served_none k.driver r w (hw ▸ h.idle), hw]
  | some l =>
    dsimp only
    rw [vector_line h.master h.slave, ← Pics.requests_withdraw]
    refine h.interrupt (fun w hw r => ?_) (h.idle.withdraw l) ?_ ?_
    · exact pics_served k.driver r w h.idle hw
    · cases l <;> exact h.master
    · cases l <;> exact h.slave

/-- A request at a controller leaves the kernel ready. -/
theorem raise (h : Ready c) (l : Line) :
    Ready { c with world := { c.world with pics := c.world.pics.raise l } } :=
  h.of_pics c.mem (h.idle.raise l) ((c.world.pics.base_raise l).1.trans h.master)
    ((c.world.pics.base_raise l).2.trans h.slave)

theorem withdraw (h : Ready c) (l : Line) :
    Ready { c with world := { c.world with pics := c.world.pics.withdraw l } } :=
  h.of_pics c.mem (h.idle.withdraw l) (by cases l <;> exact h.master)
    (by cases l <;> exact h.slave)

/-- Code that stays in its segments leaves the controllers alone. -/
theorem keeping (h : Ready c) {p : Cpu (Variables δ)} (hseg : KernelSegments p)
    (hcs : p.cs = 0x08) : Ready (p.withWorld (c.world.keeping p.world)) where
  idle := h.idle
  master := h.master
  slave := h.slave
  segments := hseg
  code := hcs

/-- Every event after which the kernel goes on leaves it ready for the next interrupt. -/
theorem event (h : Ready c) {e : Event δ} (he : e.KeepsSegments) (hc' : k.event c e = .ok c') :
    Ready c' := by
  cases e with
  | raise l => exact Except.ok.inj hc' ▸ h.raise l
  | withdraw l => exact Except.ok.inj hc' ▸ h.withdraw l
  | code f =>
    obtain ⟨hseg, hcs⟩ := he (c.withWorld c.world.variables) h.segments h.code
    exact Except.ok.inj hc' ▸ h.keeping hseg hcs
  | interrupt =>
    by_cases hif : c.eflags &&& flagIF = 0
    · rw [Kernel.event, if_pos hif] at hc'
      exact Except.ok.inj hc' ▸ h
    · obtain ⟨m, w, -, hrun, hready, -⟩ := h.event_interrupt (k := k) hif
      exact Except.ok.inj (hrun.symm.trans hc') ▸ hready
  | exception v err =>
    rw [Kernel.event, k.interrupt_exception] at hc'
    cases hc'

end Ready

/-- Along a run that keeps the segments the kernel stays ready. -/
theorem Ready.of_run {k : Kernel δ} {c d : Cpu (World δ)} (h : Ready c) {es : List (Event δ)}
    (hes : ∀ e ∈ es, e.KeepsSegments) (hd : run (orStopped k.event) (.ok c) es = .ok d) :
    Ready d := by
  have hmeets : Meets (orStopped k.event) (fun _ e => e.KeepsSegments) (.ok c) es :=
    meets_of_forall es hes _
  refine hmeets.invariant (I := fun s => ∀ c, s = .ok c → Ready c) (fun s e hs he c' hc' => ?_)
    (fun c' hc' => Except.ok.inj hc' ▸ h) d hd
  cases s with
  | error stop => cases hc'
  | ok c => exact (hs c rfl).event he hc'

/-- The kernel is ready after `irq_remap`. -/
theorem ready_irqRemap {c : Cpu (World δ)} (hseg : KernelSegments c) (hcs : c.cs = 0x08) :
    Ready (c.withWorld c.world.irqRemap) where
  idle := (pics_irqRemap c.world).1
  master := (pics_irqRemap c.world).2.1
  slave := (pics_irqRemap c.world).2.2.1
  segments := hseg
  code := hcs

/-! ## Runs of both -/

/-- An interrupt leaves the processor that the code sees as it is. -/
theorem Queue.interrupt_eq (driver : Word → Regs → δ → δ) (a : Cpu (Queue δ)) :
    Queue.interrupt driver a = { a with world := (Queue.interrupt driver a).world } := by
  rw [Queue.interrupt]
  split <;> rfl

namespace Mirrors

variable {k : Kernel δ} {c : Cpu (World δ)} {a : Ideal δ}

theorem eflags_eq (h : Mirrors c a) : c.eflags = a.cpu.eflags := by
  rw [h.same]
  rfl

theorem esp_eq (h : Mirrors c a) : c.esp = a.cpu.esp := by
  rw [h.same]
  rfl

/-- The requests are those of the controllers. -/
theorem requests_eq (h : Mirrors c a) : a.cpu.world.requests = c.world.pics.requests :=
  congrArg Queue.requests h.queue.symm

/-- The code sees its machine, but for stale bytes. -/
theorem seen_eq (h : Mirrors c a) : seen c = { a.cpu with mem := c.mem } := by
  rw [seen, h.queue, h.same]
  rfl

/-- Other requests, of both. -/
theorem asking (h : Mirrors c a) {p : Pics} {R : Finset Line} (hR : p.requests = R)
    (hready : Ready { c with world := { c.world with pics := p } }) :
    Mirrors { c with world := { c.world with pics := p } } (a.asking R) where
  same := by
    rw [h.same]
    rfl
  frame := h.frame
  queue := by
    rw [Ideal.asking, ← h.queue, ← hR]
    rfl
  ready := hready

/-- One step of the code. -/
theorem code (h : Mirrors c a) {f : Cpu (Variables δ) → Cpu (Variables δ)}
    (hf : a.Clean k.driver (.code f)) :
    MirrorsOrStopped (k.event c (.code f)) (ideal k.driver (k.room + 76) a (.code f)) := by
  obtain ⟨hseg, hcs, hblind⟩ := hf
  have hstart : c.withWorld c.world.variables =
      { a.cpu.withWorld a.cpu.world.toVariables with mem := c.mem } := by
    have hvariables : c.world.variables = a.cpu.world.toVariables :=
      congrArg Queue.toVariables h.queue
    rw [hvariables, h.same]
    rfl
  have hend := hblind c.mem h.frame
  have hframe := frame_spoiled (f := f) (c := a.cpu.withWorld a.cpu.world.toVariables) h.frame
  rw [← hstart] at hend hframe
  have hseg' : KernelSegments (f (c.withWorld c.world.variables)) := by
    rw [hend]
    exact hseg
  have hcs' : (f (c.withWorld c.world.variables)).cs = 0x08 := by
    rw [hend]
    exact hcs
  refine Mirrors.mk ?_ hframe ?_ (h.ready.keeping hseg' hcs')
  · rw [Cpu.withWorld, hend]
    rfl
  · have hworld : (f (c.withWorld c.world.variables)).world =
        (f (a.cpu.withWorld a.cpu.world.toVariables)).world := by
      rw [hend]
    rw [hworld, h.requests_eq]
    rfl

/-- One event. -/
theorem event (h : Mirrors c a) {e : Event δ} (he : a.Clean k.driver e) :
    MirrorsOrStopped (k.event c e) (ideal k.driver (k.room + 76) a e) := by
  cases e with
  | raise l =>
    refine h.asking ?_ (h.ready.raise l)
    by_cases hl : l = cascadeLine
    · rw [if_pos hl, hl, cascadeLine, Pics.raise_two, h.requests_eq]
    · rw [if_neg hl, h.requests_eq, Pics.requests_raise _ hl]
  | withdraw l =>
    refine h.asking ?_ (h.ready.withdraw l)
    rw [h.requests_eq, Pics.requests_withdraw]
  | code f => exact h.code he
  | interrupt =>
    by_cases hif : c.eflags &&& flagIF = 0
    · have hif' : a.cpu.eflags &&& flagIF = 0 := h.eflags_eq ▸ hif
      rw [Kernel.event, ideal, if_pos hif, if_pos hif']
      exact h
    · have hif' : ¬a.cpu.eflags &&& flagIF = 0 := h.eflags_eq ▸ hif
      obtain ⟨m, w, hm, hrun, hready, hqueue⟩ := h.ready.event_interrupt (k := k) hif
      rw [hrun, ideal, if_neg hif', Queue.interrupt_eq]
      rw [h.esp_eq] at hm
      refine Mirrors.mk ?_ ?_ ?_ hready
      · rw [h.same]
        rfl
      · exact (h.frame.mono Set.subset_union_left).trans (hm.mono Set.subset_union_right)
      · rw [hqueue, h.seen_eq]
        exact he hif' c.mem h.frame
  | exception v err =>
    rw [Kernel.event, k.interrupt_exception, ideal, ← h.queue]
    show World.queue _ = _
    rw [World.puts, World.puts, List.append_assoc]
    rfl

end Mirrors

/-- One event of both, stopped or not. -/
theorem MirrorsOrStopped.event {k : Kernel δ} {s : Except (Stop (World δ)) (Cpu (World δ))}
    {t : Except (Queue δ) (Ideal δ)} (h : MirrorsOrStopped s t) {e : Event δ}
    (he : CleanOrStopped k.driver t e) :
    MirrorsOrStopped (orStopped k.event s e)
      (orStopped (ideal k.driver (k.room + 76)) t e) := by
  cases s with
  | ok c =>
    cases t with
    | ok a => exact Mirrors.event h (he a rfl)
    | error q => exact absurd h id
  | error stop =>
    cases t with
    | ok a => cases stop <;> exact absurd h id
    | error q => exact h

/-- The machine that the code sees when `irq_remap` has run. No byte is stale. -/
def Ideal.start (c : Cpu (World δ)) : Ideal δ :=
  ⟨c.withWorld c.world.irqRemap.queue, ∅⟩

/-- Both machines after `irq_remap`. -/
theorem mirrors_irqRemap {c : Cpu (World δ)} (hseg : KernelSegments c) (hcs : c.cs = 0x08) :
    Mirrors (c.withWorld c.world.irqRemap) (Ideal.start c) :=
  Mirrors.mk rfl (Mem.Frame.refl _ _) rfl (ready_irqRemap hseg hcs)

/-- Every clean run of the kernel from `irq_remap` on mirrors the run of the machine that the code
sees. -/
theorem mirrors_ideal (k : Kernel δ) {c : Cpu (World δ)} (hseg : KernelSegments c)
    (hcs : c.cs = 0x08) (es : List (Event δ))
    (hes : Meets (orStopped (ideal k.driver (k.room + 76))) (CleanOrStopped k.driver)
      (.ok (Ideal.start c)) es) :
    MirrorsOrStopped
      (run (orStopped k.event) (.ok (c.withWorld c.world.irqRemap)) es)
      (run (orStopped (ideal k.driver (k.room + 76))) (.ok (Ideal.start c)) es) := by
  have hstart : MirrorsOrStopped (.ok (c.withWorld c.world.irqRemap)) (.ok (Ideal.start c)) :=
    mirrors_irqRemap hseg hcs
  exact hes.related (fun _ _ _ h he => h.event he) hstart

/-- An interrupt, or none while the flag is clear, leaves the processor that the code sees. -/
theorem ideal_interrupt (driver : Word → Regs → δ → δ) (n : ℕ) (a : Ideal δ) :
    ∃ w S, S ⊆ a.stale ∪ below a.cpu.esp n ∧
      ideal driver n a .interrupt = .ok ⟨{ a.cpu with world := w }, S⟩ := by
  rw [ideal]
  split_ifs with hif
  · exact ⟨a.cpu.world, a.stale, Set.subset_union_left, rfl⟩
  · rw [Queue.interrupt_eq]
    exact ⟨_, _, Set.Subset.rfl, rfl⟩

/-- Routines that do not look at the registers do not depend on stale bytes. -/
theorem clean_interrupt {driver : Word → Regs → δ → δ}
    (hdriver : ∀ handler r r' d, driver handler r d = driver handler r' d) (a : Ideal δ) :
    a.Clean driver .interrupt := by
  intro _ m _
  have hcall : ∀ (r r' : Regs) (l : Fin 16) (q : Queue δ),
      Queue.call driver r l q = Queue.call driver r' l q := by
    intro r r' l q
    rw [Queue.call, hdriver _ r r']
    rfl
  rw [Queue.interrupt, Queue.interrupt]
  dsimp only
  cases Pics.order.find? (· ∈ a.cpu.world.requests) with
  | none => exact hcall _ _ _ _
  | some l => exact hcall _ _ _ _

/-- The code is in the segments of the kernel, its stack ends at `esp`, and only bytes in `S` are
stale. -/
structure Ideal.Within (a : Ideal δ) (esp : Word) (S : Set Word) : Prop where
  segments : KernelSegments a.cpu
  code : a.cpu.cs = 0x08
  esp : a.cpu.esp = esp
  stale : a.stale ⊆ S

/-- The events `es` are clean from `s` on. -/
abbrev MeetsClean (driver : Word → Regs → δ → δ) (n : ℕ) (s : Except (Queue δ) (Ideal δ))
    (es : List (Event δ)) : Prop :=
  Meets (orStopped (ideal driver n)) (CleanOrStopped driver) s es

namespace Ideal.Within

variable {driver : Word → Regs → δ → δ} {n : ℕ} {a : Ideal δ} {es : List (Event δ)}
  {esp : Word} {S : Set Word}

/-- A clean step of the code in front of a clean run. -/
theorem code_cons {f : Cpu (Variables δ) → Cpu (Variables δ)}
    (hf : a.Clean driver (.code f))
    (hes : MeetsClean driver n (ideal driver n a (.code f)) es) :
    MeetsClean driver n (.ok a) (.code f :: es) :=
  ⟨fun _ ha => Except.ok.inj ha ▸ hf, hes⟩

/-- A request may come at any time. -/
theorem raise (h : a.Within esp S) (l : Line)
    (hes : ∀ b : Ideal δ, b.Within esp S → MeetsClean driver n (.ok b) es) :
    MeetsClean driver n (.ok a) (.raise l :: es) :=
  ⟨fun _ _ => trivial, hes _ ⟨h.segments, h.code, h.esp, h.stale⟩⟩

/-- An interrupt spoils the bytes below the stack. -/
theorem interrupt (h : a.Within esp S)
    (hdriver : ∀ handler r r' d, driver handler r d = driver handler r' d)
    (hes : ∀ b : Ideal δ, b.Within esp (S ∪ below esp n) → MeetsClean driver n (.ok b) es) :
    MeetsClean driver n (.ok a) (.interrupt :: es) := by
  obtain ⟨w, T, hT, hstep⟩ := ideal_interrupt driver n a
  refine ⟨fun b _ => clean_interrupt hdriver b, ?_⟩
  rw [orStopped, hstep]
  refine hes _ ⟨h.segments, h.code, h.esp, hT.trans ?_⟩
  rw [h.esp]
  exact Set.union_subset_union_left _ h.stale

/-- What is pushed is not stale. -/
theorem push (h : a.Within esp S) (r : Reg)
    (hes : ∀ b : Ideal δ, b.Within (esp - 4) (S \ block (esp - 4) 4) →
      MeetsClean driver n (.ok b) es) :
    MeetsClean driver n (.ok a) (.code (fun c => c.push (c.gpr r)) :: es) := by
  refine code_cons ⟨h.segments, h.code, blind_push r _ _⟩ (hes _ ⟨h.segments, h.code, ?_, ?_⟩)
  · exact congrArg (· - 4) h.esp
  · refine (spoiled_push r _ _).trans ?_
    rw [← h.esp]
    exact Set.sdiff_subset_sdiff_left h.stale

/-- The top of the stack may be moved anywhere. -/
theorem drop (h : a.Within esp S) (m : Word)
    (hes : ∀ b : Ideal δ, b.Within (esp + m) S → MeetsClean driver n (.ok b) es) :
    MeetsClean driver n (.ok a) (.code (fun c => c.drop m) :: es) := by
  refine code_cons ⟨h.segments, h.code, blind_drop m _ _⟩ (hes _ ⟨h.segments, h.code, ?_, ?_⟩)
  · exact congrArg (· + m) h.esp
  · exact (spoiled_drop m _ _).trans h.stale

/-- A word may be taken from the stack if none of its bytes is stale. -/
theorem popReg (h : a.Within esp S) (r : Reg) (hS : ∀ x ∈ block esp 4, x ∉ S)
    (hes : ∀ b : Ideal δ, b.Within (esp + 4) S → MeetsClean driver n (.ok b) es) :
    MeetsClean driver n (.ok a) (.code (fun c => c.popReg r) :: es) := by
  have htop : ∀ x ∈ block a.cpu.esp 4, x ∉ a.stale := fun x hx hxS =>
    hS x (h.esp ▸ hx) (h.stale hxS)
  refine code_cons ⟨h.segments, h.code, blind_popReg r htop⟩ (hes _ ⟨h.segments, h.code, ?_, ?_⟩)
  · exact congrArg (· + 4) h.esp
  · exact (spoiled_popReg r _ _).trans h.stale

end Ideal.Within

/-- Around an interrupt the code pushes a register and takes it back, and in between there is
another interrupt, when the code has made room on the stack. Then there is an exception with an
error code. -/
def pushingRun (r : Reg) (l : Line) (v : Fin 32) : List (Event δ) :=
  [.code fun c => c.push (c.gpr r), .raise l, .interrupt, .code fun c => c.drop (-8), .interrupt,
    .code fun c => c.drop 8, .code fun c => c.popReg r, .exception v (some 0)]

/-- The bytes of the interrupts lie below the register that is pushed. -/
theorem clean_pushingRun {driver : Word → Regs → δ → δ}
    (hdriver : ∀ handler r r' d, driver handler r d = driver handler r' d) {n : ℕ}
    (hn : n + 12 ≤ 2 ^ 32) {a : Ideal δ} {esp : Word} (h : a.Within esp ∅) (r : Reg) (l : Line)
    (v : Fin 32) : MeetsClean driver n (.ok a) (pushingRun r l v) := by
  refine h.push r fun b hb => hb.raise l fun b hb => hb.interrupt hdriver fun b hb => ?_
  refine hb.drop (-8) fun b hb => hb.interrupt hdriver fun b hb => hb.drop 8 fun b hb => ?_
  refine hb.popReg r (fun x hx hxS => ?_) fun b hb => ⟨fun _ _ => trivial, trivial⟩
  have hesp : esp - 4 + -8 + 8 = esp - 4 := by bv_omega
  rw [hesp] at hx
  rcases hxS with (⟨hxS, -⟩ | hxS) | hxS
  · exact hxS
  · exact notMem_below (by omega) hx hxS
  · have hplace : esp - 4 + -8 = esp - 4 - BitVec.ofNat 32 8 := by bv_omega
    rw [hplace] at hxS
    have hbelow : x ∈ below (esp - 4) (n + 8) := below_subset (by omega) (by omega) hxS
    exact notMem_below (by omega) hx hbelow

theorem mirrors_ideal_timer :
    (KernelSegments Kernel.timerCpu ∧ Kernel.timerCpu.cs = 0x08 ∧
      Meets (orStopped (ideal Kernel.timer.driver (Kernel.timer.room + 76)))
        (CleanOrStopped Kernel.timer.driver) (.ok (Ideal.start Kernel.timerCpu))
        (pushingRun .ebx (.inl 0) 17)) ∧
      MirrorsOrStopped
        (run (orStopped Kernel.timer.event)
          (.ok (Kernel.timerCpu.withWorld Kernel.timerCpu.world.irqRemap))
          (pushingRun .ebx (.inl 0) 17))
        (run (orStopped (ideal Kernel.timer.driver (Kernel.timer.room + 76)))
          (.ok (Ideal.start Kernel.timerCpu)) (pushingRun .ebx (.inl 0) 17)) := by
  have hstart : (Ideal.start Kernel.timerCpu).Within Kernel.timerCpu.esp ∅ :=
    ⟨Kernel.segments_timerCpu, rfl, rfl, Set.Subset.rfl⟩
  have hdriver : ∀ handler r r' ticks, Kernel.timer.driver handler r ticks =
      Kernel.timer.driver handler r' ticks := fun _ _ _ _ => rfl
  have hes := clean_pushingRun (n := Kernel.timer.room + 76) hdriver (by decide) hstart .ebx
    (.inl 0) 17
  exact ⟨⟨Kernel.segments_timerCpu, rfl, hes⟩,
    mirrors_ideal Kernel.timer Kernel.segments_timerCpu rfl _ hes⟩

/-! ## Every request is served -/

section Service

variable (driver : Word → Regs → δ → δ)

/-- The devices after the routine of each of some lines, where one is installed. -/
def calls {σ : Type*} (irqRoutines : Fin 16 → Word) (c : Cpu σ) (ls : List Line) (d : δ) : δ :=
  ls.foldl (fun d l =>
    let r := Regs.interrupted (BitVec.ofNat 32 (32 + lineNumber l)) 0 c
    if irqRoutines (lineNumber l) ≠ 0 then driver (irqRoutines (lineNumber l)) r d else d) d

/-- A call empties the queue of its request and runs the routine. -/
theorem calling_eq (a : Cpu (Queue δ)) (l : Line) (R : Finset Line) :
    Queue.calling driver (lineNumber l) R a = a.withWorld { a.world with
      requests := R
      devices := calls driver a.world.irqRoutines a [l] a.world.devices } := by
  unfold Queue.calling Queue.call
  dsimp only [calls, List.foldl_cons, List.foldl_nil]
  split_ifs <;> rfl

/-- Every line but that of the slave has its place in the order. -/
theorem mem_order {l : Line} (hl : l ≠ .inl 2) : l ∈ Pics.order := by
  have hmaster : ∀ k : Fin 8, k ≠ 2 → k ∈ [0, 1] ∨ k ∈ [3, 4, 5, 6, 7] := by decide
  rw [Pics.order, List.mem_append, List.mem_append]
  cases l with
  | inl k =>
    obtain hk | hk := hmaster k fun htwo => hl (htwo ▸ rfl)
    · exact Or.inl (Or.inl (List.mem_map_of_mem hk))
    · exact Or.inr (List.mem_map_of_mem hk)
  | inr k => exact Or.inl (Or.inr (List.mem_map_of_mem (List.mem_finRange k)))

theorem nodup_order : Pics.order.Nodup := by
  decide

/-- The first line in the order of the controllers, and those behind it. -/
theorem filter_erase {R : Finset Line} {l : Line} {ls : List Line}
    (h : Pics.order.filter (· ∈ R) = l :: ls) :
    Pics.order.find? (· ∈ R) = some l ∧ Pics.order.filter (· ∈ R.erase l) = ls := by
  have hnodup : (l :: ls).Nodup := h ▸ nodup_order.filter _
  have hne : ∀ m ∈ ls, m ≠ l := fun m hm hml => (List.nodup_cons.1 hnodup).1 (hml ▸ hm)
  constructor
  · rw [← List.head?_filter, h]
    rfl
  · have hsplit : Pics.order.filter (· ∈ R.erase l) =
        (Pics.order.filter (· ∈ R)).filter (· ≠ l) := by
      rw [List.filter_filter]
      refine List.filter_congr fun m _ => ?_
      rw [← Bool.decide_and, decide_eq_decide, Finset.mem_erase]
    rw [hsplit, h, List.filter_cons_of_neg (by simp)]
    exact List.filter_eq_self.2 fun m hm => decide_eq_true (hne m hm)

/-- As many interrupts as there are lines asked for serve these lines, in the order of the
controllers, each of them once. -/
theorem Ready.run_interrupts (k : Kernel δ) {c : Cpu (World δ)} (h : Ready c)
    (hif : c.eflags &&& flagIF ≠ 0) {ls : List Line}
    (hls : Pics.order.filter (· ∈ c.world.pics.requests) = ls) :
    ∃ m w, Mem.Frame (below c.esp (k.room + 76)) c.mem m ∧
      run (orStopped k.event) (.ok c) (List.replicate ls.length .interrupt) =
        .ok { c with mem := m, world := w } ∧
      w.queue = { c.world.queue with
        requests := ∅
        devices := calls k.driver c.world.irqRoutines c ls c.world.devices } := by
  induction ls generalizing c with
  | nil =>
    have hfree : .inl 2 ∉ c.world.pics.requests := by
      rw [Pics.requests, Finset.inl_mem_disjSum]
      exact Finset.notMem_erase 2 _
    have hnone : c.world.pics.requests = ∅ := by
      refine Finset.eq_empty_of_forall_notMem fun l hl => ?_
      have hmem := mem_order fun htwo => hfree (htwo ▸ hl)
      exact absurd (decide_eq_true hl) (List.filter_eq_nil_iff.1 hls l hmem)
    refine ⟨c.mem, c.world, Mem.Frame.refl _ _, rfl, ?_⟩
    rw [calls, List.foldl_nil, ← hnone]
    rfl
  | cons l ls ih =>
    obtain ⟨hfirst, hrest⟩ := filter_erase hls
    obtain ⟨m, w, hm, hstep, hready, hqueue⟩ := h.event_interrupt (k := k) hif
    have hcalled : Queue.interrupt k.driver (seen c) =
        Queue.calling k.driver (lineNumber l) (c.world.pics.requests.erase l) (seen c) := by
      rw [Queue.interrupt, show (seen c).world.requests = c.world.pics.requests from rfl, hfirst]
    rw [hcalled, calling_eq] at hqueue
    have hrequests : w.pics.requests = c.world.pics.requests.erase l :=
      congrArg Queue.requests hqueue
    obtain ⟨m', w', hm', hrun, hqueue'⟩ := ih hready hif (hrequests.symm ▸ hrest)
    refine ⟨m', w', hm.trans hm', ?_, hqueue'.trans ?_⟩
    · rw [List.length_cons, List.replicate_succ, GuardedRun.run_cons, orStopped, hstep]
      exact hrun
    · -- The calls that are left find the registers that the first one has found.
      have hroom := k.room_le
      have hregs : ∀ num err, Regs.interrupted num err ({ c with mem := m, world := w } :
          Cpu (World δ)) = Regs.interrupted num err c := fun num err =>
        regs_eq_of_frame (by omega) hm num err c.world
      have hvariables : w.irqRoutines = c.world.irqRoutines ∧ w.screen = c.world.screen ∧
          w.devices = calls k.driver c.world.irqRoutines (seen c) [l] c.world.devices :=
        ⟨congrArg (fun q => q.irqRoutines) hqueue, congrArg (fun q => q.screen) hqueue,
          congrArg (fun q => q.devices) hqueue⟩
      have hcalls : calls k.driver w.irqRoutines { c with mem := m, world := w } ls w.devices =
          calls k.driver c.world.irqRoutines c (l :: ls) c.world.devices := by
        rw [hvariables.1, hvariables.2.2]
        simp only [calls, hregs]
        rfl
      show Queue.mk ⟨w.irqRoutines, w.screen, calls k.driver w.irqRoutines
        { c with mem := m, world := w } ls w.devices⟩ ∅ = _
      rw [hcalls, hvariables.1, hvariables.2.1]
      rfl

/-- Whatever has happened since `irq_remap` : as soon as the interrupt flag is set, as many
interrupts as there are lines asked for call the routine of each of these lines once, in the
order of the controllers, with the registers of the code that is interrupted. Then no line is
asked for, and the code goes on as if nothing had happened but for what lies below its stack. -/
theorem serves_all (k : Kernel δ) {c d : Cpu (World δ)} (hseg : KernelSegments c)
    (hcs : c.cs = 0x08) {es : List (Event δ)} (hes : ∀ e ∈ es, e.KeepsSegments)
    (hd : run (orStopped k.event) (.ok (c.withWorld c.world.irqRemap)) es = .ok d)
    (hif : d.eflags &&& flagIF ≠ 0) {ls : List Line}
    (hls : Pics.order.filter (· ∈ d.world.pics.requests) = ls) :
    ∃ m w, Mem.Frame (below d.esp (k.room + 76)) d.mem m ∧
      run (orStopped k.event) (.ok d) (List.replicate ls.length .interrupt) =
        .ok { d with mem := m, world := w } ∧
      w.queue = { d.world.queue with
        requests := ∅
        devices := calls k.driver d.world.irqRoutines d ls d.world.devices } :=
  ((ready_irqRemap hseg hcs).of_run hes hd).run_interrupts k hif hls

/-- The processor with two requests, when the code has pushed a register. -/
def requestedCpu (l l' : Line) : Cpu (World Word) :=
  (Kernel.timerCpu.withWorld { Kernel.timerCpu.world.irqRemap with
    pics := (Kernel.timerCpu.world.irqRemap.pics.raise l).raise l' }).push 0

/-- Two requests of the timer kernel, in the order of the controllers. -/
theorem serves_all_timer :
    (run (orStopped Kernel.timer.event)
        (.ok (Kernel.timerCpu.withWorld Kernel.timerCpu.world.irqRemap))
        [.raise (.inr 6), .code fun c => c.push (c.gpr .eax), .raise (.inl 0)] =
          .ok (requestedCpu (.inr 6) (.inl 0)) ∧
      (requestedCpu (.inr 6) (.inl 0)).eflags &&& flagIF ≠ 0) ∧
      ∃ m w, Mem.Frame (below (requestedCpu (.inr 6) (.inl 0)).esp (Kernel.timer.room + 76))
          (requestedCpu (.inr 6) (.inl 0)).mem m ∧
        run (orStopped Kernel.timer.event) (.ok (requestedCpu (.inr 6) (.inl 0)))
            (List.replicate 2 .interrupt) =
          .ok { requestedCpu (.inr 6) (.inl 0) with mem := m, world := w } ∧
        w.queue = { (requestedCpu (.inr 6) (.inl 0)).world.queue with
          requests := ∅
          devices := calls Kernel.timer.driver (requestedCpu (.inr 6) (.inl 0)).world.irqRoutines
            (requestedCpu (.inr 6) (.inl 0)) [.inl 0, .inr 6]
            (requestedCpu (.inr 6) (.inl 0)).world.devices } := by
  have hes : ∀ e ∈ [Event.raise (δ := Word) (.inr 6), .code fun c => c.push (c.gpr .eax),
      .raise (.inl 0)], e.KeepsSegments := by
    simp only [List.forall_mem_cons]
    exact ⟨trivial, fun _ hseg hcs => ⟨hseg, hcs⟩, trivial, List.forall_mem_nil _⟩
  have hls : Pics.order.filter (· ∈ (requestedCpu (.inr 6) (.inl 0)).world.pics.requests) =
      [.inl 0, .inr 6] := by
    decide
  exact ⟨⟨rfl, by decide⟩, serves_all Kernel.timer Kernel.segments_timerCpu rfl hes rfl
    (by decide) hls⟩

end Service

end Scorch
