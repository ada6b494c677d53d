import Mathlib.Data.Finset.Sum
import Mathlib.Data.Fintype.Basic
import Mathlib.Data.List.Find
import Mathlib.Data.List.FinRange
import Scorch.Lib.ByteMemory

/-!
# A pair of 8259 interrupt controllers

Two controllers of eight lines, the second of them on line 2 of the first. A controller keeps
the lines that are requested, those in service and those that are masked. It is set up by four
words, one after another, and then takes the end of an interrupt for the line in service that
comes first. `acknowledge` is the answer to the processor : the vector of the first line that is
requested, which is in service from then on, or, with none left, the last vector of the
controller.

While nothing is in service (`Pics.Idle`), the pair is one queue of fifteen lines in the order
`Pics.order` (`acknowledge_eq`), and an interrupt that is acknowledged and ended takes its line
out of the queue and leaves the rest (`outb_serving_inl`, `outb_serving_inr`, `outb_end`).
-/

open ByteMemory

namespace Pic8259

/-! ## One controller -/

/-- The word of the initialization that is due. -/
inductive Stage where
  | ready
  | icw2
  | icw3
  | icw4
deriving DecidableEq

/-- An interrupt controller. -/
structure Pic where
  stage : Stage
  /-- The last two words of the initialization are sent. -/
  cascaded : Bool
  extended : Bool
  base : Byte
  cascade : Byte
  mode : Byte
  requested : Finset (Fin 8)
  inService : Finset (Fin 8)
  masked : Finset (Fin 8)
deriving DecidableEq

namespace Pic

variable (p : Pic)

/-- The line in service that comes first is done. -/
def endOfInterrupt : Pic :=
  match (List.finRange 8).find? (· ∈ p.inService) with
  | none => p
  | some k => { p with inService := p.inService.erase k }

/-- A byte to the first port : the start of the initialization, or a command. -/
def command (d : Byte) : Pic :=
  if d.getLsbD 4 then
    { p with
      stage := .icw2
      cascaded := !d.getLsbD 1
      extended := d.getLsbD 0
      requested := ∅
      inService := ∅
      masked := ∅ }
  else if d.getLsbD 3 = false ∧ d >>> 5 = 1 then p.endOfInterrupt
  else p

/-- What is due behind the third word. -/
def afterCascade : Stage :=
  if p.extended then .icw4 else .ready

/-- A byte to the second port : the next word of the initialization, or the mask. -/
def data (d : Byte) : Pic :=
  match p.stage with
  | .icw2 =>
    { p with
      base := d &&& 0xF8
      stage := if p.cascaded then .icw3 else p.afterCascade }
  | .icw3 => { p with cascade := d, stage := p.afterCascade }
  | .icw4 => { p with mode := d, stage := .ready }
  | .ready => { p with masked := Finset.univ.filter fun k => d.getLsbD k }

/-- The first line of `lines` that is not masked and comes before every line in service. -/
def first (lines : Finset (Fin 8)) : Option (Fin 8) :=
  (List.finRange 8).find? fun k => k ∈ lines ∧ k ∉ p.masked ∧ ∀ j ∈ p.inService, k < j

/-- A line goes from requested to in service. -/
def serve (k : Fin 8) : Pic :=
  { p with requested := p.requested.erase k, inService := insert k p.inService }

/-- The vector of a line. -/
def vector (k : Fin 8) : Byte :=
  p.base + BitVec.ofNat 8 k

end Pic

/-! ## Two of them -/

/-- A pair : the slave is at line `2` of the master. -/
structure Pics where
  master : Pic
  slave : Pic
deriving DecidableEq

/-- A line of the one or of the other. -/
abbrev Line := Fin 8 ⊕ Fin 8

/-- The line of the master where the slave sits. -/
def cascadeLine : Line := .inl 2

namespace Pics

variable (p : Pics)

/-- A byte to a port of the processor. -/
def outb (port : BitVec 16) (d : Byte) : Pics :=
  if port = 0x20 then { p with master := p.master.command d }
  else if port = 0x21 then { p with master := p.master.data d }
  else if port = 0xA0 then { p with slave := p.slave.command d }
  else if port = 0xA1 then { p with slave := p.slave.data d }
  else p

/-- The first line that the slave asks for, if the two controllers know of each other. -/
def slaveFirst : Option (Fin 8) :=
  if p.master.cascade = 4 ∧ p.slave.cascade = 2 then p.slave.first p.slave.requested else none

/-- The lines the master sees. The slave sits on line 2. -/
def masterLines : Finset (Fin 8) :=
  if p.slaveFirst.isSome then insert 2 p.master.requested else p.master.requested.erase 2

/-- The processor takes an interrupt : its vector, and the pair behind it. -/
def acknowledge : Byte × Pics :=
  match p.master.first p.masterLines with
  | none => (p.master.vector 7, p)
  | some k =>
    if k = 2 then
      match p.slaveFirst with
      | none => (p.slave.vector 7, { p with master := p.master.serve 2 })
      | some j => (p.slave.vector j, ⟨p.master.serve 2, p.slave.serve j⟩)
    else (p.master.vector k, { p with master := p.master.serve k })

/-! ## Lines of the pair -/

/-- A device asks for a line. No device sits on line 2 of the master. -/
def raise : Line → Pics
  | .inl k =>
    if k = 2 then p
    else { p with master := { p.master with requested := insert k p.master.requested } }
  | .inr k => { p with slave := { p.slave with requested := insert k p.slave.requested } }

theorem raise_inl {k : Fin 8} (hk : k ≠ 2) : p.raise (.inl k) =
    { p with master := { p.master with requested := insert k p.master.requested } } :=
  if_neg hk

/-- Nothing is connected to the line of the slave but the slave. -/
theorem raise_two : p.raise (.inl 2) = p := by
  rw [raise, if_pos rfl]

/-- A request does not change the vectors. -/
theorem base_raise (l : Line) :
    (p.raise l).master.base = p.master.base ∧ (p.raise l).slave.base = p.slave.base := by
  cases l with
  | inl k =>
    by_cases hk : k = 2
    · rw [hk, raise_two]
      exact ⟨rfl, rfl⟩
    · rw [raise_inl p hk]
      exact ⟨rfl, rfl⟩
  | inr k => exact ⟨rfl, rfl⟩

/-- A device no longer asks for a line. -/
def withdraw : Line → Pics
  | .inl k => { p with master := { p.master with requested := p.master.requested.erase k } }
  | .inr k => { p with slave := { p.slave with requested := p.slave.requested.erase k } }

/-- The lines that are requested. -/
def requests : Finset Line :=
  (p.master.requested.erase 2).disjSum p.slave.requested

/-- The lines, the first served first. -/
def order : List Line :=
  [0, 1].map .inl ++ (List.finRange 8).map .inr ++ [3, 4, 5, 6, 7].map .inl

/-- The vector of a line. -/
def vector : Line → Byte
  | .inl k => p.master.vector k
  | .inr k => p.slave.vector k

/-- A line in service, with line 2 of the master for a line of the slave. -/
def serving : Line → Pics
  | .inl k => { p with master := p.master.serve k }
  | .inr k => ⟨p.master.serve 2, p.slave.serve k⟩

/-- The pair is set up, nothing is masked and nothing in service. -/
structure Idle (p : Pics) : Prop where
  masterReady : p.master.stage = .ready
  slaveReady : p.slave.stage = .ready
  linked : p.master.cascade = 4 ∧ p.slave.cascade = 2
  masterMasked : p.master.masked = ∅
  slaveMasked : p.slave.masked = ∅
  masterService : p.master.inService = ∅
  slaveService : p.slave.inService = ∅
  cascadeFree : 2 ∉ p.master.requested

end Pics

/-! ## The pair as a queue -/

/-- With nothing masked and nothing in service, the lowest line comes first. -/
theorem Pic.first_of_empty {p : Pic} (hmasked : p.masked = ∅) (hservice : p.inService = ∅)
    (lines : Finset (Fin 8)) : p.first lines = (List.finRange 8).find? (· ∈ lines) := by
  simp [Pic.first, hmasked, hservice]

section EndOfInterrupt

variable {p : Pic}

/-- A line that goes into service alone is done at the next end. -/
theorem Pic.endOfInterrupt_serve (h : p.inService = ∅) (k : Fin 8) :
    (p.serve k).endOfInterrupt = { p with requested := p.requested.erase k } := by
  have hfind : ∀ k : Fin 8,
      (List.finRange 8).find? (· ∈ insert k (∅ : Finset (Fin 8))) = some k := by
    decide
  have hserve : (p.serve k).inService = insert k ∅ := by
    rw [serve, h]
  have herase : (insert k (∅ : Finset (Fin 8))).erase k = p.inService := by
    rw [h, Finset.erase_insert (Finset.notMem_empty k)]
  rw [endOfInterrupt, hserve, hfind k]
  dsimp only
  rw [herase]
  rfl

/-- With nothing in service there is nothing to end. -/
theorem Pic.endOfInterrupt_of_empty (h : p.inService = ∅) : p.endOfInterrupt = p := by
  have hfind : (List.finRange 8).find? (· ∈ (∅ : Finset (Fin 8))) = none := by
    decide
  rw [endOfInterrupt, h, hfind]

end EndOfInterrupt

namespace Pics

variable {p : Pics}

/-- The order of the pair : the first two lines, then those of the slave, then the rest. -/
theorem find?_order :
    order.find? (· ∈ p.requests) =
      ((([0, 1].find? (· ∈ p.master.requested)).map .inl).or
        (((List.finRange 8).find? (· ∈ p.slave.requested)).map .inr)).or
          (([3, 4, 5, 6, 7].find? (· ∈ p.master.requested)).map .inl) := by
  have hmaster : ∀ l : List (Fin 8), 2 ∉ l →
      l.find? ((fun m : Line => decide (m ∈ p.requests)) ∘ .inl) =
        l.find? (· ∈ p.master.requested) := by
    intro l hl
    refine List.find?_congr fun k hk => decide_eq_decide.2 ?_
    rw [requests, Finset.inl_mem_disjSum, Finset.mem_erase]
    exact and_iff_right fun h => hl (h ▸ hk)
  have hslave : (List.finRange 8).find? ((fun m : Line => decide (m ∈ p.requests)) ∘ .inr) =
      (List.finRange 8).find? (· ∈ p.slave.requested) := by
    refine List.find?_congr fun k _ => decide_eq_decide.2 ?_
    rw [requests, Finset.inr_mem_disjSum]
  rw [order, List.find?_append, List.find?_append, List.find?_map, List.find?_map,
    List.find?_map, hmaster [0, 1] (by decide), hmaster [3, 4, 5, 6, 7] (by decide), hslave]

namespace Idle

/-- An idle slave asks for its lowest request. -/
theorem slaveFirst_eq (h : p.Idle) :
    p.slaveFirst = (List.finRange 8).find? (· ∈ p.slave.requested) := by
  rw [slaveFirst, if_pos h.linked, Pic.first_of_empty h.slaveMasked h.slaveService]

/-- The master looks at its first two lines, at the slave, and at its other lines. -/
theorem masterFirst_eq (h : p.Idle) :
    p.master.first p.masterLines =
      (([0, 1].find? (· ∈ p.master.requested)).or
        (if p.slaveFirst.isSome then some 2 else none)).or
          ([3, 4, 5, 6, 7].find? (· ∈ p.master.requested)) := by
  have hlist : List.finRange 8 = [0, 1] ++ [2] ++ [3, 4, 5, 6, 7] := by decide
  have hother : ∀ l : List (Fin 8), 2 ∉ l →
      l.find? (· ∈ p.masterLines) = l.find? (· ∈ p.master.requested) := by
    intro l hl
    refine List.find?_congr fun k hk => decide_eq_decide.2 ?_
    have hk2 : k ≠ 2 := fun h => hl (h ▸ hk)
    unfold masterLines
    split_ifs <;> simp [hk2]
  have htwo : (2 : Fin 8) ∈ p.masterLines ↔ p.slaveFirst.isSome := by
    unfold masterLines
    split_ifs with hs <;> simp [hs]
  rw [Pic.first_of_empty h.masterMasked h.masterService, hlist, List.find?_append,
    List.find?_append, hother [0, 1] (by decide), hother [3, 4, 5, 6, 7] (by decide),
    List.find?_singleton]
  simp only [htwo, decide_eq_true_eq]

/-- With nothing in service, the processor gets the first line that is requested, or the last
vector of the master. -/
theorem acknowledge_eq (h : p.Idle) :
    p.acknowledge = match order.find? (· ∈ p.requests) with
      | none => (p.vector (.inl 7), p)
      | some l => (p.vector l, p.serving l) := by
  have hne : ∀ (l : List (Fin 8)) {k : Fin 8}, 2 ∉ l →
      l.find? (· ∈ p.master.requested) = some k → k ≠ 2 := by
    intro l k hl hk hk2
    exact hl (hk2 ▸ List.mem_of_find?_eq_some hk)
  rw [find?_order, ← h.slaveFirst_eq, acknowledge, h.masterFirst_eq]
  cases hfirst : [0, 1].find? (· ∈ p.master.requested) with
  | some k => exact if_neg (hne [0, 1] (by decide) hfirst)
  | none =>
    cases hslave : p.slaveFirst with
    | some j => rfl
    | none =>
      cases hlast : [3, 4, 5, 6, 7].find? (· ∈ p.master.requested) with
      | some k => exact if_neg (hne [3, 4, 5, 6, 7] (by decide) hlast)
      | none => rfl

/-- The end of an interrupt of the master takes its line out of the queue. -/
theorem outb_serving_inl (h : p.Idle) (k : Fin 8) :
    (p.serving (.inl k)).outb 0x20 0x20 = p.withdraw (.inl k) := by
  have hend := Pic.endOfInterrupt_serve h.masterService k
  exact congrArg (fun m => Pics.mk m p.slave) hend

/-- The two ends of an interrupt of the slave take its line out of the queue. -/
theorem outb_serving_inr (h : p.Idle) (k : Fin 8) :
    ((p.serving (.inr k)).outb 0xA0 0x20).outb 0x20 0x20 = p.withdraw (.inr k) := by
  have hslave := Pic.endOfInterrupt_serve h.slaveService k
  have hmaster := Pic.endOfInterrupt_serve h.masterService 2
  rw [Finset.erase_eq_of_notMem h.cascadeFree] at hmaster
  exact congrArg₂ Pics.mk hmaster hslave

/-- An end with nothing in service does nothing. -/
theorem outb_end (h : p.Idle) : p.outb 0x20 0x20 = p := by
  have hend := Pic.endOfInterrupt_of_empty h.masterService
  exact congrArg (fun m => Pics.mk m p.slave) hend

theorem raise (h : p.Idle) (l : Line) : (p.raise l).Idle := by
  cases l with
  | inl k =>
    by_cases hk : k = 2
    · rw [hk, raise_two]
      exact h
    · rw [raise_inl p hk]
      have hfree : 2 ∉ insert k p.master.requested := by
        rw [Finset.mem_insert, not_or]
        exact ⟨Ne.symm hk, h.cascadeFree⟩
      exact { h with cascadeFree := hfree }
  | inr k => exact { h with }

theorem withdraw (h : p.Idle) (l : Line) : (p.withdraw l).Idle := by
  cases l with
  | inl k =>
    have hfree : 2 ∉ p.master.requested.erase k :=
      fun hmem => h.cascadeFree (Finset.mem_of_mem_erase hmem)
    exact { h with cascadeFree := hfree }
  | inr k => exact { h with }

end Idle

/-! ## What is requested -/

variable (p : Pics)

/-- A request that is taken back is gone. -/
theorem requests_withdraw (l : Line) : (p.withdraw l).requests = p.requests.erase l := by
  ext m
  cases l <;> cases m <;> simp [requests, withdraw, and_left_comm]

theorem requests_raise {l : Line} (hl : l ≠ cascadeLine) :
    (p.raise l).requests = insert l p.requests := by
  ext m
  cases l with
  | inl k =>
    have hk : k ≠ 2 := fun h => hl (congrArg Sum.inl h)
    rw [raise_inl p hk]
    cases m with
    | inl j =>
      simp only [requests, Finset.inl_mem_disjSum, Finset.mem_erase, Finset.mem_insert,
        Sum.inl.injEq]
      constructor
      · rintro ⟨hj, rfl | hmem⟩
        · exact Or.inl rfl
        · exact Or.inr ⟨hj, hmem⟩
      · rintro (rfl | ⟨hj, hmem⟩)
        · exact ⟨hk, Or.inl rfl⟩
        · exact ⟨hj, Or.inr hmem⟩
    | inr j => simp [requests]
  | inr k => cases m <;> simp [requests, raise]

end Pics

end Pic8259
