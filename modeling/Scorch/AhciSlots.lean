import Mathlib.Order.Bounds.Basic
import Scorch.Ahci
import Scorch.Lib.MaximalRuns

/-!
# Command slots

The capability register holds the number of command slots, less one, in its bits 12 to 8.
`find_cmdslot` leaves out bit 12 and does not add the one, so it looks at fewer slots than
there are (`slotsSearched_lt`). It finds the least free slot when it is one of them, and is
right in that there is none when no slot is free (`findsSlot_iff`).

The search is `first` of a place, so its result is the least free slot below the bound or none.
-/

open ByteMemory MaximalRuns

namespace Scorch

/-- The command slots of the controller. -/
def cmdSlots (cap : Word) : ℕ :=
  1 + ((cap >>> 8) &&& 0x1f).toNat

/-- The command slots that `find_cmdslot` looks at. -/
def slotsSearched (cap : Word) : ℕ :=
  ((cap >>> 8) &&& 0x0f).toNat

/-- No command is set up or issued in the slot. -/
def SlotFree (port : HbaPort) (i : ℕ) : Prop :=
  (port.sact ||| port.ci).getLsbD i = false

instance (port : HbaPort) : DecidablePred (SlotFree port) := fun _ =>
  inferInstanceAs (Decidable (_ = _))

/-- The driver finds the least free slot of the controller, and none when all are busy. -/
def FindsSlot (cap : Word) (port : HbaPort) : Prop :=
  (∀ i, findCmdslot cap port = some i ↔ IsLeast {i | i < cmdSlots cap ∧ SlotFree port i} i) ∧
    (findCmdslot cap port = none ↔ ∀ i < cmdSlots cap, ¬SlotFree port i)

/-- The last slot is never looked at. -/
theorem slotsSearched_lt (cap : Word) : slotsSearched cap < cmdSlots cap := by
  rw [slotsSearched, cmdSlots, toNat_and_low (k := 4) _ rfl, toNat_and_low (k := 5) _ rfl]
  omega

/-- The loop looks for the first bit that is clear. -/
theorem findCmdslotFrom_eq (x : Word) (n i : ℕ) :
    findCmdslotFrom n i (x >>> i) =
      if first (fun k => x.getLsbD k = false) n i < i + n then
        some (first (fun k => x.getLsbD k = false) n i)
      else none := by
  induction n generalizing i with
  | zero => rw [findCmdslotFrom, first, if_neg (by omega)]
  | succ n ih =>
    have hbit : x >>> i &&& 1 = 0 ↔ x.getLsbD i = false := by
      have hand : x >>> i &&& 1 = (BitVec.ofBool ((x >>> i).getLsbD 0)).setWidth 32 :=
        BitVec.and_one_eq_setWidth_ofBool_getLsbD
      rw [hand, BitVec.getLsbD_ushiftRight, Nat.add_zero]
      cases x.getLsbD i <;> decide
    have hshift : x >>> i >>> 1 = x >>> (i + 1) := by
      rw [BitVec.shiftRight_add]
    rw [findCmdslotFrom, first, hshift, ih]
    by_cases h : x.getLsbD i = false
    · rw [if_pos (hbit.2 h), if_pos h, if_pos (by omega)]
    · rw [if_neg (mt hbit.1 h), if_neg h, Nat.add_assoc, Nat.add_comm 1 n]

/-- The search returns the first free slot of those that it looks at. -/
theorem findCmdslot_eq (cap : Word) (port : HbaPort) :
    findCmdslot cap port =
      if first (SlotFree port) (slotsSearched cap) 0 < slotsSearched cap then
        some (first (SlotFree port) (slotsSearched cap) 0)
      else none := by
  have hslots : (cap &&& 0x0f00) >>> 8 = (cap >>> 8) &&& 0x0f := by
    rw [BitVec.ushiftRight_and_distrib]
    rfl
  have hloop := findCmdslotFrom_eq (port.sact ||| port.ci) (slotsSearched cap) 0
  rw [BitVec.ushiftRight_zero, Nat.zero_add] at hloop
  rw [findCmdslot, hslots]
  exact hloop

/-- The driver finds the right slot when one of the slots it looks at is free, or none of the
controller is. -/
theorem findsSlot_iff (cap : Word) (port : HbaPort) :
    FindsSlot cap port ↔
      (∃ i < slotsSearched cap, SlotFree port i) ∨ ∀ i < cmdSlots cap, ¬SlotFree port i := by
  have hlt := slotsSearched_lt cap
  have hbefore : ∀ j < first (SlotFree port) (slotsSearched cap) 0, ¬SlotFree port j :=
    fun j hj => not_of_lt_first (Nat.zero_le j) hj
  have hcall := findCmdslot_eq cap port
  constructor
  · rintro ⟨-, hnone⟩
    split_ifs at hcall with hfound
    · exact Or.inl ⟨_, hfound, first_of_lt (by omega)⟩
    · exact Or.inr (hnone.1 hcall)
  · rintro (⟨i, hi, hfree⟩ | hbusy)
    · have hfound : first (SlotFree port) (slotsSearched cap) 0 < slotsSearched cap :=
        (Nat.not_lt.1 fun h => hbefore i h hfree).trans_lt hi
      have hleast : IsLeast {i | i < cmdSlots cap ∧ SlotFree port i}
          (first (SlotFree port) (slotsSearched cap) 0) :=
        ⟨⟨hfound.trans hlt, first_of_lt (by omega)⟩,
          fun j hj => Nat.not_lt.1 fun h => hbefore j h hj.2⟩
      rw [if_pos hfound] at hcall
      rw [FindsSlot, hcall]
      refine ⟨fun j => ?_, iff_of_false (Option.some_ne_none _) fun hbusy => ?_⟩
      · rw [Option.some_inj]
        exact ⟨fun h => h ▸ hleast, fun h => hleast.unique h⟩
      · exact hbusy i (hi.trans hlt) hfree
    · have hmiss : ¬first (SlotFree port) (slotsSearched cap) 0 < slotsSearched cap := fun h =>
        hbusy _ (h.trans hlt) (first_of_lt (by omega))
      rw [if_neg hmiss] at hcall
      rw [FindsSlot, hcall]
      exact ⟨fun i => iff_of_false (Option.some_ne_none i).symm fun h => hbusy i h.1.1 h.1.2,
        iff_of_true rfl hbusy⟩

/-- A controller with one slot, which is free. -/
theorem not_findsSlot_one : ¬FindsSlot 0 ⟨0, 0, 0, 0, fun _ => 0⟩ := by
  rintro ⟨-, hnone⟩
  exact hnone.1 (by decide) 0 (by decide) (by decide)

end Scorch
