import Mathlib.Data.Fintype.EquivFin
import Mathlib.Logic.Relation

/-!
# Cycles and termination

A search that follows a relation from `a` on, wherever it leads, stops when every descent
from `a` does : when `a` is accessible for the reversed relation. Over a finite type this
is so exactly when nothing reachable from `a` leads back to itself (`acc_iff_acyclicFrom`).
-/

open Relation

namespace Acyclic

variable {α : Type*} {r : α → α → Prop} {a b : α}

/-- Nothing reachable from `a` leads back to itself. -/
def AcyclicFrom (r : α → α → Prop) (a : α) : Prop :=
  ∀ b, ReflTransGen r a b → ¬TransGen r b b

theorem not_acyclicFrom_of_self (h : r a a) : ¬AcyclicFrom r a :=
  fun hac => hac a .refl (.single h)

/-- A place from which every way ends has no such loop. -/
theorem not_self_of_acc (h : Acc r a) : ¬r a a := by
  induction h with
  | intro a _ ih => exact fun haa => ih a haa haa

/-- A descent can start anywhere on the way. -/
theorem acc_of_reachable (h : Acc (flip r) a) (hab : ReflTransGen r a b) : Acc (flip r) b := by
  induction hab with
  | refl => exact h
  | tail _ hbc ih => exact ih.inv hbc

theorem acyclicFrom_of_acc (h : Acc (flip r) a) : AcyclicFrom r a := by
  intro b hab hbb
  have hacc : Acc (TransGen (flip r)) b := (acc_of_reachable h hab).transGen
  exact not_self_of_acc hacc (transGen_swap.2 hbb)

variable [Finite α]

/-- On a finite type, ways without a cycle end. -/
theorem acc_of_acyclicFrom (h : AcyclicFrom r a) : Acc (flip r) a := by
  -- On the reachable elements the transitive closure is a strict order.
  let t : {b // ReflTransGen r a b} → {b // ReflTransGen r a b} → Prop :=
    fun x y => TransGen r y.1 x.1
  have htrans : IsTrans _ t := ⟨fun _ _ _ hxy hyz => hyz.trans hxy⟩
  have hirrefl : Std.Irrefl t := ⟨fun x => h x.1 x.2⟩
  have hwf : WellFounded t := Finite.wellFounded_of_trans_of_irrefl t
  suffices hall : ∀ x : {b // ReflTransGen r a b}, Acc (flip r) x.1 from hall ⟨a, .refl⟩
  intro x
  induction x using hwf.induction with
  | _ x ih => exact ⟨_, fun c hc => ih ⟨c, x.2.tail hc⟩ (.single hc)⟩

theorem acc_iff_acyclicFrom : Acc (flip r) a ↔ AcyclicFrom r a :=
  ⟨acyclicFrom_of_acc, acc_of_acyclicFrom⟩

end Acyclic
