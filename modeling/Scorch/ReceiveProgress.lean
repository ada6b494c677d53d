import Mathlib.Logic.Function.Iterate
import Scorch.ReceiveRing

/-!
# When the receive loops end

`recv_packet` goes on behind a packet of at most 3000 bytes, and returns where it was when
the header has a larger length. A loop that comes to such a header before its limit is
called on it for ever.

The packets that the two loops go through start at `bufferPtr` and lie one behind the other
in the unrolled ring, where the second loop works on the places from `0x2000` on. The loops
end, with every call of `recv_packet` further on than the last, just when every header of
this chain that starts before the end has a length of at most 3000 (`receive_ends_iff`).

The chain of packets behind one another goes up (`lt_behind`), so a loop up to a limit ends unless a
header before the limit has a length that `recv_packet` does not take, when the offset stays where
it is for ever.
-/

open ByteMemory

namespace Scorch

/-! ## The chain of packets -/

/-- The length in the header at a place of the unrolled ring. -/
def lenAt (rxbuf : Bytes) (u : ℕ) : ℕ :=
  (headerAt rxbuf (BitVec.ofNat 16 (u % ringSize))).len.toNat

/-- Where the packet behind the one at `u` starts. -/
def behind (rxbuf : Bytes) (u : ℕ) : ℕ :=
  (u + (lenAt rxbuf u + 4) + 3) / 4 * 4

/-- The headers of the chain from `u` that start before `limit` have a length that
`recv_packet` takes. -/
def ShortBefore (rxbuf : Bytes) (limit u : ℕ) : Prop :=
  ∀ k, (behind rxbuf)^[k] u < limit → lenAt rxbuf ((behind rxbuf)^[k] u) ≤ 3000

/-- The end of the ring that the handler goes to, unrolled from `bufferPtr`. -/
def unrolledEnd (endOfs bufferPtr : BitVec 16) : ℕ :=
  if endOfs < bufferPtr then ringSize + endOfs.toNat else endOfs.toNat

section Chain

variable {rxbuf : Bytes} {limit u : ℕ}

/-- The next packet starts further on. -/
theorem lt_behind (rxbuf : Bytes) (u : ℕ) : u < behind rxbuf u := by
  unfold behind
  omega

theorem le_iterate_behind (rxbuf : Bytes) (u k : ℕ) : u ≤ (behind rxbuf)^[k] u := by
  induction k with
  | zero => exact Nat.le_refl u
  | succ k ih =>
    rw [Function.iterate_succ_apply']
    exact ih.trans (lt_behind rxbuf _).le

/-- A chain that starts behind the limit has no header before it. -/
theorem ShortBefore.of_le (h : limit ≤ u) : ShortBefore rxbuf limit u := by
  intro k hk
  have hle := le_iterate_behind rxbuf u k
  omega

theorem ShortBefore.mono {limit' : ℕ} (h : ShortBefore rxbuf limit u) (hle : limit' ≤ limit) :
    ShortBefore rxbuf limit' u :=
  fun k hk => h k (hk.trans_le hle)

/-- The chain from a place before the limit is the packet there and the chain behind it. -/
theorem shortBefore_iff (h : u < limit) :
    ShortBefore rxbuf limit u ↔
      lenAt rxbuf u ≤ 3000 ∧ ShortBefore rxbuf limit (behind rxbuf u) := by
  constructor
  · intro hshort
    exact ⟨hshort 0 h, fun k hk => hshort (k + 1) hk⟩
  · rintro ⟨hlen, hrest⟩ k hk
    cases k with
    | zero => exact hlen
    | succ k => exact hrest k hk

theorem lenAt_add_ring (rxbuf : Bytes) (u : ℕ) : lenAt rxbuf (u + ringSize) = lenAt rxbuf u := by
  rw [lenAt, lenAt, Nat.add_mod_right]

theorem behind_add_ring (rxbuf : Bytes) (u : ℕ) :
    behind rxbuf (u + ringSize) = behind rxbuf u + ringSize := by
  unfold behind
  rw [lenAt_add_ring, ringSize]
  omega

theorem iterate_behind_add_ring (rxbuf : Bytes) (u k : ℕ) :
    (behind rxbuf)^[k] (u + ringSize) = (behind rxbuf)^[k] u + ringSize := by
  induction k generalizing u with
  | zero => rfl
  | succ k ih =>
    rw [Function.iterate_succ_apply, Function.iterate_succ_apply, behind_add_ring, ih]

/-- Once around the ring the chain is the same. -/
theorem shortBefore_add_ring :
    ShortBefore rxbuf (limit + ringSize) (u + ringSize) ↔ ShortBefore rxbuf limit u := by
  unfold ShortBefore
  simp only [iterate_behind_add_ring, lenAt_add_ring, Nat.add_lt_add_iff_right]

end Chain

/-! ## One call -/

section Call

variable {rxbuf : Bytes} {r : Receiver}

/-- The length in the header that `recv_packet` reads. -/
theorem lenAt_toNat (h : r.readOfs.toNat < ringSize) :
    lenAt rxbuf r.readOfs.toNat = (headerAt rxbuf r.readOfs).len.toNat := by
  rw [lenAt, Nat.mod_eq_of_lt h, BitVec.ofNat_toNat, BitVec.setWidth_eq]

/-- A call is recorded with the header it saw. -/
theorem recvPacket_calls (rxbuf : Bytes) (r : Receiver) :
    (recvPacket rxbuf r).calls = r.calls ++ [headerAt rxbuf r.readOfs] := by
  rw [recvPacket]
  dsimp only
  split_ifs <;> rfl

/-- A length above 3000 leaves the offset where it was. -/
theorem recvPacket_of_long (h : r.readOfs.toNat < ringSize)
    (hlen : 3000 < lenAt rxbuf r.readOfs.toNat) :
    (recvPacket rxbuf r).readOfs = r.readOfs := by
  rw [lenAt_toNat h] at hlen
  rw [recvPacket]
  dsimp only
  rw [if_pos (show (3000 : BitVec 16) < (headerAt rxbuf r.readOfs).len from hlen)]

/-- Any other length takes it behind the packet. -/
theorem recvPacket_of_short (h : r.readOfs.toNat < ringSize)
    (hlen : lenAt rxbuf r.readOfs.toNat ≤ 3000) :
    (recvPacket rxbuf r).readOfs.toNat = behind rxbuf r.readOfs.toNat := by
  unfold behind
  rw [lenAt_toNat h] at hlen ⊢
  have hring : ringSize = 0x2000 := rfl
  rw [recvPacket]
  dsimp only
  rw [if_neg (show ¬ (3000 : BitVec 16) < (headerAt rxbuf r.readOfs).len from Nat.not_lt.2 hlen),
    toNat_align]
  bv_omega

/-- A short packet ends less than a lap behind the ring. -/
theorem behind_lt (h : u < ringSize) (hlen : lenAt rxbuf u ≤ 3000) :
    behind rxbuf u < 2 * ringSize := by
  unfold behind
  rw [ringSize] at *
  omega

end Call

/-! ## The loops -/

section Loop

variable {rxbuf : Bytes} {limit : BitVec 16} {n : ℕ} {r r' : Receiver}

/-- The calls that have been made were for places that the offset went on from. -/
def Advanced (rxbuf : Bytes) (calls : List Packet) : Prop :=
  ∀ p ∈ calls, p.offset < (recvPacket rxbuf ⟨p.offset, []⟩).readOfs

theorem advanced_nil (rxbuf : Bytes) : Advanced rxbuf [] :=
  fun _ hp => absurd hp List.not_mem_nil

/-- Where `recv_packet` goes on does not depend on the earlier calls. -/
theorem recvPacket_readOfs_congr (rxbuf : Bytes) (o : BitVec 16) (calls calls' : List Packet) :
    (recvPacket rxbuf ⟨o, calls⟩).readOfs = (recvPacket rxbuf ⟨o, calls'⟩).readOfs := by
  rw [recvPacket, recvPacket]
  dsimp only
  split_ifs <;> rfl

theorem Advanced.recvPacket (h : Advanced rxbuf r.calls)
    (hlt : r.readOfs < (recvPacket rxbuf r).readOfs) :
    Advanced rxbuf (recvPacket rxbuf r).calls := by
  intro p hp
  rw [recvPacket_calls, List.mem_append, List.mem_singleton] at hp
  rcases hp with hp | rfl
  · exact h p hp
  · exact (recvPacket_readOfs_congr rxbuf r.readOfs [] r.calls).symm ▸ hlt

/-- A loop that comes to a header with a larger length does not end. -/
theorem receiveLoop_stuck (hlimit : limit.toNat ≤ ringSize) (hlt : r.readOfs < limit)
    (hlen : 3000 < lenAt rxbuf r.readOfs.toNat) (n : ℕ) :
    receiveLoop rxbuf limit n r = none := by
  induction n generalizing r with
  | zero => rfl
  | succ n ih =>
    have hsame := recvPacket_of_long (Nat.lt_of_lt_of_le hlt hlimit) hlen
    rw [receiveLoop, if_pos hlt]
    exact ih (hsame.symm ▸ hlt) (hsame.symm ▸ hlen)

/-- A loop that ends has gone along the chain to the first place that is not before its
limit. -/
theorem receiveLoop_spec (hlimit : limit.toNat ≤ ringSize)
    (h : receiveLoop rxbuf limit n r = some r') (hr : r.readOfs.toNat < 2 * ringSize)
    (hcalls : Advanced rxbuf r.calls) :
    Advanced rxbuf r'.calls ∧ limit.toNat ≤ r'.readOfs.toNat ∧
      r'.readOfs.toNat < 2 * ringSize ∧
      ∀ far, limit.toNat ≤ far →
        (ShortBefore rxbuf far r.readOfs.toNat ↔ ShortBefore rxbuf far r'.readOfs.toNat) := by
  induction n generalizing r with
  | zero => cases h
  | succ n ih =>
    by_cases hlt : r.readOfs < limit
    · have hring : r.readOfs.toNat < ringSize := Nat.lt_of_lt_of_le hlt hlimit
      rcases Nat.lt_or_ge 3000 (lenAt rxbuf r.readOfs.toNat) with hlong | hshort
      · rw [receiveLoop_stuck hlimit hlt hlong] at h
        cases h
      rw [receiveLoop, if_pos hlt] at h
      have hnext := recvPacket_of_short hring hshort
      have hadvance : r.readOfs < (recvPacket rxbuf r).readOfs := by
        rw [BitVec.lt_def, hnext]
        exact lt_behind rxbuf _
      obtain ⟨hcalls', hge, hlt', hchain⟩ :=
        ih h (hnext.symm ▸ behind_lt hring hshort) (hcalls.recvPacket hadvance)
      refine ⟨hcalls', hge, hlt', fun far hfar => ?_⟩
      rw [shortBefore_iff (Nat.lt_of_lt_of_le hlt hfar), ← hnext, hchain far hfar]
      exact and_iff_right hshort
    · rw [receiveLoop, if_neg hlt] at h
      cases h
      exact ⟨hcalls, Nat.not_lt.1 hlt, hr, fun far hfar => Iff.rfl⟩

/-- Along a chain of short packets the loop ends. -/
theorem ShortBefore.receiveLoop_ends (hlimit : limit.toNat ≤ ringSize)
    (h : ShortBefore rxbuf limit.toNat r.readOfs.toNat) (hn : limit.toNat - r.readOfs.toNat < n) :
    ∃ r', receiveLoop rxbuf limit n r = some r' := by
  induction n generalizing r with
  | zero => omega
  | succ n ih =>
    rw [receiveLoop]
    by_cases hlt : r.readOfs < limit
    · have hlt' : r.readOfs.toNat < limit.toNat := hlt
      obtain ⟨hshort, hrest⟩ := (shortBefore_iff hlt').1 h
      have hnext := recvPacket_of_short (hlt'.trans_le hlimit) hshort
      have hadvance := lt_behind rxbuf r.readOfs.toNat
      rw [if_pos hlt]
      exact ih (hnext.symm ▸ hrest) (by omega)
    · exact ⟨r, if_neg hlt⟩

end Loop

/-! ## The handler -/

section Handler

variable {rxbuf : Bytes} {endOfs : BitVec 16} {r r' : Receiver}

/-- The place that the second loop starts at. -/
def Receiver.wrapped (r : Receiver) : Receiver :=
  { r with readOfs := r.readOfs - rxBufSize }

/-- The second loop starts a lap before the end of the first. -/
theorem Receiver.toNat_wrapped (h : ringSize ≤ r.readOfs.toNat) :
    r.readOfs.toNat = r.wrapped.readOfs.toNat + ringSize := by
  have hring : ringSize = rxBufSize.toNat := rfl
  have hle : rxBufSize ≤ r.readOfs := h
  rw [wrapped, BitVec.toNat_sub_of_le hle, hring]
  omega

/-- When the card is behind `bufferPtr`, the handler goes to the end of the ring first and then
on from its start. -/
theorem receive_of_behind (h : endOfs < r.readOfs) (n : ℕ) :
    receive n rxbuf endOfs r = (receiveLoop rxbuf rxBufSize n r).bind fun r =>
      receiveLoop rxbuf endOfs n r.wrapped := by
  unfold receive
  rw [if_pos h, Option.bind_map]
  rfl

theorem receive_of_not_behind (h : ¬ endOfs < r.readOfs) (n : ℕ) :
    receive n rxbuf endOfs r = receiveLoop rxbuf endOfs n r := by
  unfold receive
  rw [if_neg h, Option.bind_some]

/-- Where the first loop ends, the rest of the chain is what the second loop goes along. -/
theorem shortBefore_wrapped {n : ℕ} (endOfs : BitVec 16)
    (hr : r.readOfs.toNat < 2 * ringSize) (hcalls : Advanced rxbuf r.calls)
    (h : receiveLoop rxbuf rxBufSize n r = some r') :
    Advanced rxbuf r'.wrapped.calls ∧ r'.wrapped.readOfs.toNat < 2 * ringSize ∧
      (ShortBefore rxbuf (endOfs.toNat + ringSize) r.readOfs.toNat ↔
        ShortBefore rxbuf endOfs.toNat r'.wrapped.readOfs.toNat) := by
  obtain ⟨hcalls', hge, hlt, hchain⟩ := receiveLoop_spec (Nat.le_refl _) h hr hcalls
  have hwrap := Receiver.toNat_wrapped hge
  have hfar : rxBufSize.toNat ≤ endOfs.toNat + ringSize := Nat.le_add_left _ _
  refine ⟨hcalls', by omega, ?_⟩
  rw [hchain _ hfar, hwrap, shortBefore_add_ring]

/-- The loops of the handler end, with every call of `recv_packet` strictly further on, just
when no header of the chain of packets up to the end has a length above 3000. -/
theorem receive_ends_iff (rxbuf : Bytes) {endOfs bufferPtr : BitVec 16}
    (hend : endOfs < rxBufSize) (hptr : bufferPtr < rxBufSize) :
    (∃ n r, receive n rxbuf endOfs ⟨bufferPtr, []⟩ = some r ∧ Advanced rxbuf r.calls) ↔
      ShortBefore rxbuf (unrolledEnd endOfs bufferPtr) bufferPtr.toNat := by
  have hend' : endOfs.toNat ≤ ringSize := Nat.le_of_lt hend
  have hptr' : bufferPtr.toNat < 2 * ringSize :=
    Nat.lt_of_lt_of_le (show bufferPtr.toNat < ringSize from hptr) (by rw [ringSize]; omega)
  have hnil := advanced_nil rxbuf
  unfold unrolledEnd
  by_cases hbehind : endOfs < bufferPtr
  · rw [if_pos hbehind, Nat.add_comm]
    constructor
    · rintro ⟨n, r, h, -⟩
      rw [receive_of_behind hbehind] at h
      obtain ⟨r₁, h₁, h₂⟩ := Option.bind_eq_some_iff.1 h
      obtain ⟨hcalls, hlt, hchain⟩ := shortBefore_wrapped endOfs hptr' hnil h₁
      obtain ⟨-, hge, -, hchain'⟩ := receiveLoop_spec hend' h₂ hlt hcalls
      exact hchain.2 ((hchain' _ le_rfl).2 (ShortBefore.of_le hge))
    · intro h
      have hfirst : ShortBefore rxbuf rxBufSize.toNat bufferPtr.toNat :=
        h.mono (Nat.le_add_left _ _)
      obtain ⟨r₁, h₁⟩ := hfirst.receiveLoop_ends (r := ⟨bufferPtr, []⟩) (Nat.le_refl _)
        (n := ringSize + 1) (Nat.lt_succ_of_le (Nat.sub_le _ _))
      obtain ⟨hcalls, hlt, hchain⟩ := shortBefore_wrapped endOfs hptr' hnil h₁
      obtain ⟨r₂, h₂⟩ := (hchain.1 h).receiveLoop_ends hend'
        (n := ringSize + 1) (Nat.lt_succ_of_le ((Nat.sub_le _ _).trans hend'))
      refine ⟨ringSize + 1, r₂, ?_, (receiveLoop_spec hend' h₂ hlt hcalls).1⟩
      rw [receive_of_behind hbehind, h₁, Option.bind_some, h₂]
  · rw [if_neg hbehind]
    constructor
    · rintro ⟨n, r, h, -⟩
      rw [receive_of_not_behind hbehind] at h
      obtain ⟨-, hge, -, hchain⟩ := receiveLoop_spec hend' h hptr' hnil
      exact (hchain _ le_rfl).2 (ShortBefore.of_le hge)
    · intro h
      obtain ⟨r, hr⟩ := h.receiveLoop_ends (r := ⟨bufferPtr, []⟩) hend'
        (n := ringSize + 1) (Nat.lt_succ_of_le ((Nat.sub_le _ _).trans hend'))
      refine ⟨ringSize + 1, r, ?_, (receiveLoop_spec hend' hr hptr' hnil).1⟩
      rw [receive_of_not_behind hbehind, hr]

end Handler

/-- A buffer of empty packets. -/
theorem receive_ends_zero :
    (∃ n r, receive n (fun _ => 0) 0x10 ⟨0x1FF0, []⟩ = some r ∧ Advanced (fun _ => 0) r.calls) ↔
      ShortBefore (fun _ => 0) (unrolledEnd 0x10 0x1FF0) (0x1FF0 : BitVec 16).toNat :=
  receive_ends_iff _ (by decide) (by decide)

/-- A buffer that begins with a header of length `0xFFFF`. -/
def longHeader : Bytes :=
  fun k => if k = 2 ∨ k = 3 then 0xFF else 0

/-- The loop is called on the header of length `0xFFFF` for ever, and the call does not go on. -/
theorem receive_longHeader :
    (∀ n, receive n longHeader 0x10 ⟨0, []⟩ = none) ∧
      (recvPacket longHeader ⟨0, []⟩).readOfs = 0 := by
  have hlen : 3000 < lenAt longHeader (0 : BitVec 16).toNat := by decide
  refine ⟨fun n => ?_, recvPacket_of_long (r := ⟨0, []⟩) (by decide) hlen⟩
  rw [receive_of_not_behind (r := ⟨0, []⟩) (by decide)]
  exact receiveLoop_stuck (r := ⟨0, []⟩) (by decide) (by decide) hlen n

end Scorch
