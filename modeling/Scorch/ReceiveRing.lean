import Scorch.Rtl8139
import Scorch.Lib.GuardedRun
import Scorch.Lib.RecordRing

/-!
# Frames through the receive ring

The card writes every frame at its offset in the ring, past the end of it if need be, and
goes on at the aligned end of the frame, modulo the size of the ring. It takes a frame only
when less than the whole ring is outstanding. Interrupts come at any time between frames.

The frames that have arrived and not been received lie behind one another from `bufferPtr`
to the offset of the card, with their headers untouched (`Nic.Inv`). An interrupt goes
through all of them, in the order in which they arrived, and ends with `bufferPtr` at the
offset of the card (`rtlIrqHandler_receives`).
-/

open ByteMemory GuardedRun RecordRing

namespace Scorch

/-! ## The card -/

/-- The size of the ring. -/
def ringSize : ℕ := 0x2000

/-- A frame as it comes in. -/
structure Frame where
  status : BitVec 16
  data : List Byte
  short : data.length ≤ 3000

namespace Frame

/-- The length in the header. -/
def len (f : Frame) : BitVec 16 :=
  BitVec.ofNat 16 f.data.length

/-- The header and the data. -/
def bytes (f : Frame) : List Byte :=
  [f.status.setWidth 8, (f.status >>> 8).setWidth 8, f.len.setWidth 8, (f.len >>> 8).setWidth 8] ++
    f.data

end Frame

/-- What a packet takes of the ring : the next one is aligned to four bytes. -/
def Packet.size (p : Packet) : ℕ :=
  (4 + p.len.toNat + 3) / 4 * 4

/-- The place of a packet in the buffer. -/
def Packet.place (p : Packet) : ℕ :=
  p.offset.toNat

/-- The card with its buffer and its driver. `arrived` are the packets that it has written. -/
structure Nic where
  rxbuf : Bytes
  offset : ℕ
  arrived : List Packet
  driver : RtlDriver

/-- The packet of a frame that comes in now. -/
def Nic.packet (s : Nic) (f : Frame) : Packet where
  offset := BitVec.ofNat 16 s.offset
  status := f.status
  len := f.len

/-- The card writes a frame. -/
def Nic.arrive (s : Nic) (f : Frame) : Nic :=
  { s with
    rxbuf := memcpy s.rxbuf s.offset (fun k => f.bytes.getD k 0) f.bytes.length
    offset := (s.offset + (s.packet f).size) % ringSize
    arrived := s.arrived ++ [s.packet f] }

/-- The bytes of the packets that the driver has not received. -/
def Nic.outstanding (s : Nic) : ℕ :=
  total Packet.size (s.arrived.drop s.driver.calls.length)

/-- What can happen : a frame comes in, or the handler runs, with a value of `ISR`. -/
inductive NicEvent where
  | arrive (f : Frame)
  | irq (status : BitVec 16)

/-- `CBA` is the offset of the card. The loops of the handler may take `n` tests. -/
def nicStep (n : ℕ) : Option Nic → NicEvent → Option Nic
  | none, _ => none
  | some s, .arrive f => some (s.arrive f)
  | some s, .irq status =>
    (rtlIrqHandler n status (BitVec.ofNat 16 s.offset) s.rxbuf s.driver).map fun d =>
      { s with driver := d }

/-- A frame comes in only when less than the ring is outstanding with it, and the handler
runs with `FLAG_ISR_ROK` set. -/
def NicEvent.Allowed : Option Nic → NicEvent → Prop
  | some s, .arrive f => s.outstanding + (s.packet f).size < ringSize
  | none, .arrive _ => True
  | _, .irq status => status &&& flagIsrRok ≠ 0

instance : ∀ (o : Option Nic) (event : NicEvent), Decidable (NicEvent.Allowed o event)
  | some s, .arrive f => inferInstanceAs (Decidable (s.outstanding + (s.packet f).size < ringSize))
  | none, .arrive _ => inferInstanceAs (Decidable True)
  | none, .irq status => inferInstanceAs (Decidable (status &&& flagIsrRok ≠ 0))
  | some _, .irq status => inferInstanceAs (Decidable (status &&& flagIsrRok ≠ 0))

/-- No frame has come in. -/
def Nic.initial (rxbuf : Bytes) (ioaddr : BitVec 16) : Nic where
  rxbuf := rxbuf
  offset := 0
  arrived := []
  driver := .initial ioaddr

/-! ## Headers -/

/-- A header is decided by its four bytes. -/
theorem headerAt_congr {b b' : Bytes} {offset : BitVec 16}
    (h : ∀ k, offset.toNat ≤ k → k < offset.toNat + 4 → b k = b' k) :
    headerAt b offset = headerAt b' offset := by
  rw [headerAt, headerAt, load16_congr fun k hlo hhi => h k hlo (by omega),
    load16_congr fun k hlo hhi => h k (by omega) (by omega)]

/-- A frame in the ring has its header and its data. -/
theorem Frame.length_bytes (f : Frame) : f.bytes.length = 4 + f.data.length := by
  simp [Frame.bytes]
  omega

/-- The length in the header does not wrap. -/
theorem Frame.toNat_len (f : Frame) : f.len.toNat = f.data.length := by
  have := f.short
  rw [Frame.len, BitVec.toNat_ofNat, Nat.mod_eq_of_lt (by omega)]

/-- The buffer holds the header of a packet, with a length that the driver takes. -/
structure Packet.Stored (rxbuf : Bytes) (p : Packet) : Prop where
  header : headerAt rxbuf p.offset = p
  short : p.len ≤ 3000

namespace Packet

/-- A packet takes up a header at least. -/
theorem size_pos (p : Packet) : 4 ≤ p.size := by
  rw [size]
  omega

theorem four_dvd_size (p : Packet) : 4 ∣ p.size :=
  Nat.dvd_mul_left 4 _

theorem four_dvd_total (ps : List Packet) : 4 ∣ total size ps := by
  induction ps with
  | nil => exact Nat.dvd_zero 4
  | cons p ps ih => exact total_cons p ps ▸ Nat.dvd_add (four_dvd_size p) ih

theorem length_le_total (ps : List Packet) : 4 * ps.length ≤ total size ps := by
  induction ps with
  | nil => exact Nat.le_refl 0
  | cons p ps ih =>
    have hp := p.size_pos
    rw [List.length_cons, total_cons]
    omega

end Packet

/-! ## The loops -/

/-- The mask rounds down to a multiple of four. -/
theorem toNat_align (x : BitVec 16) : (x &&& ~~~(3 : BitVec 16)).toNat = x.toNat / 4 * 4 :=
  toNat_and_not_low (k := 2) x 3 fun t ht => by interval_cases t <;> rfl

/-- `recv_packet` at an aligned place that has a header goes on behind the packet. -/
theorem recvPacket_stored {rxbuf : Bytes} {p : Packet} (h : p.Stored rxbuf)
    (haligned : 4 ∣ p.place) (hlt : p.place < ringSize) (calls : List Packet) :
    recvPacket rxbuf ⟨p.offset, calls⟩ =
      ⟨BitVec.ofNat 16 (p.place + p.size), calls ++ [p]⟩ := by
  have hlen : p.len.toNat ≤ 3000 := h.short
  have hnext : (p.offset + (p.len + 4) + 3) &&& ~~~(3 : BitVec 16) =
      BitVec.ofNat 16 (p.place + p.size) := by
    apply BitVec.eq_of_toNat_eq
    rw [Packet.place, ringSize] at hlt
    rw [Packet.place] at haligned
    rw [toNat_align, Packet.place, Packet.size]
    bv_omega
  rw [recvPacket, h.header]
  dsimp only
  rw [if_neg (BitVec.not_lt.2 h.short), hnext]

/-- The loop over packets that lie straight before it. -/
theorem receiveLoop_straight {rxbuf : Bytes} {limit : BitVec 16} (hlimit : limit.toNat ≤ ringSize)
    {ps : List Packet} {o : ℕ} (h : Straight Packet.size Packet.place limit.toNat o ps)
    (haligned : 4 ∣ o) (ho : o < 2 ^ 16) (hstored : ∀ p ∈ ps, p.Stored rxbuf) {n : ℕ}
    (hn : ps.length < n) (calls : List Packet) :
    receiveLoop rxbuf limit n ⟨BitVec.ofNat 16 o, calls⟩ =
      some ⟨BitVec.ofNat 16 (o + total Packet.size ps), calls ++ ps⟩ := by
  induction ps generalizing o n calls with
  | nil =>
    obtain ⟨n, rfl⟩ := Nat.exists_eq_succ_of_ne_zero (Nat.ne_of_gt hn)
    have hlim : limit.toNat ≤ o := h
    rw [receiveLoop, if_neg (by bv_omega), total_nil, Nat.add_zero, List.append_nil]
  | cons p ps ih =>
    obtain ⟨n, rfl⟩ := Nat.exists_eq_succ_of_ne_zero (Nat.ne_zero_of_lt hn)
    obtain ⟨rfl, hlt, hrest⟩ := h
    have hp := hstored p List.mem_cons_self
    have hlen : p.len.toNat ≤ 3000 := hp.short
    have hsize : p.size ≤ 3004 := by
      rw [Packet.size]
      omega
    have hoffset : BitVec.ofNat 16 p.place = p.offset := BitVec.ofNat_toNat 16 p.offset
    have hring : ringSize = 0x2000 := rfl
    have htail := ih hrest (Nat.dvd_add haligned p.four_dvd_size) (by omega)
      (fun q hq => hstored q (List.mem_cons_of_mem p hq)) (Nat.lt_of_succ_lt_succ hn)
      (calls ++ [p])
    rw [receiveLoop, hoffset, if_pos (show p.offset < limit from hlt),
      recvPacket_stored hp haligned (by omega), htail, total_cons, List.append_assoc,
      Nat.add_assoc]
    rfl

/-- The last loop, from a place that is not separated from the end by the end of the ring. -/
theorem receiveLoop_laid {rxbuf : Bytes} {ps : List Packet} {o e : ℕ}
    (h : Laid Packet.size Packet.place ringSize o ps e) (haligned : 4 ∣ o)
    (hfit : o + total Packet.size ps < ringSize) (hstored : ∀ p ∈ ps, p.Stored rxbuf) {n : ℕ}
    (hn : 2048 ≤ n) (calls : List Packet) :
    receiveLoop rxbuf (BitVec.ofNat 16 e) n ⟨BitVec.ofNat 16 o, calls⟩ =
      some ⟨BitVec.ofNat 16 e, calls ++ ps⟩ := by
  have hring : ringSize = 0x2000 := rfl
  have hlength := Packet.length_le_total ps
  obtain ⟨hstraight, hend⟩ :=
    h.straight (fun p _ => Nat.lt_of_lt_of_le (by omega) p.size_pos) hfit
  have he : (BitVec.ofNat 16 e).toNat = e := by
    rw [BitVec.toNat_ofNat, Nat.mod_eq_of_lt (by omega)]
  rw [receiveLoop_straight (by omega) (he.symm ▸ hstraight) haligned (by omega) hstored (by omega),
    ← hend]

/-- Both loops go through the packets from one place of the ring to another. -/
theorem receive_laid {rxbuf : Bytes} {ps : List Packet} {o e : ℕ}
    (h : Laid Packet.size Packet.place ringSize o ps e) (haligned : 4 ∣ o) (ho : o < ringSize)
    (htotal : total Packet.size ps < ringSize) (hstored : ∀ p ∈ ps, p.Stored rxbuf) {n : ℕ}
    (hn : 2048 ≤ n) (calls : List Packet) :
    receive n rxbuf (BitVec.ofNat 16 e) ⟨BitVec.ofNat 16 o, calls⟩ =
      some ⟨BitVec.ofNat 16 e, calls ++ ps⟩ := by
  have hring : ringSize = 0x2000 := rfl
  have hend := h.end_eq ho
  have hbehind : BitVec.ofNat 16 e < BitVec.ofNat 16 o ↔ e < o := by
    have he := h.end_lt ho
    rw [BitVec.lt_def, BitVec.toNat_ofNat, BitVec.toNat_ofNat, Nat.mod_eq_of_lt (by omega),
      Nat.mod_eq_of_lt (by omega)]
  rw [receive]
  dsimp only
  rcases Nat.lt_or_ge (o + total Packet.size ps) ringSize with hfit | hlap
  · rw [Nat.mod_eq_of_lt hfit] at hend
    rw [if_neg (mt hbehind.1 (by omega)), Option.bind_some]
    exact receiveLoop_laid h haligned hfit hstored hn calls
  · rw [Nat.mod_eq_sub_mod hlap, Nat.mod_eq_of_lt (by omega)] at hend
    obtain ⟨as, bs, m, rfl, hstraight, hm, hbs⟩ := h.exists_lap ho hlap htotal
    rw [total_append] at hlap htotal hend
    have hdvd := Packet.four_dvd_total as
    have hlength := Packet.length_le_total as
    have hlimit : rxBufSize.toNat ≤ ringSize := Nat.le_refl _
    have hfirst := receiveLoop_straight hlimit hstraight haligned (by omega)
      (fun p hp => hstored p (List.mem_append_left bs hp))
      (show as.length < n by omega) calls
    have hnext : BitVec.ofNat 16 (o + total Packet.size as) - rxBufSize = BitVec.ofNat 16 m := by
      rw [hm, hring, rxBufSize]
      bv_omega
    rw [if_pos (hbehind.2 (by omega)), hfirst, Option.map_some, Option.bind_some, hnext,
      ← List.append_assoc]
    exact receiveLoop_laid hbs (by omega) (by omega)
      (fun p hp => hstored p (List.mem_append_right as hp)) hn (calls ++ as)

/-- With `FLAG_ISR_ROK` set the handler receives, and keeps where it has got to. -/
theorem rtlIrqHandler_of_rok {n : ℕ} {status cba : BitVec 16} (h : status &&& flagIsrRok ≠ 0)
    {rxbuf : Bytes} {d : RtlDriver} {r : Receiver}
    (hreceive : receive n rxbuf cba ⟨d.bufferPtr, d.calls⟩ = some r) :
    ∃ d', rtlIrqHandler n status cba rxbuf d = some d' ∧ d'.bufferPtr = r.readOfs ∧
      d'.calls = r.calls := by
  rw [rtlIrqHandler]
  simp only [h, ne_eq, not_false_eq_true, if_true, RtlDriver.acknowledgeSet_bufferPtr,
    RtlDriver.acknowledgeSet_calls, hreceive, Option.map_some]
  exact ⟨_, rfl, rfl, rfl⟩

/-! ## Runs -/

/-- The packets that the driver has not received lie in the ring, from `bufferPtr` to the
offset of the card. -/
structure Nic.Inv (s : Nic) : Prop where
  aligned : 4 ∣ s.driver.bufferPtr.toNat
  bufferPtr_lt : s.driver.bufferPtr.toNat < ringSize
  waiting : ∃ ps, s.arrived = s.driver.calls ++ ps ∧
    Laid Packet.size Packet.place ringSize s.driver.bufferPtr.toNat ps s.offset ∧
      (∀ p ∈ ps, p.Stored s.rxbuf) ∧ total Packet.size ps < ringSize

theorem Nic.inv_initial (rxbuf : Bytes) (ioaddr : BitVec 16) : (Nic.initial rxbuf ioaddr).Inv where
  aligned := Nat.dvd_zero 4
  bufferPtr_lt := Nat.zero_lt_succ _
  waiting := ⟨[], rfl, rfl, fun _ hp => absurd hp List.not_mem_nil, Nat.zero_lt_succ _⟩

section Arrive

variable {s : Nic}

/-- The next frame goes to the offset of the card. -/
theorem Nic.place_packet (hoffset : s.offset < ringSize) (f : Frame) :
    (s.packet f).place = s.offset := by
  rw [ringSize] at hoffset
  exact (BitVec.toNat_ofNat _ _).trans (Nat.mod_eq_of_lt (by omega))

theorem Nic.length_bytes_le_size (s : Nic) (f : Frame) : f.bytes.length ≤ (s.packet f).size := by
  have hlen : (s.packet f).len.toNat = f.data.length := f.toNat_len
  rw [f.length_bytes, Packet.size, hlen]
  omega

/-- The buffer after a frame. -/
theorem Nic.rxbuf_arrive (s : Nic) (f : Frame) (k : ℕ) :
    (s.arrive f).rxbuf k = if s.offset ≤ k ∧ k < s.offset + f.bytes.length then
      f.bytes.getD (k - s.offset) 0 else s.rxbuf k :=
  memcpy_apply s.rxbuf s.offset (fun k => f.bytes.getD k 0) f.bytes.length k

/-- What the card does not write over stays in the buffer. -/
theorem Packet.Stored.arrive {p : Packet} (h : p.Stored s.rxbuf) {f : Frame}
    (hapart : p.place + 4 ≤ s.offset ∨ s.offset + f.bytes.length ≤ p.place) :
    p.Stored (s.arrive f).rxbuf where
  header := by
    refine (headerAt_congr fun k hlo hhi => ?_).trans h.header
    rw [Packet.place] at hapart
    rw [Nic.rxbuf_arrive, if_neg (by omega)]
  short := h.short

/-- The header of a new packet is in the buffer. -/
theorem Nic.stored_packet (hoffset : s.offset < ringSize) (f : Frame) :
    (s.packet f).Stored (s.arrive f).rxbuf := by
  have hplace : (s.packet f).offset.toNat = s.offset := Nic.place_packet hoffset f
  have hbyte : ∀ k < 4, (s.arrive f).rxbuf (s.offset + k) = f.bytes.getD k 0 := by
    intro k hk
    have hlength := f.length_bytes
    rw [Nic.rxbuf_arrive, if_pos (by omega), Nat.add_sub_cancel_left]
  have hstatus : load16 (s.arrive f).rxbuf s.offset = f.status :=
    load16_eq (hbyte 0 (by omega)) (hbyte 1 (by omega))
  have hlen : load16 (s.arrive f).rxbuf (s.offset + 2) = f.len :=
    load16_eq (hbyte 2 (by omega)) (hbyte 3 (by omega))
  refine ⟨?_, ?_⟩
  · rw [headerAt, hplace, hstatus, hlen]
    rfl
  · have hshort := f.short
    rw [← f.toNat_len] at hshort
    exact hshort

/-- A frame behind the others leaves their headers alone. -/
theorem Nic.Inv.arrive (h : s.Inv) (f : Frame)
    (hroom : s.outstanding + (s.packet f).size < ringSize) : (s.arrive f).Inv := by
  obtain ⟨ps, harrived, hlaid, hstored, htotal⟩ := h.waiting
  rw [Nic.outstanding, harrived, List.drop_left] at hroom
  have hoffset := hlaid.end_lt h.bufferPtr_lt
  have hnew : Laid Packet.size Packet.place ringSize s.offset [s.packet f] (s.arrive f).offset :=
    ⟨Nic.place_packet hoffset f, rfl⟩
  have hlaid' := Laid.append_iff.2 ⟨s.offset, hlaid, hnew⟩
  refine ⟨h.aligned, h.bufferPtr_lt, ps ++ [s.packet f], ?_, hlaid', fun p hp => ?_, ?_⟩
  · show s.arrived ++ [s.packet f] = s.driver.calls ++ (ps ++ [s.packet f])
    rw [harrived, List.append_assoc]
  · rcases List.mem_append.1 hp with hp | hp
    · obtain ⟨as, has⟩ := hlaid.exists_place_eq h.bufferPtr_lt hp
      have hdvd := Packet.four_dvd_total as
      have haligned := h.aligned
      have hfit : p.place + 4 ≤ ringSize := by
        rw [has, ringSize]
        omega
      refine (hstored p hp).arrive ?_
      have hlength := s.length_bytes_le_size f
      exact hlaid.apart h.bufferPtr_lt (by omega) hp p.size_pos hfit
    · rw [List.mem_singleton.1 hp]
      exact Nic.stored_packet hoffset f
  · rw [total_append, total_cons, total_nil]
    omega

end Arrive

/-- The handler receives all the packets that are waiting. -/
theorem Nic.Inv.irq {s : Nic} (h : s.Inv) {n : ℕ} (hn : 2048 ≤ n) {status : BitVec 16}
    (hstatus : status &&& flagIsrRok ≠ 0) :
    ∃ s', nicStep n (some s) (.irq status) = some s' ∧ s'.Inv ∧ s'.driver.calls = s'.arrived ∧
      s'.driver.bufferPtr = BitVec.ofNat 16 s'.offset := by
  obtain ⟨ps, harrived, hlaid, hstored, htotal⟩ := h.waiting
  have hoffset := hlaid.end_lt h.bufferPtr_lt
  have hreceive := receive_laid hlaid h.aligned h.bufferPtr_lt htotal hstored hn s.driver.calls
  rw [BitVec.ofNat_toNat, BitVec.setWidth_eq, ← harrived] at hreceive
  obtain ⟨d, hd, hptr, hcalls⟩ := rtlIrqHandler_of_rok hstatus hreceive
  have htoNat : d.bufferPtr.toNat = s.offset := by
    rw [ringSize] at hoffset
    rw [hptr, BitVec.toNat_ofNat, Nat.mod_eq_of_lt (by omega)]
  refine ⟨{ s with driver := d }, by rw [nicStep, hd, Option.map_some], ?_, hcalls, hptr⟩
  refine ⟨?_, ?_, [], by rw [List.append_nil, hcalls], htoNat, fun p hp => ?_, Nat.zero_lt_succ _⟩
  · rw [htoNat, hlaid.end_eq h.bufferPtr_lt, ringSize]
    have hdvd := Packet.four_dvd_total ps
    have haligned := h.aligned
    omega
  · rw [htoNat]
    exact hoffset
  · exact absurd hp List.not_mem_nil

/-- A run in which nothing but what the card allows happens keeps the invariant. -/
theorem inv_run {n : ℕ} (hn : 2048 ≤ n) {s : Nic} (hs : s.Inv) {events : List NicEvent}
    (h : Meets (nicStep n) NicEvent.Allowed (some s) events) :
    ∃ s', run (nicStep n) (some s) events = some s' ∧ s'.Inv := by
  refine h.invariant (I := fun o => ∃ s, o = some s ∧ s.Inv) ?_ ⟨s, rfl, hs⟩
  rintro _ event ⟨s, rfl, hs⟩ hallowed
  cases event with
  | arrive f => exact ⟨s.arrive f, rfl, hs.arrive f hallowed⟩
  | irq status =>
    obtain ⟨s', hstep, hs', -⟩ := hs.irq hn hallowed
    exact ⟨s', hstep, hs'⟩

/-- In every run, after an interrupt the calls of `recv_packet` are for the packets that the
card has written, each once and in the order in which they arrived, and `bufferPtr` is the
offset of the card. -/
theorem rtlIrqHandler_receives {n : ℕ} (hn : 2048 ≤ n) (rxbuf : Bytes) (ioaddr : BitVec 16)
    {events : List NicEvent} {status : BitVec 16}
    (h : Meets (nicStep n) NicEvent.Allowed (some (.initial rxbuf ioaddr))
      (events ++ [.irq status])) :
    ∃ s, run (nicStep n) (some (.initial rxbuf ioaddr)) (events ++ [.irq status]) = some s ∧
      s.driver.calls = s.arrived ∧ s.driver.bufferPtr = BitVec.ofNat 16 s.offset := by
  obtain ⟨s, hrun, hs⟩ := inv_run hn (Nic.inv_initial rxbuf ioaddr) h.of_append
  have hlast := h.last
  rw [hrun] at hlast
  obtain ⟨s', hstep, -, hcalls, hptr⟩ := hs.irq hn hlast
  refine ⟨s', ?_, hcalls, hptr⟩
  rw [run_append, hrun, run_cons, run_nil, hstep]

/-- A frame of a few bytes. -/
def shortFrame : Frame where
  status := 0x0001
  data := [0x12, 0x34, 0x56, 0x78, 0x9A]
  short := by decide

/-- Two frames and an interrupt. -/
theorem rtlIrqHandler_receives_two :
    ∃ s, run (nicStep 2048) (some (.initial (fun _ => 0) 0xC000))
        ([.arrive shortFrame, .arrive shortFrame] ++ [.irq 0x0001]) = some s ∧
      s.driver.calls = s.arrived ∧ s.driver.bufferPtr = BitVec.ofNat 16 s.offset :=
  rtlIrqHandler_receives (Nat.le_refl 2048) _ _ <|
    (meets_cons _ _ _).2 ⟨by decide, (meets_cons _ _ _).2 ⟨by decide,
      (meets_cons _ _ _).2 ⟨by decide, meets_nil _⟩⟩⟩

end Scorch
