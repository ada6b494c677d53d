import Mathlib.Data.FinEnum
import Scorch.Fat12
import Scorch.Lib.Acyclic
import Scorch.Lib.GuardedRun

/-!
# Following a cluster chain

`fsysFatRead`, call after call. Every call delivers the sector of the current cluster and
moves on to the cluster that the FAT links it to, or sets `eof`. `fatEntry` is the FAT12
format : entry `n` is the 12 bits from bit `12 n` on of the sectors from sector `1` on.

On a chain that ends with an end mark the calls deliver its sectors one by one
(`fsysFatRead_delivers_chain`). On any other disk the calls end when they come to an end
mark or a free entry, and that is so exactly when no cluster on the way is linked back to
itself (`readLoop_terminates_iff`).
-/

open ByteMemory GuardedRun Relation Acyclic

namespace Scorch

/-! ## The file allocation table -/

/-- Byte `j` of the FAT, which starts at sector `1`. -/
def fatByte (disk : Disk) (j : ℕ) : ℕ :=
  (disk (BitVec.ofNat 32 (1 + j / 512)) (j % 512)).toNat

/-- Entry `n` of the FAT. -/
def fatEntry (disk : Disk) (n : ℕ) : ℕ :=
  if n % 2 = 0 then fatByte disk (n + n / 2) + fatByte disk (n + n / 2 + 1) % 16 * 256
  else fatByte disk (n + n / 2) / 16 + fatByte disk (n + n / 2 + 1) * 16

/-- The bytes of sector `s` and the next. -/
def twoSectors (disk : Disk) (s : Word) : Bytes :=
  fun k => if k < 512 then disk s k else disk (s + 1) (k - 512)

/-- `FAT_Offset`. -/
def fatOffset (c : Word) : Word :=
  c + c / 2

/-- The link of a cluster as the code decodes it. -/
def fatLink (disk : Disk) (c : Word) : BitVec 16 :=
  nextCluster (twoSectors disk (1 + fatOffset c / sectorSize)) c (fatOffset c % sectorSize)

/-- The marks that set `eof` : an end mark, or a free entry. -/
def EndMark (e : BitVec 16) : Prop :=
  0xff8 ≤ e ∨ e = 0

instance (e : BitVec 16) : Decidable (EndMark e) :=
  inferInstanceAs (Decidable (_ ∨ _))

/-- The entry of a cluster is in two bytes of the table. -/
theorem nextCluster_congr {fat fat' : Bytes} {c entryOffset : Word}
    (h : ∀ k ≤ entryOffset.toNat + 1, fat k = fat' k) :
    nextCluster fat c entryOffset = nextCluster fat' c entryOffset := by
  simp only [nextCluster, load16, h _ (Nat.le_succ _), h _ le_rfl]

theorem toNat_mod_sectorSize (w : Word) : (w % sectorSize).toNat = w.toNat % 512 :=
  BitVec.toNat_umod

/-- Both sectors are copied into `FAT` before the link is read, whatever it held. -/
theorem nextCluster_memcpy (disk : Disk) (fat : Bytes) (c : Word) :
    nextCluster
        (memcpy (memcpy fat 0 (disk (1 + (c + c / 2) / sectorSize)) 512) 512
          (disk (1 + (c + c / 2) / sectorSize + 1)) 512)
        c ((c + c / 2) % sectorSize) =
      fatLink disk c := by
  refine nextCluster_congr fun k hk => ?_
  rw [toNat_mod_sectorSize] at hk
  rw [memcpy_apply, memcpy_apply, twoSectors]
  by_cases hlt : k < 512
  · rw [if_neg (by omega), if_pos (by omega), if_pos hlt, Nat.sub_zero]
    rfl
  · rw [if_pos (by omega), if_neg hlt]
    rfl

/-- A call follows the link of the current cluster, or sets `eof` at a mark. -/
theorem fsysFatRead_file (disk : Disk) (r : Reading) (length : Word) :
    (fsysFatRead disk r length).file =
      if EndMark (fatLink disk r.file.currentCluster) then { r.file with eof := 1 }
      else { r.file with
        currentCluster := (fatLink disk r.file.currentCluster).setWidth 32 } := by
  unfold fsysFatRead
  dsimp only
  rw [nextCluster_memcpy]
  by_cases hend : 0xff8 ≤ fatLink disk r.file.currentCluster
  · rw [if_pos hend, if_pos (show EndMark _ from Or.inl hend)]
  by_cases hzero : fatLink disk r.file.currentCluster = 0
  · rw [if_neg hend, if_pos hzero, if_pos (show EndMark _ from Or.inr hzero)]
  · rw [if_neg hend, if_neg hzero, if_neg (show ¬EndMark _ from not_or.2 ⟨hend, hzero⟩)]

/-- A call stores the sector of the current cluster. -/
theorem fsysFatRead_buffer (disk : Disk) (r : Reading) (length : Word) (j : ℕ) :
    (fsysFatRead disk r length).buffer j =
      if j < 512 then disk (physSector r.file) j else r.buffer j := by
  have hbuffer : (fsysFatRead disk r length).buffer =
      memcpy r.buffer 0 (disk (physSector r.file)) 512 := by
    simp only [fsysFatRead, apply_ite Reading.buffer, ite_self]
  rw [hbuffer, memcpy_apply, Nat.zero_add, Nat.sub_zero]
  simp only [Nat.zero_le, true_and]

/-- The 12 bits of an odd cluster are the high ones, those of an even one the low ones. -/
theorem toNat_nextCluster (fat : Bytes) (c entryOffset : Word) :
    (nextCluster fat c entryOffset).toNat =
      if c.toNat % 2 = 0 then
        (fat entryOffset.toNat).toNat + (fat (entryOffset.toNat + 1)).toNat % 16 * 256
      else (fat entryOffset.toNat).toNat / 16 + (fat (entryOffset.toNat + 1)).toNat * 16 := by
  have hparity : c &&& 1 = 0 ↔ c.toNat % 2 = 0 := by
    rw [← BitVec.toNat_inj, BitVec.toNat_and]
    exact ⟨fun h => (Nat.and_one_is_mod _).symm.trans h, fun h => (Nat.and_one_is_mod _).trans h⟩
  have hload := toNat_load16 fat entryOffset.toNat
  have hlo := (fat entryOffset.toNat).isLt
  have hhi := (fat (entryOffset.toNat + 1)).isLt
  by_cases heven : c.toNat % 2 = 0
  · rw [if_pos heven, nextCluster, if_neg (not_not.2 (hparity.2 heven)),
      toNat_and_low (k := 12) _ rfl, hload]
    omega
  · rw [if_neg heven, nextCluster, if_pos (mt hparity.1 heven), BitVec.toNat_ushiftRight,
      Nat.shiftRight_eq_div_pow, hload]
    omega

/-- The code decodes the FAT12 entry of every cluster with a `FAT_Offset` that is a 32-bit
number. -/
theorem toNat_fatLink_of_offset (disk : Disk) {n : ℕ} (hn : n + n / 2 < 2 ^ 32) :
    (fatLink disk (BitVec.ofNat 32 n)).toNat = fatEntry disk n := by
  have hoff : (fatOffset (BitVec.ofNat 32 n)).toNat = n + n / 2 := by
    rw [fatOffset, BitVec.toNat_add, BitVec.toNat_udiv, BitVec.toNat_ofNat]
    show (n % 2 ^ 32 + n % 2 ^ 32 / 2) % 2 ^ 32 = _
    omega
  have hsector : 1 + fatOffset (BitVec.ofNat 32 n) / sectorSize =
      BitVec.ofNat 32 (1 + (n + n / 2) / 512) := by
    rw [← BitVec.toNat_inj, BitVec.toNat_add, BitVec.toNat_udiv, hoff, BitVec.toNat_ofNat]
    rfl
  have hbyte : ∀ d ≤ 1, (twoSectors disk (BitVec.ofNat 32 (1 + (n + n / 2) / 512))
      ((n + n / 2) % 512 + d)).toNat = fatByte disk (n + n / 2 + d) := by
    intro d hd
    rw [twoSectors, fatByte]
    split_ifs with hlt
    · rw [show (n + n / 2 + d) / 512 = (n + n / 2) / 512 by omega,
        show (n + n / 2 + d) % 512 = (n + n / 2) % 512 + d by omega]
    · rw [show (n + n / 2 + d) / 512 = (n + n / 2) / 512 + 1 by omega,
        show (n + n / 2 + d) % 512 = (n + n / 2) % 512 + d - 512 by omega, ← Nat.add_assoc,
        BitVec.ofNat_add (1 + (n + n / 2) / 512) 1]
      rfl
  rw [fatLink, toNat_nextCluster, toNat_mod_sectorSize, hoff, hsector, hbyte 1 le_rfl,
    show (n + n / 2) % 512 = (n + n / 2) % 512 + 0 from rfl, hbyte 0 (Nat.zero_le 1),
    BitVec.toNat_ofNat, Nat.mod_eq_of_lt (by omega : n < 2 ^ 32), fatEntry]
  rfl

/-- That is so of every cluster a directory entry or a link names. -/
theorem toNat_fatLink (disk : Disk) {n : ℕ} (hn : n < 2 ^ 16) :
    (fatLink disk (BitVec.ofNat 32 n)).toNat = fatEntry disk n :=
  toNat_fatLink_of_offset disk (by omega)

/-! ## Chains -/

/-- The clusters from one on, each linked to the next, and the last to an end mark. -/
inductive Chain (disk : Disk) : List ℕ → Prop where
  | last {c : ℕ} (hlast : 0xFF8 ≤ fatEntry disk c) : Chain disk [c]
  | link {c d : ℕ} {cs : List ℕ} (hlink : fatEntry disk c = d) (hlo : 2 ≤ d) (hhi : d ≤ 0xFF7)
      (hrest : Chain disk (d :: cs)) : Chain disk (c :: d :: cs)

namespace Chain

variable {disk : Disk}

/-- The links decide the chain of a cluster. -/
theorem unique {c : ℕ} {cs ds : List ℕ} (hcs : Chain disk (c :: cs)) (hds : Chain disk (c :: ds)) :
    cs = ds := by
  induction cs generalizing c ds with
  | nil =>
    cases hcs with
    | last hlast =>
      cases hds with
      | last _ => rfl
      | link hlink _ hhi _ => omega
  | cons d cs ih =>
    cases hcs with
    | link hlink hlo hhi hrest =>
      cases hds with
      | last hlast => omega
      | link hlink' _ _ hrest' =>
        obtain rfl := hlink.symm.trans hlink'
        rw [ih hrest hrest']

/-- The last cluster of a chain has an end mark. -/
theorem last_of_length {cs : List ℕ} (h : Chain disk cs) {i : ℕ} (hi : i < cs.length)
    (hlast : i + 1 = cs.length) : 0xFF8 ≤ fatEntry disk cs[i] := by
  induction h generalizing i with
  | last hend =>
    obtain rfl : i = 0 := Nat.lt_one_iff.1 hi
    exact hend
  | link hlink hlo hhi hrest ih =>
    cases i with
    | zero => simp at hlast
    | succ i => exact ih (Nat.lt_of_succ_lt_succ hi) (Nat.succ.inj hlast)

theorem of_append : ∀ {bs : List ℕ} {c : ℕ} {cs : List ℕ}, Chain disk (bs ++ c :: cs) →
    Chain disk (c :: cs)
  | [], _, _, h => h
  | [_], _, _, .link _ _ _ hrest => hrest
  | _ :: b :: bs, c, cs, .link _ _ _ hrest => @of_append (b :: bs) _ _ hrest

/-- A chain that ends does not come back to a cluster. -/
theorem nodup {cs : List ℕ} (h : Chain disk cs) : cs.Nodup := by
  induction h with
  | last _ => exact List.nodup_singleton _
  | link hlink hlo hhi hrest ih =>
    refine List.nodup_cons.2 ⟨fun hmem => ?_, ih⟩
    obtain ⟨as, bs, hsplit⟩ := List.append_of_mem hmem
    have hwhole := Chain.link hlink hlo hhi hrest
    have htail := of_append (hsplit ▸ hrest)
    have hlen := congrArg List.length (hwhole.unique htail)
    have hsplit := congrArg List.length hsplit
    simp only [List.length_append, List.length_cons] at hlen hsplit
    omega

end Chain

/-! ## The calls -/

/-- What a caller passes to `fsysFatRead` besides the file. -/
structure ReadCall where
  buffer : Bytes
  length : Word

/-- One call. -/
def readStep (disk : Disk) (r : Reading) (call : ReadCall) : Reading :=
  fsysFatRead disk { r with buffer := call.buffer } call.length

/-- The current cluster is `c`. -/
structure PointsTo (r : Reading) (c : ℕ) : Prop where
  currentCluster : r.file.currentCluster = BitVec.ofNat 32 c
  lt : c < 2 ^ 16

/-- The cluster of a directory entry. -/
theorem pointsTo_of_setWidth {r : Reading} {c : BitVec 16}
    (hc : r.file.currentCluster = c.setWidth 32) : PointsTo r c.toNat :=
  ⟨by rw [hc, BitVec.ofNat_toNat], c.isLt⟩

/-- The marks that end a file, as numbers. -/
theorem endMark_iff (e : BitVec 16) : EndMark e ↔ 0xFF8 ≤ e.toNat ∨ e.toNat = 0 := by
  rw [EndMark, BitVec.le_def, ← BitVec.toNat_inj]
  rfl

namespace PointsTo

variable {disk : Disk} {r : Reading} {c d : ℕ}

theorem physSector_eq (h : PointsTo r c) : physSector r.file = BitVec.ofNat 32 (31 + c) := by
  rw [physSector, h.currentCluster, BitVec.ofNat_add]
  bv_omega

/-- A call reads the sector of the cluster that the file is at. -/
theorem buffer (h : PointsTo r c) (disk : Disk) (length : Word) {j : ℕ} (hj : j < 512) :
    (fsysFatRead disk r length).buffer j = disk (BitVec.ofNat 32 (31 + c)) j := by
  rw [fsysFatRead_buffer, if_pos hj, ← h.physSector_eq]

theorem endMark_fatLink_iff (h : PointsTo r c) (disk : Disk) :
    EndMark (fatLink disk r.file.currentCluster) ↔
      0xFF8 ≤ fatEntry disk c ∨ fatEntry disk c = 0 := by
  rw [h.currentCluster, endMark_iff, toNat_fatLink disk h.lt]

/-- At the last cluster a call sets `eof`. -/
theorem file_last (h : PointsTo r c) (hlast : 0xFF8 ≤ fatEntry disk c) (length : Word) :
    (fsysFatRead disk r length).file = { r.file with eof := 1 } := by
  rw [fsysFatRead_file, if_pos ((h.endMark_fatLink_iff disk).2 (Or.inl hlast))]

/-- At any other cluster a call moves on to the next. -/
theorem file_link (h : PointsTo r c) (hlink : fatEntry disk c = d) (hlo : 2 ≤ d) (hhi : d ≤ 0xFF7)
    (length : Word) : (fsysFatRead disk r length).file =
      { r.file with currentCluster := BitVec.ofNat 32 d } := by
  have hnot : ¬EndMark (fatLink disk r.file.currentCluster) := by
    rw [h.endMark_fatLink_iff]
    omega
  have hnext : (fatLink disk r.file.currentCluster).setWidth 32 = BitVec.ofNat 32 d := by
    rw [← BitVec.ofNat_toNat, h.currentCluster, toNat_fatLink disk h.lt, hlink]
  rw [fsysFatRead_file, if_neg hnot, hnext]

/-- A call moves the file on to the next cluster. -/
theorem link (h : PointsTo r c) (hlink : fatEntry disk c = d) (hlo : 2 ≤ d) (hhi : d ≤ 0xFF7)
    (length : Word) : PointsTo (fsysFatRead disk r length) d :=
  ⟨by rw [h.file_link hlink hlo hhi length], by omega⟩

end PointsTo

/-- The file is open at cluster `c`. -/
structure At (r : Reading) (c : ℕ) : Prop extends PointsTo r c where
  eof : r.file.eof = 0

theorem At.link {r : Reading} {c d : ℕ} (h : At r c) {disk : Disk} (hlink : fatEntry disk c = d)
    (hlo : 2 ≤ d) (hhi : d ≤ 0xFF7) (length : Word) : At (fsysFatRead disk r length) d :=
  ⟨h.toPointsTo.link hlink hlo hhi length, by
    rw [h.file_link hlink hlo hhi length]
    exact h.eof⟩

/-- What the buffer holds does not matter. -/
theorem At.withBuffer {r : Reading} {c : ℕ} (h : At r c) (buffer : Bytes) :
    At { r with buffer := buffer } c :=
  ⟨⟨h.currentCluster, h.lt⟩, h.eof⟩

/-- The first calls move along the chain, one cluster a call. -/
theorem At.run {disk : Disk} : ∀ {cs : List ℕ}, Chain disk cs → ∀ {r : Reading},
    (∀ c ∈ cs.head?, At r c) → ∀ (calls : List ReadCall) (hi : calls.length < cs.length),
      At (GuardedRun.run (readStep disk) r calls) cs[calls.length]
  | _, .last _, r, h, calls, hi => by
    obtain rfl := List.length_eq_zero_iff.1 (Nat.lt_one_iff.1 hi)
    exact h _ rfl
  | _, .link hlink hlo hhi hrest, r, h, [], _ => h _ rfl
  | _, .link (c := c) (d := d) hlink hlo hhi hrest, r, h, call :: calls, hi => by
    have hnext : At (readStep disk r call) d :=
      ((h c rfl).withBuffer call.buffer).link hlink hlo hhi call.length
    have hlt := Nat.lt_of_succ_lt_succ hi
    exact At.run hrest (fun e he => Option.some.inj he ▸ hnext) calls hlt

/-- From cluster `c0` of a chain on, call `i + 1` delivers the sector of cluster `i`, each
cluster comes once, and `eof` is set by the last call and not before. -/
theorem fsysFatRead_delivers_chain {disk : Disk} {c0 : BitVec 16} {cs : List ℕ}
    (h : Chain disk (c0.toNat :: cs)) {r : Reading} (heof : r.file.eof = 0)
    (hc0 : r.file.currentCluster = c0.setWidth 32) :
    (c0.toNat :: cs).Nodup ∧ ∀ (calls : List ReadCall) (call : ReadCall)
      (hi : calls.length < (c0.toNat :: cs).length),
      (∀ j < 512, (run (readStep disk) r (calls ++ [call])).buffer j =
          disk (BitVec.ofNat 32 (31 + (c0.toNat :: cs)[calls.length])) j) ∧
        (run (readStep disk) r calls).file.eof = 0 ∧
        (calls.length + 1 = (c0.toNat :: cs).length →
          (run (readStep disk) r (calls ++ [call])).file.eof = 1) := by
  have hhead : ∀ c ∈ (c0.toNat :: cs).head?, At r c := fun c hc =>
    Option.some.inj hc ▸ ⟨pointsTo_of_setWidth hc0, heof⟩
  refine ⟨h.nodup, fun calls call hi => ?_⟩
  have hat := At.run h hhead calls hi
  have hcall := hat.withBuffer call.buffer
  rw [run_append, run_cons, run_nil, readStep]
  refine ⟨fun j hj => hcall.buffer disk call.length hj, hat.eof, fun hlast => ?_⟩
  rw [hcall.file_last (h.last_of_length hi hlast)]

/-- A FAT whose first bytes from `3` on are those given, on a disk that is zero elsewhere. -/
def fatDisk (bytes : List Byte) : Disk :=
  fun s k => if s = 1 ∧ 3 ≤ k then bytes.getD (k - 3) 0 else 0

/-- Clusters `2` and `3`. -/
def twoClusters : Disk :=
  fatDisk [0x03, 0xF0, 0xFF]

theorem chain_twoClusters : Chain twoClusters [2, 3] :=
  .link (by decide) (by decide) (by decide) (.last (by decide))

/-- A file that starts at a cluster, before anything is read. -/
def openedAt (c : Word) : Reading where
  state := ⟨fun _ => 0, []⟩
  file :=
    { flags := fsFile, fileLength := 0, id := 0, eof := 0, currentCluster := c, deviceId := 0x61 }
  buffer _ := 0

/-- Two calls read sectors `33` and `34`. -/
theorem fsysFatRead_delivers_twoClusters :
    [2, 3].Nodup ∧ ∀ (calls : List ReadCall) (call : ReadCall) (hi : calls.length < [2, 3].length),
      (∀ j < 512, (run (readStep twoClusters) (openedAt 2) (calls ++ [call])).buffer j =
          twoClusters (BitVec.ofNat 32 (31 + [2, 3][calls.length])) j) ∧
        (run (readStep twoClusters) (openedAt 2) calls).file.eof = 0 ∧
        (calls.length + 1 = [2, 3].length →
          (run (readStep twoClusters) (openedAt 2) (calls ++ [call])).file.eof = 1) :=
  have hchain : Chain twoClusters ((2 : BitVec 16).toNat :: [3]) := chain_twoClusters
  fsysFatRead_delivers_chain hchain rfl rfl

/-! ## The loop of a reader -/

/-- The link of `c` leads to `d`. -/
def Linked (disk : Disk) (c d : Word) : Prop :=
  ¬EndMark (fatLink disk c) ∧ d = (fatLink disk c).setWidth 32

/-- The loop ends at the end of the file, or when the rest of it ends. -/
theorem isSome_readLoop_succ (disk : Disk) (length : Word) (n : ℕ) (r : Reading) :
    (readLoop disk length (n + 1) r).isSome ↔
      r.file.eof = 1 ∨ (readLoop disk length n (fsysFatRead disk r length)).isSome := by
  rw [readLoop]
  by_cases heof : r.file.eof = 1
  · rw [if_pos heof]
    exact iff_of_true rfl (Or.inl heof)
  · rw [if_neg heof, Option.isSome_map]
    exact (or_iff_right heof).symm

/-- The next round reads the linked cluster. -/
theorem file_of_linked {disk : Disk} {r : Reading} {d : Word}
    (h : Linked disk r.file.currentCluster d) (length : Word) :
    (fsysFatRead disk r length).file = { r.file with currentCluster := d } := by
  rw [fsysFatRead_file, if_neg h.1, h.2]

/-- When it ends, so do the links from its cluster. -/
theorem acc_of_isSome_readLoop {disk : Disk} {length : Word} (n : ℕ) {r : Reading}
    (heof : r.file.eof ≠ 1) (h : (readLoop disk length n r).isSome) :
    Acc (flip (Linked disk)) r.file.currentCluster := by
  induction n generalizing r with
  | zero => simp [readLoop] at h
  | succ n ih =>
    have hrest := ((isSome_readLoop_succ disk length n r).1 h).resolve_left heof
    refine ⟨_, fun d hd => ?_⟩
    have hfile := file_of_linked hd length
    have hacc := ih (by rw [hfile]; exact heof) hrest
    rwa [hfile] at hacc

theorem exists_readLoop_of_acc {disk : Disk} {length c : Word} (h : Acc (flip (Linked disk)) c) :
    ∀ r : Reading, r.file.currentCluster = c → ∃ n, (readLoop disk length n r).isSome := by
  induction h with
  | intro c _ ih =>
    rintro r rfl
    by_cases hend : EndMark (fatLink disk r.file.currentCluster)
    · have hdone : (fsysFatRead disk r length).file.eof = 1 := by
        rw [fsysFatRead_file, if_pos hend]
      exact ⟨2, (isSome_readLoop_succ disk length 1 r).2
        (Or.inr ((isSome_readLoop_succ disk length 0 _).2 (Or.inl hdone)))⟩
    · have hlink : Linked disk r.file.currentCluster _ := ⟨hend, rfl⟩
      obtain ⟨n, hn⟩ := ih _ hlink (fsysFatRead disk r length)
        (by rw [file_of_linked hlink length])
      exact ⟨n + 1, (isSome_readLoop_succ disk length n r).2 (Or.inr hn)⟩

/-- The loop `while (file.eof != 1)` ends exactly when no cluster that the links lead to from
the current one leads back to itself. -/
theorem readLoop_terminates_iff (disk : Disk) (length : Word) (r : Reading) :
    (∃ n, (readLoop disk length n r).isSome) ↔
      r.file.eof = 1 ∨ AcyclicFrom (Linked disk) r.file.currentCluster := by
  constructor
  · rintro ⟨n, hn⟩
    by_cases heof : r.file.eof = 1
    · exact Or.inl heof
    · exact Or.inr (acyclicFrom_of_acc (acc_of_isSome_readLoop n heof hn))
  · rintro (heof | hac)
    · exact ⟨1, (isSome_readLoop_succ disk length 0 r).2 (Or.inl heof)⟩
    · exact exists_readLoop_of_acc (acc_of_acyclicFrom hac) r rfl

/-- Cluster `2` is linked to itself. -/
theorem not_readLoop_terminates :
    ¬∀ (disk : Disk) (length : Word) (r : Reading), ∃ n, (readLoop disk length n r).isSome := by
  intro h
  obtain ⟨n, hn⟩ := h (fatDisk [0x02]) 512 (openedAt 2)
  have hacc := acc_of_isSome_readLoop n (by decide) hn
  have hself : Linked (fatDisk [0x02]) 2 2 := ⟨by decide, by decide⟩
  exact not_acyclicFrom_of_self hself (acyclicFrom_of_acc hacc)

end Scorch
