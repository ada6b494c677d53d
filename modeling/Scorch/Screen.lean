import Scorch.Lib.ForwardCopy
import Scorch.Lib.StoreLog
import Scorch.Strings

/-!
# The text screen

`putch`, `puts` and `scroll` of `scrn.c`. The memory of the screen is bytes, two for every
cell, and every byte that is written is logged by its place. `int` variables are words, and
comparisons of them are signed.

The hardware cursor is moved by port writes, which are logged.
-/

open ByteMemory

namespace Scorch

/-! ## Screen memory -/

/-- The bytes behind `textmemptr`, with the places that have been written. -/
abbrev Video := StoreLog Byte

namespace Video

/-- The cell with number `i`. -/
def cell (v : Video) (i : ℕ) : BitVec 16 :=
  load16 v.mem (2 * i)

/-- Write a cell. -/
def store16 (v : Video) (i : ℕ) (w : BitVec 16) : Video :=
  (v.store (2 * i) (w.setWidth 8)).store (2 * i + 1) ((w >>> 8).setWidth 8)

/-- The first `n` rounds of `memcpy`, inside the memory of the screen. -/
def memcpy (dst src : ℕ) (v : Video) : ℕ → Video
  | 0 => v
  | n + 1 => (memcpy dst src v n).store (dst + n) ((memcpy dst src v n).mem (src + n))

/-- The first `n` rounds of `memsetw`, from cell `i` on. -/
def memsetw (i : ℕ) (val : BitVec 16) (v : Video) : ℕ → Video
  | 0 => v
  | n + 1 => store16 (memsetw i val v n) (i + n) val

section Stores

variable {p : ℕ → Prop} {v : Video}

theorem within_store16 {i : ℕ} (hlo : p (2 * i)) (hhi : p (2 * i + 1)) (h : v.Within p)
    (w : BitVec 16) : (v.store16 i w).Within p :=
  StoreLog.within_store.2 ⟨StoreLog.within_store.2 ⟨h, hlo⟩, hhi⟩

/-- `memcpy` stores to its destination only. -/
theorem within_memcpy {dst n : ℕ} (hp : ∀ i < n, p (dst + i)) (h : v.Within p) (src : ℕ) :
    (memcpy dst src v n).Within p := by
  induction n with
  | zero => exact h
  | succ n ih =>
    exact StoreLog.within_store.2 ⟨ih fun i hi => hp i (by omega), hp n (Nat.lt_succ_self n)⟩

/-- `memsetw` stores to so many cells. -/
theorem within_memsetw {i n : ℕ} (hp : ∀ k, 2 * i ≤ k → k < 2 * (i + n) → p k)
    (h : v.Within p) (val : BitVec 16) : (memsetw i val v n).Within p := by
  induction n with
  | zero => exact h
  | succ n ih =>
    have hrest := ih fun k hlo hhi => hp k hlo (by omega)
    exact within_store16 (hp _ (by omega) (by omega)) (hp _ (by omega) (by omega)) hrest val

end Stores

/-! ## Cells -/

theorem cell_store16 (v : Video) (i j : ℕ) (w : BitVec 16) :
    (v.store16 i w).cell j = if j = i then w else v.cell j := by
  split_ifs with h
  · rw [h]
    refine load16_eq ?_ ?_
    · simp [store16, StoreLog.store]
    · simp [store16, StoreLog.store]
  · refine load16_congr fun k hlo hhi => ?_
    rw [store16, StoreLog.mem_store_apply, StoreLog.mem_store_apply, if_neg (by omega),
      if_neg (by omega)]

/-- `memcpy` copies forward, so overlapping places see what was copied before. -/
theorem mem_memcpy (dst src : ℕ) (v : Video) (n : ℕ) :
    (memcpy dst src v n).mem = ForwardCopy.copy dst src v.mem n := by
  induction n with
  | zero => rfl
  | succ n ih => rw [memcpy, StoreLog.store, ih, ForwardCopy.copy]

/-- A copy of cells to the front of the memory. -/
theorem cell_memcpy (src n : ℕ) (v : Video) (j : ℕ) :
    (memcpy 0 (2 * src) v (2 * n)).cell j = if j < n then v.cell (j + src) else v.cell j := by
  have hbyte : ∀ k, (memcpy 0 (2 * src) v (2 * n)).mem k =
      if k < 2 * n then v.mem (k + 2 * src) else v.mem k := by
    intro k
    rw [mem_memcpy, ForwardCopy.copy_apply (Nat.zero_le _)]
    simp
  unfold cell load16
  rw [hbyte, hbyte]
  by_cases h : j < n
  · rw [if_pos (by omega), if_pos (by omega), if_pos h,
      show 2 * j + 1 + 2 * src = 2 * (j + src) + 1 by omega,
      show 2 * j + 2 * src = 2 * (j + src) by omega]
  · rw [if_neg (by omega), if_neg (by omega), if_neg h]

/-- `memsetw` changes the cells of its range. -/
theorem cell_memsetw (i : ℕ) (val : BitVec 16) (v : Video) (n j : ℕ) :
    (memsetw i val v n).cell j = if i ≤ j ∧ j < i + n then val else v.cell j := by
  induction n with
  | zero => rw [memsetw, if_neg (by omega)]
  | succ n ih =>
    rw [memsetw, cell_store16, ih]
    by_cases hj : j = i + n
    · rw [if_pos hj, if_pos (by omega)]
    · rw [if_neg hj]
      refine if_congr ?_ rfl rfl
      omega

end Video

/-! ## Printing -/

/-- The variables of `scrn.c`, with the memory of the screen and the port writes. -/
structure Screen where
  video : Video
  attrib : Word
  csrX : Word
  csrY : Word
  ports : List (BitVec 16 × Byte)

namespace Screen

/-- `scroll` -/
def scroll (s : Screen) : Screen :=
  let blank := 0x20 ||| (s.attrib <<< 8)
  if (25 : Word).sle s.csrY then
    let temp := s.csrY - 25 + 1
    let video := s.video.memcpy 0 (2 * (temp * 80).toNat) ((25 - temp) * 80 * 2).toNat
    let video := video.memsetw ((25 - temp) * 80).toNat (blank.setWidth 16) 80
    { s with video := video, csrY := 24 }
  else s

/-- `move_csr` -/
def moveCsr (s : Screen) : Screen :=
  let temp := s.csrY * 80 + s.csrX
  let writes : List (BitVec 16 × Byte) :=
    [(0x3D4, 14), (0x3D5, (temp >>> 8).setWidth 8), (0x3D4, 15), (0x3D5, temp.setWidth 8)]
  { s with ports := s.ports ++ writes }

/-- `*where = c` for the place of the cursor. -/
def write (s : Screen) (c : Word) : Screen :=
  { s with video := s.video.store16 (s.csrY * 80 + s.csrX).toNat (c.setWidth 16) }

/-- What `putch` does with a character, before it looks where the cursor is. -/
def putchChar (s : Screen) (c : Byte) : Screen :=
  let att := s.attrib <<< 8
  if c = 0x08 then
    if s.csrX ≠ 0 then
      let s := { s with csrX := s.csrX - 1 }
      s.write (0x20 ||| att)
    else s
  else if c = 0x09 then { s with csrX := (s.csrX + 8) &&& ~~~(8 - 1) }
  else if c = 0x0D then { s with csrX := 0 }
  else if c = 0x0A then { s with csrX := 0, csrY := s.csrY + 1 }
  else if (0x20 : Byte).sle c then
    let s := s.write (c.signExtend 32 ||| att)
    { s with csrX := s.csrX + 1 }
  else s

/-- The next line, behind the last column. -/
def wrap (s : Screen) : Screen :=
  if (80 : Word).sle s.csrX then { s with csrX := 0, csrY := s.csrY + 1 } else s

/-- `putch` -/
def putch (s : Screen) (c : Byte) : Screen :=
  (s.putchChar c).wrap.scroll.moveCsr

/-- The loop of `puts`, with at most `n` rounds. -/
def putsFrom (text : CString) : ℕ → ℕ → Screen → Screen
  | 0, _, s => s
  | n + 1, i, s =>
    if i < strlen text then putsFrom text n (i + 1) (s.putch (text.bytes i)) else s

/-- `puts` -/
def puts (s : Screen) (text : CString) : Screen :=
  putsFrom text (strlen text) 0 s

/-- The loop of `puts` prints one character after another. -/
theorem putsFrom_eq_foldl (text : CString) (n i : ℕ) (s : Screen) (h : i + n = strlen text) :
    putsFrom text n i s = ((List.range' i n).map text.bytes).foldl putch s := by
  induction n generalizing i s with
  | zero => rfl
  | succ n ih =>
    rw [putsFrom, if_pos (by omega), ih (i + 1) _ (by omega), List.range'_succ, List.map_cons,
      List.foldl_cons]

/-- `puts` prints the characters one after the other. -/
theorem puts_eq_foldl (s : Screen) (text : CString) :
    s.puts text = text.content.foldl putch s := by
  rw [puts, putsFrom_eq_foldl text _ _ s (Nat.zero_add _), ← List.range_eq_range']
  rfl

end Screen

end Scorch
