import Scorch.Fat12

/-!
# Short names

What `ToDosFileName` makes of a name of 8.3 characters. Its first loop runs to the length of
the name less one, so it drops the last character of a name without an extension. The
loop over the extension takes three steps whatever the extension is, so with an extension
of one character it leaves the string.

The two together are all that goes wrong (`makesDosName_iff`).

The loops are compared with what they should write one at a time (`BaseEnds.copyBase_eq`,
`copyExt_apply`, `upperExt_apply`), each as an equation for every place of the array, and the
bytes of the name that they read are listed beside them.
-/

open ByteMemory

namespace Scorch

/-! ## The bytes that are read -/

/-- The last index of the first loop and one more, as the code computes it. -/
def baseLimit (filename : CString) : ℕ :=
  (BitVec.ofNat 32 (strlen filename) - 1).toNat

/-- The bytes of the name that the first loop of `ToDosFileName` reads. Every test of its
condition measures the name of length `len`. -/
def copyBaseReads (filename : Bytes) (len limit : ℕ) : ℕ → ℕ → List ℕ
  | 0, _ => List.range (len + 1)
  | n + 1, i =>
    List.range (len + 1) ++
      if i < limit then
        if filename i = 0x2e ∨ i = 8 then [i]
        else i :: copyBaseReads filename len limit n (i + 1)
      else []

/-- The bytes that the loop over the extension reads. -/
def copyExtReads : ℕ → ℕ → List ℕ
  | 0, _ => []
  | n + 1, i => (i + 1) :: copyExtReads n (i + 1)

/-- All bytes of the name that `toDosFileName` reads. -/
def toDosFileNameReads (filename : CString) (fNameLength : Word) : List ℕ :=
  if 11 < fNameLength then []
  else
    let i := (copyBase filename.bytes (baseLimit filename) fNameLength.toNat 0 fun _ => 0).1
    copyBaseReads filename.bytes (strlen filename) (baseLimit filename) fNameLength.toNat 0 ++
      i :: if filename.bytes i = 0x2e then copyExtReads 3 i else []

/-! ## The loops -/

/-- The first loop ends at character `stop`. -/
structure BaseEnds (filename : CString) (stop : ℕ) : Prop where
  le : stop ≤ 8
  before : ∀ i < stop, i < baseLimit filename ∧ filename.bytes i ≠ 0x2e
  here : stop < baseLimit filename → filename.bytes stop = 0x2e ∨ stop = 8

section Loops

variable {filename : CString} {stop : ℕ}

/-- The first loop copies the base in capitals and stops at its end. -/
theorem BaseEnds.copyBase_eq (h : BaseEnds filename stop) (n i : ℕ) (hi : i ≤ stop)
    (hn : stop < i + n) (fname : Bytes) :
    copyBase filename.bytes (baseLimit filename) n i fname =
      (stop, fun k => if i ≤ k ∧ k < stop then toupper (filename.bytes k) else fname k) := by
  induction n generalizing i fname with
  | zero => omega
  | succ n ih =>
    rw [copyBase]
    rcases Nat.eq_or_lt_of_le hi with rfl | hlt
    · have hnone : (fun k => if i ≤ k ∧ k < i then toupper (filename.bytes k) else fname k) =
          fname := funext fun k => if_neg (by omega)
      rw [hnone]
      split_ifs with hlimit hdot
      · rfl
      · exact absurd (h.here hlimit) hdot
      · rfl
    · obtain ⟨hlimit, hdot⟩ := h.before i hlt
      have hle := h.le
      have hgo : ¬(filename.bytes i = 0x2e ∨ i = 8) := not_or.2 ⟨hdot, by omega⟩
      rw [if_pos hlimit, if_neg hgo, ih (i + 1) hlt (by omega)]
      refine Prod.ext rfl (funext fun k => ?_)
      dsimp only
      by_cases hk : k = i
      · rw [hk, if_neg (by omega), if_pos ⟨le_rfl, hlt⟩, Function.update_self]
      · rw [Function.update_of_ne hk]
        refine if_congr ?_ rfl rfl
        omega

/-- The second loop copies the bytes behind the point, those that are zero excepted. -/
theorem copyExt_apply (filename : Bytes) (n k i : ℕ) (fname : Bytes) (j : ℕ) :
    copyExt filename n k i fname j =
      if (8 + k ≤ j ∧ j < 8 + k + n) ∧ filename (i + 1 + (j - (8 + k))) ≠ 0 then
        filename (i + 1 + (j - (8 + k)))
      else fname j := by
  induction n generalizing k i fname with
  | zero => rw [copyExt, if_neg (by omega)]
  | succ n ih =>
    rw [copyExt, ih]
    by_cases hj : j = 8 + k
    · rw [if_neg (by omega), hj, Nat.sub_self, Nat.add_zero]
      by_cases hzero : filename (i + 1) = 0
      · rw [if_neg (not_not.2 hzero), if_neg (fun h => h.2 hzero)]
      · rw [if_pos hzero, if_pos ⟨by omega, hzero⟩, Function.update_self]
    · have hrest : (if filename (i + 1) ≠ 0 then Function.update fname (8 + k) (filename (i + 1))
          else fname) j = fname j := by
        split_ifs
        · exact Function.update_of_ne hj _ _
        · rfl
      rw [hrest]
      by_cases hlt : 8 + k ≤ j
      · rw [show i + 1 + 1 + (j - (8 + (k + 1))) = i + 1 + (j - (8 + k)) by omega]
        refine if_congr (and_congr_left' ?_) rfl rfl
        omega
      · rw [if_neg (by omega), if_neg (by omega)]

/-- The third loop turns the bytes of the extension into capitals. -/
theorem upperExt_apply (n i : ℕ) (fname : Bytes) (j : ℕ) :
    upperExt n i fname j = if 8 + i ≤ j ∧ j < 8 + i + n then toupper (fname j) else fname j := by
  induction n generalizing i fname with
  | zero => rw [upperExt, if_neg (by omega)]
  | succ n ih =>
    rw [upperExt, ih]
    by_cases hj : j = 8 + i
    · rw [if_neg (by omega), if_pos (by omega), hj, Function.update_self]
    · rw [Function.update_of_ne hj]
      refine if_congr ?_ rfl rfl
      omega

/-- The character of the extension that goes to place `8 + m`. -/
def extChar (filename : CString) (stop m : ℕ) : Byte :=
  if filename.bytes stop = 0x2e ∧ filename.bytes (stop + 1 + m) ≠ 0 then
    filename.bytes (stop + 1 + m)
  else 0x20

/-- The loop over the extension, if it is run, fills the last three places. -/
theorem extended_apply {fname : Bytes} (hspaces : ∀ j, 8 ≤ j → j < 11 → fname j = 0x20) {k : ℕ}
    (hk : k < 11) :
    (if filename.bytes stop = 0x2e then copyExt filename.bytes 3 0 stop fname else fname) k =
      if k < 8 then fname k else extChar filename stop (k - 8) := by
  by_cases hdot : filename.bytes stop = 0x2e
  · rw [if_pos hdot, copyExt_apply, extChar]
    by_cases hlo : k < 8
    · rw [if_neg (by omega), if_pos hlo]
    · rw [if_neg hlo, hspaces k (by omega) hk]
      exact if_congr (and_congr_left' (iff_of_true (by omega) hdot)) rfl rfl
  · have hnone : extChar filename stop (k - 8) = 0x20 := if_neg fun h => hdot h.1
    rw [if_neg hdot, hnone]
    split_ifs with hlo
    · rfl
    · exact hspaces k (by omega) hk

/-- The name that is made, by the place where the first loop ends. -/
theorem BaseEnds.toDosFileName_apply (h : BaseEnds filename stop) (fname : Bytes) {k : ℕ}
    (hk : k < 11) :
    toDosFileName filename fname 11 k =
      if k < 8 then if k < stop then toupper (filename.bytes k) else 0x20
      else toupper (extChar filename stop (k - 8)) := by
  have heleven : (11 : Word).toNat = 11 := rfl
  have hle := h.le
  have hbase := h.copyBase_eq 11 0 (Nat.zero_le _) (by omega)
  rw [baseLimit] at hbase
  rw [toDosFileName, if_neg (by decide), heleven]
  dsimp only
  rw [hbase, upperExt_apply]
  dsimp only
  rw [extended_apply (fun j hlo hj => by rw [if_neg (by omega), if_pos hj]) hk]
  by_cases hlo : k < 8
  · rw [if_neg (by omega), if_pos hlo, if_pos hlo, if_pos hk]
    exact if_congr (by omega) rfl rfl
  · rw [if_pos (by omega), if_neg hlo, if_neg hlo]

/-- The first loop reads nothing behind the terminator. -/
theorem BaseEnds.le_of_mem_copyBaseReads (h : BaseEnds filename stop)
    (hlen : stop ≤ strlen filename) (n i : ℕ) (hi : i ≤ stop) {k : ℕ}
    (hk : k ∈ copyBaseReads filename.bytes (strlen filename) (baseLimit filename) n i) :
    k ≤ strlen filename := by
  induction n generalizing i with
  | zero => exact Nat.le_of_lt_succ (List.mem_range.1 hk)
  | succ n ih =>
    rw [copyBaseReads, List.mem_append] at hk
    rcases hk with hk | hk
    · exact Nat.le_of_lt_succ (List.mem_range.1 hk)
    · split_ifs at hk with hlimit hend
      · rw [List.mem_singleton] at hk
        omega
      · rcases List.mem_cons.1 hk with rfl | hk
        · omega
        · have hne : i ≠ stop := fun heq => hend (heq ▸ h.here (heq ▸ hlimit))
          exact ih (i + 1) (by omega) hk
      · simp at hk

/-- The second loop reads so many bytes behind the point, whatever they are. -/
theorem mem_copyExtReads (n i k : ℕ) : k ∈ copyExtReads n i ↔ i + 1 ≤ k ∧ k ≤ i + n := by
  induction n generalizing i with
  | zero =>
    rw [copyExtReads]
    exact iff_of_false List.not_mem_nil fun hand => by omega
  | succ n ih =>
    rw [copyExtReads, List.mem_cons, ih]
    omega

/-- The string is left only behind a dot. -/
theorem BaseEnds.reads_iff (h : BaseEnds filename stop) (hlen : stop ≤ strlen filename) :
    (∀ k ∈ toDosFileNameReads filename 11, k ≤ strlen filename) ↔
      (filename.bytes stop = 0x2e → stop + 3 ≤ strlen filename) := by
  have heleven : (11 : Word).toNat = 11 := rfl
  have hle := h.le
  rw [toDosFileNameReads, if_neg (by decide), heleven]
  dsimp only
  rw [h.copyBase_eq 11 0 (Nat.zero_le _) (by omega)]
  constructor
  · intro hreads hdot
    refine hreads _ (List.mem_append_right _ (List.mem_cons_of_mem _ ?_))
    rw [if_pos hdot, mem_copyExtReads]
    omega
  · intro hdot k hk
    rcases List.mem_append.1 hk with hk | hk
    · exact h.le_of_mem_copyBaseReads hlen 11 0 (Nat.zero_le _) hk
    · rcases List.mem_cons.1 hk with rfl | hk
      · exact hlen
      · split_ifs at hk with hd
        · rw [mem_copyExtReads] at hk
          exact hk.2.trans (hdot hd)
        · simp at hk

end Loops

/-! ## Names of 8.3 characters -/

/-- One to eight characters, and an extension of up to three. -/
structure ShortName where
  base : List Byte
  ext : List Byte
  base_ne : base ≠ []
  base_le : base.length ≤ 8
  base_chars : ∀ c ∈ base, c ≠ 0 ∧ c ≠ 0x2e
  ext_le : ext.length ≤ 3
  ext_chars : ∀ c ∈ ext, c ≠ 0

namespace ShortName

variable (name : ShortName)

/-- The characters of the name, with a dot before an extension. -/
def spelled : List Byte :=
  if name.ext = [] then name.base else name.base ++ 0x2e :: name.ext

/-- Upper-case characters, and spaces up to `width`. -/
def field (l : List Byte) (width : ℕ) : List Byte :=
  l.map toupper ++ List.replicate (width - l.length) 0x20

/-- The name as it stands in a directory entry. -/
def dosName : List Byte :=
  field name.base 8 ++ field name.ext 3

/-- A field is the capitals of its characters, filled up with spaces. -/
theorem getD_field {l : List Byte} {width k : ℕ} (hl : l.length ≤ width) (hk : k < width) :
    (field l width).getD k 0 = if k < l.length then toupper (l.getD k 0) else 0x20 := by
  rw [field, List.getD_eq_getElem?_getD]
  split_ifs with hlt
  · rw [List.getElem?_append_left (by simpa using hlt)]
    simp [hlt]
  · rw [List.getElem?_append_right (by simpa using hlt)]
    have hpad : k - l.length < width - l.length := by omega
    simp [hpad]

theorem length_field {l : List Byte} {width : ℕ} (hl : l.length ≤ width) :
    (field l width).length = width := by
  simp [field, hl]

/-- A name of a directory entry has eleven bytes. -/
theorem length_dosName : name.dosName.length = 11 := by
  rw [dosName, List.length_append, length_field name.base_le, length_field name.ext_le]

/-- Eight bytes of the base and three of the extension. -/
theorem getD_dosName {k : ℕ} (hk : k < 11) :
    name.dosName.getD k 0 =
      if k < 8 then if k < name.base.length then toupper (name.base.getD k 0) else 0x20
      else if k - 8 < name.ext.length then toupper (name.ext.getD (k - 8) 0) else 0x20 := by
  have hlen := length_field name.base_le
  rw [dosName]
  split_ifs with hlo hbase hext
  · rw [List.getD_append _ _ _ _ (by omega), getD_field name.base_le hlo, if_pos hbase]
  · rw [List.getD_append _ _ _ _ (by omega), getD_field name.base_le hlo, if_neg hbase]
  · rw [List.getD_append_right _ _ _ _ (by omega), hlen, getD_field name.ext_le (by omega),
      if_pos hext]
  · rw [List.getD_append_right _ _ _ _ (by omega), hlen, getD_field name.ext_le (by omega),
      if_neg hext]

theorem base_pos : 0 < name.base.length :=
  List.length_pos_iff.2 name.base_ne

theorem getD_base_ne {k : ℕ} (hk : k < name.base.length) : name.base.getD k 0 ≠ 0x2e := by
  rw [List.getD_eq_getElem _ _ hk]
  exact (name.base_chars _ (List.getElem_mem hk)).2

/-- No byte of the extension is a terminator. -/
theorem getD_ext_ne {k : ℕ} (hk : k < name.ext.length) : name.ext.getD k 0 ≠ 0 := by
  rw [List.getD_eq_getElem _ _ hk]
  exact name.ext_chars _ (List.getElem_mem hk)

end ShortName

/-- The name is made right from the string, and only the string is read. -/
structure MakesDosName (name : ShortName) (filename : CString) (fname : Bytes) : Prop where
  stored : (List.range 11).map (toDosFileName filename fname 11) = name.dosName
  reads : ∀ k ∈ toDosFileNameReads filename 11, k ≤ strlen filename

theorem toupper_eq_space_iff (c : Byte) : toupper c = 0x20 ↔ c = 0x20 := by
  revert c
  decide

section Makes

variable {name : ShortName} {filename : CString} {fname : Bytes}

/-- The limit of the first loop is the last byte of the name. -/
theorem baseLimit_eq (hpos : 0 < strlen filename) (hlt : strlen filename < 2 ^ 32) :
    baseLimit filename = strlen filename - 1 := by
  have hone : (1 : Word).toNat = 1 := rfl
  rw [baseLimit, BitVec.toNat_sub, BitVec.toNat_ofNat, hone]
  omega

/-- Without an extension the first loop ends before the last character. -/
theorem baseEnds_of_ext_nil (h : filename.content = name.spelled) (hext : name.ext = []) :
    BaseEnds filename (name.base.length - 1) := by
  rw [ShortName.spelled, if_pos hext] at h
  have hlen := CString.strlen_of_content h
  have hpos := name.base_pos
  have hle := name.base_le
  have hlimit : baseLimit filename = name.base.length - 1 := by
    rw [baseLimit_eq (by omega) (by omega), hlen]
  refine ⟨by omega, fun i hi => ⟨by omega, ?_⟩, fun hlt => by omega⟩
  rw [CString.bytes_of_content h (by omega)]
  exact name.getD_base_ne (by omega)

/-- With an extension it ends at the dot. -/
theorem baseEnds_of_ext (h : filename.content = name.spelled) (hext : name.ext ≠ []) :
    BaseEnds filename name.base.length ∧ filename.bytes name.base.length = 0x2e ∧
      ∀ m ≤ name.ext.length, filename.bytes (name.base.length + 1 + m) = name.ext.getD m 0 := by
  rw [ShortName.spelled, if_neg hext] at h
  have hlen := CString.strlen_of_content h
  have hpos := List.length_pos_iff.2 hext
  have hle := name.base_le
  have hext_le := name.ext_le
  rw [List.length_append, List.length_cons] at hlen
  have hlimit : baseLimit filename = name.base.length + name.ext.length := by
    rw [baseLimit_eq (by omega) (by omega), hlen]
    omega
  have hchar : ∀ i ≤ name.base.length + (name.ext.length + 1),
      filename.bytes i = (name.base ++ 0x2e :: name.ext).getD i 0 := fun i hi =>
    CString.bytes_of_content h (by rwa [List.length_append, List.length_cons])
  have hdot : filename.bytes name.base.length = 0x2e := by
    rw [hchar _ (by omega), List.getD_append_right _ _ _ _ le_rfl, Nat.sub_self,
      List.getD_cons_zero]
  refine ⟨⟨hle, fun i hi => ⟨by omega, ?_⟩, fun _ => Or.inl hdot⟩, hdot, fun m hm => ?_⟩
  · rw [hchar i (by omega), List.getD_append _ _ _ _ hi]
    exact name.getD_base_ne hi
  · rw [hchar _ (by omega), List.getD_append_right _ _ _ _ (by omega),
      show name.base.length + 1 + m - name.base.length = m + 1 by omega, List.getD_cons_succ]

/-- The last character is missing, so it has to be a space. -/
theorem makesDosName_iff_of_ext_nil (h : filename.content = name.spelled) (hext : name.ext = [])
    (fname : Bytes) :
    MakesDosName name filename fname ↔ name.base.getLast name.base_ne = 0x20 := by
  have hends := baseEnds_of_ext_nil h hext
  have hpos := name.base_pos
  have hle := name.base_le
  have hspell : name.spelled = name.base := if_pos hext
  rw [hspell] at h
  have hlen := CString.strlen_of_content h
  have hlast : name.base.getD (name.base.length - 1) 0 = name.base.getLast name.base_ne := by
    rw [List.getD_eq_getElem _ _ (by omega), List.getLast_eq_getElem]
  have hchar : ∀ k < name.base.length, filename.bytes k = name.base.getD k 0 := fun k hk =>
    CString.bytes_of_content h hk.le
  have hdot : filename.bytes (name.base.length - 1) ≠ 0x2e := by
    rw [hchar _ (by omega)]
    exact name.getD_base_ne (by omega)
  -- The loop stopped at the last character, which is no point, so there is no extension.
  have hspace : ∀ m, extChar filename (name.base.length - 1) m = 0x20 := fun m =>
    if_neg fun hd => hdot hd.1
  rw [← hlast, ← toupper_eq_space_iff]
  constructor
  · intro hmakes
    have hstored := (map_range_eq_iff name.length_dosName).1 hmakes.stored
      (name.base.length - 1) (by omega)
    have hlo : name.base.length - 1 < 8 := by omega
    have hin : name.base.length - 1 < name.base.length := by omega
    rw [hends.toDosFileName_apply fname (by omega), name.getD_dosName (by omega), if_pos hlo,
      if_neg (lt_irrefl _), if_pos hlo, if_pos hin] at hstored
    exact hstored.symm
  · intro hup
    refine ⟨(map_range_eq_iff name.length_dosName).2 fun k hk => ?_,
      (hends.reads_iff (by omega)).2 fun hd => absurd hd hdot⟩
    rw [hends.toDosFileName_apply fname hk, name.getD_dosName hk, hext, hspace]
    refine if_congr Iff.rfl ?_ rfl
    by_cases hk : k < name.base.length - 1
    · rw [if_pos hk, if_pos (by omega), hchar k (by omega)]
    · rw [if_neg hk]
      split_ifs with hlt
      · rw [show k = name.base.length - 1 by omega, hup]
      · rfl

/-- An extension of one character is read behind the terminator. -/
theorem makesDosName_iff_of_ext (h : filename.content = name.spelled) (hext : name.ext ≠ [])
    (fname : Bytes) : MakesDosName name filename fname ↔ 2 ≤ name.ext.length := by
  obtain ⟨hends, hdot, hchar⟩ := baseEnds_of_ext h hext
  have hspell : name.spelled = name.base ++ 0x2e :: name.ext := if_neg hext
  have hpos := List.length_pos_iff.2 hext
  have hext_le := name.ext_le
  have hlen := CString.strlen_of_content h
  have hbase : ∀ k < name.base.length, filename.bytes k = name.base.getD k 0 := fun k hk => by
    rw [CString.bytes_of_content h (by rw [hspell, List.length_append]; omega), hspell,
      List.getD_append _ _ _ _ hk]
  rw [hspell, List.length_append, List.length_cons] at hlen
  constructor
  · intro hmakes
    have hreads := (hends.reads_iff (by omega)).1 hmakes.reads hdot
    omega
  · intro htwo
    refine ⟨(map_range_eq_iff name.length_dosName).2 fun k hk => ?_,
      (hends.reads_iff (by omega)).2 fun _ => by omega⟩
    rw [hends.toDosFileName_apply fname hk, name.getD_dosName hk]
    by_cases hlo : k < 8
    · rw [if_pos hlo, if_pos hlo]
      split_ifs with hlt
      · rw [hbase k hlt]
      · rfl
    · rw [if_neg hlo, if_neg hlo, extChar, hchar _ (by omega)]
      by_cases hlt : k - 8 < name.ext.length
      · rw [if_pos ⟨hdot, name.getD_ext_ne hlt⟩, if_pos hlt]
      · have hend : name.ext.getD (k - 8) 0 = 0 := List.getD_eq_default _ _ (by omega)
        rw [if_neg fun hd => hd.2 hend, if_neg hlt]
        rfl

/-- `ToDosFileName` makes the name, and reads no more than the string, exactly when there is an
extension of two or three characters, or none and the last character is a space. -/
theorem makesDosName_iff (h : filename.content = name.spelled) (fname : Bytes) :
    MakesDosName name filename fname ↔
      2 ≤ name.ext.length ∨ name.ext = [] ∧ name.base.getLast name.base_ne = 0x20 := by
  by_cases hext : name.ext = []
  · rw [makesDosName_iff_of_ext_nil h hext]
    simp [hext]
  · rw [makesDosName_iff_of_ext h hext]
    simp [hext]

end Makes

/-- `a.txt`. -/
def nameATxt : ShortName where
  base := [0x61]
  ext := [0x74, 0x78, 0x74]
  base_ne := by decide
  base_le := by decide
  base_chars := by decide
  ext_le := by decide
  ext_chars := by decide

/-- The name of the example, with zeros behind it. -/
theorem makesDosName_aTxt : MakesDosName nameATxt (.ofList nameATxt.spelled) (fun _ => 0) :=
  (makesDosName_iff (by decide) _).2 (Or.inl (by decide))

/-- `a`. -/
def justA : ShortName where
  base := [0x61]
  ext := []
  base_ne := by decide
  base_le := by decide
  base_chars := by decide
  ext_le := by decide
  ext_chars := by decide

/-- For `a` the name is left blank. -/
theorem not_makesDosName :
    ¬∀ (name : ShortName) (filename : CString) (fname : Bytes),
      filename.content = name.spelled → MakesDosName name filename fname := by
  intro h
  have hstored := (h justA (.ofList justA.spelled) (fun _ => 0) (by decide)).stored
  exact absurd hstored (by decide)

/-! ## The first characters -/

theorem toupper_eq_zero_iff (c : Byte) : toupper c = 0 ↔ c = 0 := by
  revert c
  decide

section Copy

variable {filename : Bytes} {limit k : ℕ}

/-- No zero is copied from in front of the limit. -/
theorem copyBase_ne_zero (h : ∀ i < limit, filename i ≠ 0) (n i : ℕ) (fname : Bytes)
    (hk : fname k ≠ 0) : (copyBase filename limit n i fname).2 k ≠ 0 := by
  induction n generalizing i fname with
  | zero => exact hk
  | succ n ih =>
    rw [copyBase]
    split_ifs with hlimit hend
    · exact hk
    · refine ih (i + 1) _ ?_
      by_cases hki : k = i
      · rw [hki, Function.update_self]
        exact mt (toupper_eq_zero_iff _).1 (h i hlimit)
      · rwa [Function.update_of_ne hki]
    · exact hk

/-- The loop goes upwards. -/
theorem copyBase_apply_of_lt (n i : ℕ) (hk : k < i) (fname : Bytes) :
    (copyBase filename limit n i fname).2 k = fname k := by
  induction n generalizing i fname with
  | zero => rfl
  | succ n ih =>
    rw [copyBase]
    split_ifs with hlimit hend
    · rfl
    · rw [ih (i + 1) (by omega), Function.update_of_ne (by omega)]
    · rfl

/-- The second loop writes no zeros over other bytes. -/
theorem copyExt_ne_zero (n m i : ℕ) {fname : Bytes} (hk : fname k ≠ 0) :
    copyExt filename n m i fname k ≠ 0 := by
  rw [copyExt_apply]
  split_ifs with h
  · exact h.2
  · exact hk

theorem upperExt_ne_zero (n i : ℕ) {fname : Bytes} (hk : fname k ≠ 0) :
    upperExt n i fname k ≠ 0 := by
  rw [upperExt_apply]
  split_ifs
  · exact mt (toupper_eq_zero_iff _).1 hk
  · exact hk

end Copy

section Name

variable {name : CString}

theorem baseLimit_lt (h : 0 < strlen name) : baseLimit name < strlen name := by
  have hone : (1 : Word).toNat = 1 := rfl
  rw [baseLimit, BitVec.toNat_sub, BitVec.toNat_ofNat, hone]
  have hmod := Nat.mod_le (strlen name) (2 ^ 32)
  omega

/-- A name that is not empty gives eleven characters. -/
theorem dosFileName_ne_zero (h : 0 < strlen name) {k : ℕ} (hk : k < 11) :
    (dosFileName name).bytes k ≠ 0 := by
  have hlimit := baseLimit_lt h
  rw [baseLimit] at hlimit
  have hchars : ∀ i < (BitVec.ofNat 32 (strlen name) - 1).toNat, name.bytes i ≠ 0 := fun i hi =>
    name.endsAt_strlen.2.2 i (Nat.zero_le _) (by omega)
  have heleven : (11 : Word).toNat = 11 := rfl
  have hspace : (if k < 11 then (0x20 : Byte) else 0) ≠ 0 := by
    rw [if_pos hk]
    decide
  rw [dosFileName]
  dsimp only
  rw [Function.update_of_ne (by omega), toDosFileName, if_neg (by decide), heleven]
  dsimp only
  refine upperExt_ne_zero 3 0 ?_
  have hbase := copyBase_ne_zero hchars 11 0 (fun j => if j < 11 then 0x20 else 0) hspace
  split_ifs
  · exact copyExt_ne_zero 3 0 _ hbase
  · exact hbase

/-- The empty name gives a zero in front. -/
theorem dosFileName_zero (h : strlen name = 0) : (dosFileName name).bytes 0 = 0 := by
  have hfirst : name.bytes 0 = 0 := by
    have hend := name.endsAt_strlen.2.1
    rwa [h] at hend
  have hlimit : (BitVec.ofNat 32 (strlen name) - 1).toNat = 2 ^ 32 - 1 := by
    rw [h]
    rfl
  have hcopy : ∀ (n : ℕ) (fname : Bytes),
      (copyBase name.bytes (2 ^ 32 - 1) (n + 1) 0 fname).2 0 = 0 := by
    intro n fname
    rw [copyBase, if_pos (by norm_num), hfirst, if_neg (by decide),
      copyBase_apply_of_lt n 1 Nat.zero_lt_one, Function.update_self]
    rfl
  rw [dosFileName]
  dsimp only
  rw [Function.update_of_ne (by omega), toDosFileName, if_neg (by decide)]
  dsimp only
  rw [upperExt_apply, if_neg (by omega), hlimit]
  split_ifs
  · rw [copyExt_apply, if_neg (by omega)]
    exact hcopy 10 _
  · exact hcopy 10 _

/-- A string that starts with the terminator is empty. -/
theorem strlen_eq_zero_of_bytes {s : CString} (h : s.bytes 0 = 0) : strlen s = 0 :=
  CString.strlen_eq_of_ne_zero h fun _ hk => absurd hk (Nat.not_lt_zero _)

/-- The empty name gives the empty string. -/
theorem content_dosFileName_of_empty (h : strlen name = 0) : (dosFileName name).content = [] := by
  rw [CString.content, strlen_eq_zero_of_bytes (dosFileName_zero h)]
  rfl

end Name

end Scorch
