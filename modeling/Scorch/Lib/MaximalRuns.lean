import Mathlib.Data.List.Range

/-!
# Maximal runs

The places below a bound at which a predicate holds make up runs. `runsFrom` lists them from
a place on, each with its first place and the first place behind it. They are the maximal
ones (`mem_runsFrom_iff`), in order and apart from each other (`pairwise_runsFrom`), and the
list is found by two searches for each run (`runsFrom_eq_cons`).
-/

namespace MaximalRuns

/-! ## The first place with a property -/

/-- The first of `n` places from `i` on at which `q` holds, or the place behind them. -/
def first (q : ℕ → Prop) [DecidablePred q] : ℕ → ℕ → ℕ
  | 0, i => i
  | n + 1, i => if q i then i else first q n (i + 1)

section First

variable {q : ℕ → Prop} [DecidablePred q]

theorem le_first (n i : ℕ) : i ≤ first q n i := by
  induction n generalizing i with
  | zero => exact le_rfl
  | succ n ih =>
    rw [first]
    split_ifs
    · exact le_rfl
    · exact (Nat.le_succ i).trans (ih (i + 1))

theorem first_le (n i : ℕ) : first q n i ≤ i + n := by
  induction n generalizing i with
  | zero => exact le_rfl
  | succ n ih =>
    rw [first]
    split_ifs
    · exact Nat.le_add_right i (n + 1)
    · exact (ih (i + 1)).trans_eq (by omega)

/-- What it passes does not have the property. -/
theorem not_of_lt_first {n i k : ℕ} (hi : i ≤ k) (hk : k < first q n i) : ¬q k := by
  induction n generalizing i with
  | zero => exact absurd hk (Nat.not_lt.2 hi)
  | succ n ih =>
    rw [first] at hk
    split_ifs at hk with hq
    · exact absurd hk (Nat.not_lt.2 hi)
    · rcases Nat.eq_or_lt_of_le hi with rfl | hlt
      · exact hq
      · exact ih hlt hk

theorem first_of_lt {n i : ℕ} (h : first q n i < i + n) : q (first q n i) := by
  induction n generalizing i with
  | zero => exact absurd h (Nat.lt_irrefl i)
  | succ n ih =>
    rw [first] at h ⊢
    split_ifs at h ⊢ with hq
    · exact hq
    · exact ih (by omega)

theorem of_first_eq {n i k : ℕ} (h : first q n i = k) (hk : k < i + n) : q k := by
  subst h
  exact first_of_lt hk

/-- The place is the first one when nothing before it has the property. -/
theorem first_eq {n i k : ℕ} (hi : i ≤ k) (hbefore : ∀ j, i ≤ j → j < k → ¬q j)
    (hk : k = i + n ∨ k < i + n ∧ q k) : first q n i = k := by
  rcases Nat.lt_trichotomy (first q n i) k with h | h | h
  · have hlt : first q n i < i + n := by omega
    exact absurd (first_of_lt hlt) (hbefore _ (le_first n i) h)
  · exact h
  · have hle := first_le (q := q) n i
    have hq : q k := (hk.resolve_left (by omega)).2
    exact absurd hq (not_of_lt_first hi h)

end First

/-! ## Runs -/

variable (p : ℕ → Prop)

/-- The predicate holds from `a` to before `b`, and at neither place next to them. -/
structure IsRun (n a b : ℕ) : Prop where
  lt : a < b
  le : b ≤ n
  inner : ∀ k, a ≤ k → k < b → p k
  before : a = 0 ∨ ¬p (a - 1)
  behind : b = n ∨ ¬p b

variable {p} {n a b : ℕ}

theorem IsRun.unique {c : ℕ} (h : IsRun p n a b) (h' : IsRun p n a c) : b = c := by
  rcases Nat.lt_trichotomy b c with hlt | heq | hlt
  · have hp := h'.inner b h.lt.le hlt
    exact absurd hp (h.behind.resolve_left (by have := h'.le; omega))
  · exact heq
  · have hp := h.inner c h'.lt.le hlt
    exact absurd hp (h'.behind.resolve_left (by have := h.le; omega))

/-- A run that starts later starts behind a place that is in no run. -/
theorem IsRun.lt_start {c d : ℕ} (h : IsRun p n a b) (h' : IsRun p n c d) (hac : a < c) :
    b < c := by
  by_contra hle
  have hp := h.inner (c - 1) (by omega) (by omega)
  exact h'.before.elim (by omega) fun hnot => hnot hp

/-- No run ends inside a run. -/
theorem IsRun.le_end {c d : ℕ} (h : IsRun p n a b) (h' : IsRun p n c d) (had : a ≤ d) :
    b ≤ d := by
  rcases Nat.lt_trichotomy a c with hlt | rfl | hlt
  · exact (h.lt_start h' hlt).le.trans h'.lt.le
  · exact (h.unique h').le
  · exact absurd had (Nat.not_le.2 (h'.lt_start h hlt))

variable (p) [DecidablePred p]

/-- The runs that start at `i` or later. -/
def runsFrom (n i : ℕ) : List (ℕ × ℕ) :=
  ((List.range' i (n - i)).filter fun a => p a ∧ (a = 0 ∨ ¬p (a - 1))).map fun a =>
    (a, first (fun k => ¬p k) (n - a) a)

variable {p}

/-- A run is where the property starts, up to where it stops. -/
theorem isRun_iff_of_lt (ha : a < n) :
    IsRun p n a b ↔
      (p a ∧ (a = 0 ∨ ¬p (a - 1))) ∧ first (fun k => ¬p k) (n - a) a = b := by
  have hsum : a + (n - a) = n := Nat.add_sub_cancel' ha.le
  constructor
  · intro h
    refine ⟨⟨h.inner a le_rfl h.lt, h.before⟩,
      first_eq h.lt.le (fun j hj hb => not_not.2 (h.inner j hj hb)) ?_⟩
    rw [hsum]
    rcases Nat.eq_or_lt_of_le h.le with heq | hlt
    · exact Or.inl heq
    · exact Or.inr ⟨hlt, h.behind.resolve_left hlt.ne⟩
  · rintro ⟨⟨hpa, hbefore⟩, rfl⟩
    have hle := first_le (q := fun k => ¬p k) (n - a) a
    refine ⟨?_, hle.trans_eq hsum, fun k hk hkb => not_not.1 (not_of_lt_first hk hkb), hbefore, ?_⟩
    · refine (le_first _ a).lt_of_ne fun heq => ?_
      have hstop := first_of_lt (q := fun k => ¬p k) (n := n - a) (i := a) (by omega)
      rw [← heq] at hstop
      exact hstop hpa
    · rcases Nat.eq_or_lt_of_le hle with heq | hlt
      · exact Or.inl (heq.trans hsum)
      · exact Or.inr (first_of_lt hlt)

/-- The list has the runs from a place on. -/
theorem mem_runsFrom_iff (i : ℕ) : (a, b) ∈ runsFrom p n i ↔ i ≤ a ∧ IsRun p n a b := by
  simp only [runsFrom, List.mem_map, List.mem_filter, List.mem_range'_1, decide_eq_true_eq,
    Prod.mk.injEq]
  constructor
  · rintro ⟨c, ⟨⟨hic, hcn⟩, hstart⟩, rfl, hstop⟩
    exact ⟨hic, (isRun_iff_of_lt (by omega)).2 ⟨hstart, hstop⟩⟩
  · rintro ⟨hia, h⟩
    have ha : a < n := h.lt.trans_le h.le
    obtain ⟨hstart, hstop⟩ := (isRun_iff_of_lt ha).1 h
    exact ⟨a, ⟨⟨hia, by omega⟩, hstart⟩, rfl, hstop⟩

/-- The runs are in order, with a place between each and the next. -/
theorem pairwise_runsFrom (n i : ℕ) : (runsFrom p n i).Pairwise fun r q => r.2 < q.1 := by
  have hsorted : (runsFrom p n i).Pairwise fun r q => r.1 < q.1 := by
    rw [runsFrom, List.pairwise_map]
    exact (List.pairwise_lt_range' ..).filter _
  refine hsorted.imp_of_mem fun {r q} hr hq hlt => ?_
  exact ((mem_runsFrom_iff i).1 hr).2.lt_start ((mem_runsFrom_iff i).1 hq).2 hlt

/-- Without the predicate at any place from `i` on there is no run. -/
theorem runsFrom_eq_nil {i : ℕ} (h : ∀ k, i ≤ k → k < n → ¬p k) : runsFrom p n i = [] := by
  refine List.eq_nil_iff_forall_not_mem.2 fun r hr => ?_
  obtain ⟨hi, hrun⟩ := (mem_runsFrom_iff (a := r.1) (b := r.2) i).1 hr
  have hlt := hrun.lt
  have hle := hrun.le
  exact h r.1 hi (by omega) (hrun.inner r.1 le_rfl hlt)

/-- The runs from the next place on, and the one that starts here. -/
theorem runsFrom_succ {i : ℕ} (hi : i < n) :
    runsFrom p n i = if p i ∧ (i = 0 ∨ ¬p (i - 1)) then
      (i, first (fun k => ¬p k) (n - i) i) :: runsFrom p n (i + 1) else runsFrom p n (i + 1) := by
  have hrange : List.range' i (n - i) = i :: List.range' (i + 1) (n - (i + 1)) := by
    rw [show n - i = n - (i + 1) + 1 by omega, List.range'_succ]
  rw [runsFrom, runsFrom, hrange, List.filter_cons]
  split_ifs with hbool hstart hstart
  · rfl
  · exact absurd (of_decide_eq_true hbool) hstart
  · exact absurd (decide_eq_true hstart) hbool
  · rfl

/-- Places at which no run starts can be left out. -/
theorem runsFrom_eq_of_not_start {i j : ℕ} (hij : i ≤ j) (hj : j ≤ n)
    (h : ∀ k, i ≤ k → k < j → ¬(p k ∧ (k = 0 ∨ ¬p (k - 1)))) : runsFrom p n i = runsFrom p n j := by
  induction j, hij using Nat.le_induction with
  | base => rfl
  | succ j hij ih =>
    rw [ih (by omega) fun k hik hkj => h k hik (by omega), runsFrom_succ (by omega),
      if_neg (h j hij (Nat.lt_succ_self j))]

/-- A first run and the runs behind the place that ends it. -/
theorem runsFrom_eq_cons {i : ℕ} (hrun : IsRun p n a b) (hia : i ≤ a)
    (hbefore : ∀ k, i ≤ k → k < a → ¬p k) : runsFrom p n i = (a, b) :: runsFrom p n (b + 1) := by
  have ha : a < n := hrun.lt.trans_le hrun.le
  obtain ⟨hstart, hstop⟩ := (isRun_iff_of_lt ha).1 hrun
  have hinner : runsFrom p n (a + 1) = runsFrom p n b :=
    runsFrom_eq_of_not_start hrun.lt hrun.le fun k hak hkb hk =>
      hk.2.elim (by omega) fun hnot => hnot (hrun.inner (k - 1) (by omega) (by omega))
  have hend : runsFrom p n b = runsFrom p n (b + 1) := by
    rcases Nat.eq_or_lt_of_le hrun.le with heq | hlt
    · rw [runsFrom_eq_nil fun k hk hkn => absurd hkn (by omega),
        runsFrom_eq_nil fun k hk hkn => absurd hkn (by omega)]
    · exact runsFrom_eq_of_not_start (Nat.le_succ b) hlt fun k hbk hkb hk =>
        hrun.behind.elim (by omega) fun hnot => hnot ((show k = b by omega) ▸ hk.1)
  rw [runsFrom_eq_of_not_start hia ha.le fun k hik hka hk => hbefore k hik hka hk.1,
    runsFrom_succ ha, if_pos hstart, hstop, hinner, hend]

end MaximalRuns
