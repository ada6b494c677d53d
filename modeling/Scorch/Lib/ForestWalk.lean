import Mathlib.Data.List.Nodup
import Scorch.Lib.Acyclic

/-!
# Walking a forest

Every node has a list of items, and below an item there may be another node. The walk of a
node goes through its items in order, and through the node below an item before the next
item. `walk` follows the links to a depth of `n` at most.

The walks of some roots end exactly when every descent from them does
(`isSome_walks_iff_acc`). They list the items of the nodes reached (`mem_walks`), and if
every node reached is below one item only, and no root is below any, they list each of them
once (`Forest.nodup_walks`).
-/

open Relation Acyclic

namespace ForestWalk

variable {α β ι : Type*}

/-! ## Lists in sequence -/

/-- The lists of the elements one after the other, if every element has one. -/
def collect (g : α → Option (List ι)) : List α → Option (List ι)
  | [] => some []
  | a :: as => (g a).bind fun t => (collect g as).map (t ++ ·)

section Collect

variable {g : α → Option (List ι)}

@[simp] theorem collect_nil : collect g [] = some [] :=
  rfl

@[simp] theorem collect_singleton (a : α) : collect g [a] = g a := by
  cases h : g a <;> simp [collect, h]

/-- A list succeeds when its head and its tail do. -/
theorem collect_cons_eq_some {a : α} {as : List α} {t : List ι} :
    collect g (a :: as) = some t ↔
      ∃ u v, g a = some u ∧ collect g as = some v ∧ u ++ v = t := by
  simp [collect, Option.bind_eq_some_iff]

theorem collect_append (as bs : List α) :
    collect g (as ++ bs) = (collect g as).bind fun t => (collect g bs).map (t ++ ·) := by
  induction as with
  | nil => simp
  | cons a as ih =>
    rw [List.cons_append, collect, collect, ih]
    cases g a <;> cases collect g as <;> cases collect g bs <;> simp

/-- A list of lists may be gone through as one. -/
theorem collect_flatMap (k : β → List α) (bs : List β) :
    collect g (bs.flatMap k) = collect (fun b => collect g (k b)) bs := by
  induction bs with
  | nil => rfl
  | cons b bs ih => rw [List.flatMap_cons, collect_append, ih, collect]

/-- A list succeeds when each element does. -/
theorem isSome_collect (as : List α) :
    (collect g as).isSome ↔ ∀ a ∈ as, (g a).isSome := by
  induction as with
  | nil => simp
  | cons a as ih =>
    rw [List.forall_mem_cons, ← ih]
    cases h : g a <;> simp [collect, h]

/-- Elements that give nothing give nothing together. -/
theorem collect_eq_nil {as : List α} (h : ∀ a ∈ as, g a = some []) : collect g as = some [] := by
  induction as with
  | nil => rfl
  | cons a as ih =>
    have htail := ih fun b hb => h b (List.mem_cons_of_mem a hb)
    simp [collect, h a List.mem_cons_self, htail]

/-- What a list gives comes from one of its elements. -/
theorem mem_collect {as : List α} {t : List ι} (h : collect g as = some t) (x : ι) :
    x ∈ t ↔ ∃ a ∈ as, ∃ u, g a = some u ∧ x ∈ u := by
  induction as generalizing t with
  | nil =>
    obtain rfl := Option.some.inj h
    simp
  | cons a as ih =>
    obtain ⟨u, v, hu, hv, rfl⟩ := collect_cons_eq_some.1 h
    rw [List.mem_append, ih hv]
    simp [hu]

/-- Lists without repetition that have nothing in common give one without repetition. -/
theorem nodup_collect {as : List α} {t : List ι} (h : collect g as = some t)
    (hnodup : ∀ a ∈ as, ∀ u, g a = some u → u.Nodup)
    (hapart : as.Pairwise fun a b => ∀ u v x, g a = some u → g b = some v → x ∈ u → x ∉ v) :
    t.Nodup := by
  induction as generalizing t with
  | nil =>
    obtain rfl := Option.some.inj h
    exact List.nodup_nil
  | cons a as ih =>
    obtain ⟨u, v, hu, hv, rfl⟩ := collect_cons_eq_some.1 h
    rw [List.pairwise_cons] at hapart
    have htail := ih hv (fun b hb => hnodup b (List.mem_cons_of_mem a hb)) hapart.2
    refine (hnodup a List.mem_cons_self u hu).append htail fun x hxu hxv => ?_
    obtain ⟨b, hb, w, hw, hxw⟩ := (mem_collect hv x).1 hxv
    exact hapart.1 b hb u w x hu hw hxu hxw

end Collect

/-- Enough rounds for each element are enough for all. -/
theorem exists_isSome_collect_iff {g : ℕ → α → Option (List ι)}
    (hmono : ∀ n a, (g n a).isSome → (g (n + 1) a).isSome) (as : List α) :
    (∃ n, (collect (g n) as).isSome) ↔ ∀ a ∈ as, ∃ n, (g n a).isSome := by
  simp only [isSome_collect]
  constructor
  · rintro ⟨n, hn⟩ a ha
    exact ⟨n, hn a ha⟩
  · intro h
    have hle : ∀ a {n m : ℕ}, n ≤ m → (g n a).isSome → (g m a).isSome := fun a n m hnm hn =>
      Nat.le_induction hn (fun k _ hk => hmono k a hk) m hnm
    induction as with
    | nil => exact ⟨0, by simp⟩
    | cons a as ih =>
      obtain ⟨n, hn⟩ := h a List.mem_cons_self
      obtain ⟨m, hm⟩ := ih fun b hb => h b (List.mem_cons_of_mem a hb)
      refine ⟨max n m, List.forall_mem_cons.2 ⟨?_, fun b hb => ?_⟩⟩
      · exact hle a (le_max_left n m) hn
      · exact hle b (le_max_right n m) (hm b hb)

/-! ## The walk -/

variable (items : β → List ι) (below : ι → Option β)

/-- An item and what is below it. -/
def visit (w : β → Option (List ι)) (x : ι) : Option (List ι) :=
  match below x with
  | none => some [x]
  | some b => (w b).map (x :: ·)

/-- The walk of a node, `n` nodes deep at most. -/
def walk : ℕ → β → Option (List ι)
  | 0, _ => none
  | n + 1, b => collect (visit below (walk n)) (items b)

/-- `c` is below an item of `b`. -/
def Below (b c : β) : Prop :=
  ∃ x ∈ items b, below x = some c

/-- A node that the walks of the roots come to. -/
def Reached (roots : List β) (b : β) : Prop :=
  ∃ r ∈ roots, ReflTransGen (Below items below) r b

section Walk

variable {items below}

/-- The visit of an item succeeds when the walk of the node below it does. -/
theorem isSome_visit {w : β → Option (List ι)} {x : ι} :
    (visit below w x).isSome ↔ ∀ b, below x = some b → (w b).isSome := by
  rw [visit]
  cases below x <;> simp

theorem mem_visit {w : β → Option (List ι)} {x y : ι} {t : List ι}
    (h : visit below w x = some t) :
    y ∈ t ↔ y = x ∨ ∃ b u, below x = some b ∧ w b = some u ∧ y ∈ u := by
  rw [visit] at h
  cases hb : below x with
  | none =>
    rw [hb] at h
    obtain rfl := Option.some.inj h
    simp
  | some b =>
    rw [hb] at h
    obtain ⟨u, hu, rfl⟩ := Option.map_eq_some_iff.1 h
    simp [hu]

/-- One more level does not hurt. -/
theorem isSome_walk_succ (n : ℕ) (b : β) (h : (walk items below n b).isSome) :
    (walk items below (n + 1) b).isSome := by
  induction n generalizing b with
  | zero => simp [walk] at h
  | succ n ih =>
    rw [walk, isSome_collect] at h ⊢
    exact fun x hx => isSome_visit.2 fun c hc => ih c (isSome_visit.1 (h x hx) c hc)

/-- A visit that succeeds also does with more fuel. -/
theorem isSome_visit_succ (n : ℕ) (x : ι) (h : (visit below (walk items below n) x).isSome) :
    (visit below (walk items below (n + 1)) x).isSome :=
  isSome_visit.2 fun c hc => isSome_walk_succ n c (isSome_visit.1 h c hc)

/-- The walk ends exactly when every descent from the node does. -/
theorem isSome_walk_iff_acc (b : β) :
    (∃ n, (walk items below n b).isSome) ↔ Acc (flip (Below items below)) b := by
  constructor
  · rintro ⟨n, hn⟩
    induction n generalizing b with
    | zero => simp [walk] at hn
    | succ n ih =>
      rw [walk, isSome_collect] at hn
      refine ⟨b, ?_⟩
      rintro c ⟨x, hx, hc⟩
      exact ih c (isSome_visit.1 (hn x hx) c hc)
  · intro h
    induction h with
    | intro b _ ih =>
      have hvisit : ∀ x ∈ items b, ∃ n, (visit below (walk items below n) x).isSome := by
        intro x hx
        cases hc : below x with
        | none => exact ⟨0, by rw [visit, hc]; rfl⟩
        | some c =>
          obtain ⟨n, hn⟩ := ih c ⟨x, hx, hc⟩
          exact ⟨n, isSome_visit.2 fun d hd => Option.some.inj (hc.symm.trans hd) ▸ hn⟩
      obtain ⟨n, hn⟩ := (exists_isSome_collect_iff isSome_visit_succ (items b)).2 hvisit
      exact ⟨n + 1, hn⟩

/-- The walk lists the items of the nodes it comes to. -/
theorem mem_walk {n : ℕ} {b : β} {t : List ι} (h : walk items below n b = some t) (x : ι) :
    x ∈ t ↔ ∃ c, ReflTransGen (Below items below) b c ∧ x ∈ items c := by
  induction n generalizing b t with
  | zero => exact nomatch h
  | succ n ih =>
    rw [walk] at h
    rw [mem_collect h]
    constructor
    · rintro ⟨y, hy, u, hu, hxu⟩
      rcases (mem_visit hu).1 hxu with rfl | ⟨c, v, hc, hv, hxv⟩
      · exact ⟨b, .refl, hy⟩
      · obtain ⟨d, hd, hxd⟩ := (ih hv).1 hxv
        exact ⟨d, hd.head ⟨y, hy, hc⟩, hxd⟩
    · rintro ⟨c, hbc, hx⟩
      rcases hbc.cases_head with rfl | ⟨d, ⟨y, hy, hd⟩, hdc⟩
      · obtain ⟨u, hu⟩ := Option.isSome_iff_exists.1
          ((isSome_collect _).1 (Option.isSome_iff_exists.2 ⟨t, h⟩) x hx)
        exact ⟨x, hx, u, hu, (mem_visit hu).2 (Or.inl rfl)⟩
      · obtain ⟨u, hu⟩ := Option.isSome_iff_exists.1
          ((isSome_collect _).1 (Option.isSome_iff_exists.2 ⟨t, h⟩) y hy)
        obtain ⟨v, hv⟩ := Option.isSome_iff_exists.1
          (isSome_visit.1 (Option.isSome_iff_exists.2 ⟨u, hu⟩) d hd)
        exact ⟨y, hy, u, hu, (mem_visit hu).2 (Or.inr ⟨d, v, hd, hv, (ih hv).2 ⟨c, hdc, hx⟩⟩)⟩

/-- The walks of the roots give the items of the nodes that they come to. -/
theorem mem_walks {n : ℕ} {roots : List β} {t : List ι}
    (h : collect (walk items below n) roots = some t) (x : ι) :
    x ∈ t ↔ ∃ b, Reached items below roots b ∧ x ∈ items b := by
  rw [mem_collect h]
  constructor
  · rintro ⟨r, hr, u, hu, hxu⟩
    obtain ⟨b, hb, hx⟩ := (mem_walk hu x).1 hxu
    exact ⟨b, ⟨r, hr, hb⟩, hx⟩
  · rintro ⟨b, ⟨r, hr, hb⟩, hx⟩
    obtain ⟨u, hu⟩ := Option.isSome_iff_exists.1
      ((isSome_collect _).1 (Option.isSome_iff_exists.2 ⟨t, h⟩) r hr)
    exact ⟨r, hr, u, hu, (mem_walk hu x).2 ⟨b, hb, hx⟩⟩

/-- The walks of some nodes end exactly when every descent from them does. -/
theorem isSome_walks_iff_acc (roots : List β) :
    (∃ n, (collect (walk items below n) roots).isSome) ↔
      ∀ r ∈ roots, Acc (flip (Below items below)) r := by
  rw [exists_isSome_collect_iff isSome_walk_succ]
  exact forall₂_congr fun r _ => isSome_walk_iff_acc r

end Walk

/-! ## Forests -/

/-- Every node reached is below one item only, and no root is. -/
structure Forest (roots : List β) : Prop where
  nodup : roots.Nodup
  root : ∀ b c, Reached items below roots b → Below items below b c → c ∉ roots
  unique : ∀ {b b' c x x'}, Reached items below roots b → Reached items below roots b' →
    x ∈ items b → x' ∈ items b' → below x = some c → below x' = some c → x = x'

/-- An item belongs to one node, and comes once there. -/
structure Owned (owner : ι → β) : Prop where
  owner_eq : ∀ {b x}, x ∈ items b → owner x = b
  nodup : ∀ b, (items b).Nodup

theorem Owned.unique {items : β → List ι} {owner : ι → β} (h : Owned items owner) {b c : β} {x : ι}
    (hb : x ∈ items b) (hc : x ∈ items c) : b = c :=
  (h.owner_eq hb).symm.trans (h.owner_eq hc)

namespace Reached

variable {items below} {roots : List β} {b c : β}

theorem of_mem (hb : b ∈ roots) : Reached items below roots b :=
  ⟨b, hb, .refl⟩

/-- What is below a node that is reached is reached. -/
theorem trans (h : Reached items below roots b) (hbc : ReflTransGen (Below items below) b c) :
    Reached items below roots c :=
  let ⟨r, hr, hb⟩ := h
  ⟨r, hr, hb.trans hbc⟩

theorem tail (h : Reached items below roots b) (hbc : Below items below b c) :
    Reached items below roots c :=
  h.trans (.single hbc)

end Reached

namespace Forest

variable {items below} {roots : List β} {owner : ι → β} (hown : Owned items owner)
  (h : Forest items below roots)

include h in
/-- A root is below nothing but itself. -/
theorem eq_of_root {b r : β} (hb : Reached items below roots b) (hr : r ∈ roots)
    (hbr : ReflTransGen (Below items below) b r) : b = r := by
  rcases hbr.cases_tail with rfl | ⟨c, hbc, hcr⟩
  · rfl
  · exact absurd hr (h.root c r (hb.trans hbc) hcr)

include hown h

/-- The node above one that is reached is the only one. -/
theorem above_eq {b b' c : β} (hb : Reached items below roots b)
    (hb' : Reached items below roots b') (hbc : Below items below b c)
    (hb'c : Below items below b' c) : b = b' := by
  obtain ⟨x, hx, hxc⟩ := hbc
  obtain ⟨x', hx', hx'c⟩ := hb'c
  obtain rfl := h.unique hb hb' hx hx' hxc hx'c
  exact hown.unique hx hx'

/-- No node reached is below itself. -/
theorem not_below_self {b : β} (hb : Reached items below roots b) :
    ¬TransGen (Below items below) b b := by
  obtain ⟨r, hr, hrb⟩ := hb
  induction hrb with
  | refl =>
    intro hcycle
    obtain ⟨c, hrc, hcr⟩ := TransGen.tail'_iff.1 hcycle
    exact h.root c r ⟨r, hr, hrc⟩ hcr hr
  | @tail b c hrb hbc ih =>
    -- The cycle comes back to `c` over the node above it, so that is on the cycle too.
    intro hcycle
    obtain ⟨d, hcd, hdc⟩ := TransGen.tail'_iff.1 hcycle
    have hb : Reached items below roots b := ⟨r, hr, hrb⟩
    obtain rfl := h.above_eq hown hb ((hb.tail hbc).trans hcd) hbc hdc
    exact ih (TransGen.head' hbc hcd)

/-- Of two nodes above a third one is above the other. -/
theorem total {b c d : β} (hb : Reached items below roots b) (hc : Reached items below roots c)
    (hbd : ReflTransGen (Below items below) b d) (hcd : ReflTransGen (Below items below) c d) :
    ReflTransGen (Below items below) b c ∨ ReflTransGen (Below items below) c b := by
  induction hbd with
  | refl => exact Or.inr hcd
  | @tail d e hbd hde ih =>
    rcases hcd.cases_tail with rfl | ⟨d', hcd', hd'e⟩
    · exact Or.inl (hbd.tail hde)
    · obtain rfl := h.above_eq hown (hb.trans hbd) (hc.trans hcd') hde hd'e
      exact ih hcd'

/-- What is below one item of a node has not what is below another one below it : the item
is the only one above that. -/
theorem not_below_sibling {b c c' : β} {x x' : ι} (hb : Reached items below roots b)
    (hx : x ∈ items b) (hx' : x' ∈ items b) (hne : x ≠ x') (hc : below x = some c)
    (hc' : below x' = some c') : ¬ReflTransGen (Below items below) c c' := by
  intro hcc'
  have hbc : Below items below b c := ⟨x, hx, hc⟩
  rcases hcc'.cases_tail with rfl | ⟨d, hcd, hdc'⟩
  · exact hne (h.unique hb hb hx hx' hc hc')
  · obtain rfl := h.above_eq hown hb ((hb.tail hbc).trans hcd) ⟨x', hx', hc'⟩ hdc'
    exact h.not_below_self hown hb (TransGen.head' hbc hcd)

/-- Nothing is below two items of a node. -/
theorem siblings_apart {b c c' d : β} {x x' : ι} (hb : Reached items below roots b)
    (hx : x ∈ items b) (hx' : x' ∈ items b) (hne : x ≠ x') (hc : below x = some c)
    (hc' : below x' = some c') (hcd : ReflTransGen (Below items below) c d) :
    ¬ReflTransGen (Below items below) c' d := by
  intro hc'd
  rcases h.total hown (hb.tail ⟨x, hx, hc⟩) (hb.tail ⟨x', hx', hc'⟩) hcd hc'd with hcc' | hc'c
  · exact h.not_below_sibling hown hb hx hx' hne hc hc' hcc'
  · exact h.not_below_sibling hown hb hx' hx hne.symm hc' hc hc'c

/-- The items of a node are not below any of them. -/
theorem notMem_below {n : ℕ} {b c : β} {x y : ι} {t : List ι}
    (hb : Reached items below roots b) (hx : x ∈ items b) (hy : y ∈ items b)
    (hc : below y = some c) (ht : walk items below n c = some t) : x ∉ t := by
  intro hxt
  obtain ⟨d, hcd, hxd⟩ := (mem_walk ht x).1 hxt
  obtain rfl := hown.unique hxd hx
  exact h.not_below_self hown hb (TransGen.head' ⟨y, hy, hc⟩ hcd)

/-- The walk of a node lists nothing twice. -/
theorem nodup_walk {n : ℕ} {b : β} (hb : Reached items below roots b) {t : List ι}
    (ht : walk items below n b = some t) : t.Nodup := by
  induction n generalizing b t with
  | zero => exact nomatch ht
  | succ n ih =>
    rw [walk] at ht
    refine nodup_collect ht (fun x hx u hu => ?_) ((hown.nodup b).imp_of_mem ?_)
    · rw [visit] at hu
      cases hc : below x with
      | none =>
        rw [hc] at hu
        obtain rfl := Option.some.inj hu
        exact List.nodup_singleton x
      | some c =>
        rw [hc] at hu
        obtain ⟨v, hv, rfl⟩ := Option.map_eq_some_iff.1 hu
        exact List.nodup_cons.2 ⟨h.notMem_below hown hb hx hx hc hv, ih (hb.tail ⟨x, hx, hc⟩) hv⟩
    · intro x y hx hy hne u v z hu hv hzu hzv
      rcases (mem_visit hu).1 hzu with rfl | ⟨c, u', hc, hu', hzu'⟩
      · rcases (mem_visit hv).1 hzv with rfl | ⟨d, v', hd, hv', hzv'⟩
        · exact hne rfl
        · exact h.notMem_below hown hb hx hy hd hv' hzv'
      · rcases (mem_visit hv).1 hzv with rfl | ⟨d, v', hd, hv', hzv'⟩
        · exact h.notMem_below hown hb hy hx hc hu' hzu'
        · obtain ⟨e, hce, hze⟩ := (mem_walk hu' z).1 hzu'
          obtain ⟨e', hde', hze'⟩ := (mem_walk hv' z).1 hzv'
          obtain rfl := hown.unique hze hze'
          exact h.siblings_apart hown hb hx hy hne hc hd hce hde'

/-- Nothing is below two roots. -/
theorem roots_apart {r r' d : β} (hr : r ∈ roots) (hr' : r' ∈ roots) (hne : r ≠ r')
    (hrd : ReflTransGen (Below items below) r d) : ¬ReflTransGen (Below items below) r' d := by
  intro hr'd
  rcases h.total hown (Reached.of_mem hr) (Reached.of_mem hr') hrd hr'd with hrr' | hr'r
  · exact hne (h.eq_of_root (Reached.of_mem hr) hr' hrr')
  · exact hne (h.eq_of_root (Reached.of_mem hr') hr hr'r).symm

/-- The walks of the roots list nothing twice. -/
theorem nodup_walks {n : ℕ} {t : List ι} (ht : collect (walk items below n) roots = some t) :
    t.Nodup := by
  refine nodup_collect ht (fun r hr u hu => h.nodup_walk hown (Reached.of_mem hr) hu)
    (h.nodup.imp_of_mem fun {r r'} hr hr' hne u v x hu hv hxu hxv => ?_)
  obtain ⟨d, hrd, hxd⟩ := (mem_walk hu x).1 hxu
  obtain ⟨d', hrd', hxd'⟩ := (mem_walk hv x).1 hxv
  obtain rfl := hown.unique hxd hxd'
  exact h.roots_apart hown hr hr' hne hrd hrd'

/-- Over finitely many nodes they end. -/
theorem exists_walks [Finite β] : ∃ n t, collect (walk items below n) roots = some t := by
  have hacc : ∀ r ∈ roots, Acc (flip (Below items below)) r := fun r hr =>
    acc_of_acyclicFrom fun b hrb => h.not_below_self hown ⟨r, hr, hrb⟩
  obtain ⟨n, hn⟩ := (isSome_walks_iff_acc roots).2 hacc
  exact ⟨n, Option.isSome_iff_exists.1 hn⟩

end Forest

end ForestWalk
