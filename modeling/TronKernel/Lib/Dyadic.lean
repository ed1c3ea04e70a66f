import TronKernel.Lib.Tiling
import Mathlib.Algebra.BigOperators.Group.List.Basic
import Mathlib.Data.Nat.Basic
import Mathlib.Tactic.Ring

/-!
# Tilings by aligned dyadic intervals

The interval `(index, level)` is `[index, index + 2 ^ level)` and is aligned when `2 ^ level`
divides `index`. Two aligned intervals are nested or disjoint. An interval below the top level has a
buddy of its own level, with which it makes an aligned interval of the next level; a tiling that
contains the interval holds an interval that begins where the buddy begins and is no larger
(`IsTiling.buddy_mem`).
-/

namespace TronKernel.DyadicTiling

open Tiling

structure Interval where
  index : ℕ
  level : ℕ
deriving DecidableEq, Repr

/-- The first point behind the interval. -/
def Interval.stop (b : Interval) : ℕ := b.index + 2 ^ b.level

theorem Interval.index_lt_stop (b : Interval) : b.index < b.stop := by
  have : 0 < 2 ^ b.level := Nat.two_pow_pos _
  simp only [stop]; omega

/-- Where the buddy of the interval `(i, k)` begins. -/
def buddyIndex (i k : ℕ) : ℕ := if (i >>> k) % 2 ≠ 0 then i - 2 ^ k else i + 2 ^ k

/-- The number of points in all intervals. -/
def units (hs : List Interval) : ℕ := (hs.map fun b => 2 ^ b.level).sum

@[simp] theorem units_nil : units [] = 0 := rfl

@[simp] theorem units_cons (b : Interval) (hs : List Interval) :
    units (b :: hs) = 2 ^ b.level + units hs := by simp [units]

@[simp] theorem units_append (hs gs : List Interval) : units (hs ++ gs) = units hs + units gs := by
  simp [units]

/-! ## Alignment -/

/-- Multiples of `d` that are less than `d` apart are in order. -/
theorem le_of_lt_add_dvd {a b d : ℕ} (ha : d ∣ a) (hb : d ∣ b) (h : a < b + d) : a ≤ b := by
  obtain ⟨x, rfl⟩ := ha
  obtain ⟨y, rfl⟩ := hb
  have hx : x < y + 1 := by
    refine lt_of_mul_lt_mul_left (a := d) ?_ (Nat.zero_le _)
    rw [Nat.mul_add, Nat.mul_one]
    exact h
  exact Nat.mul_le_mul_left d (by omega)

/-- The buddy of a lower half is the upper half. -/
theorem buddyIndex_of_dvd {i k : ℕ} (h : 2 ^ (k + 1) ∣ i) : buddyIndex i k = i + 2 ^ k := by
  obtain ⟨r, rfl⟩ := h
  have hshift : (2 ^ (k + 1) * r) >>> k = 2 * r := by
    rw [Nat.shiftRight_eq_div_pow, pow_succ, Nat.mul_assoc,
      Nat.mul_div_cancel_left _ (Nat.two_pow_pos k)]
  rw [buddyIndex, hshift, if_neg (by omega)]

/-- The buddy of an upper half is the lower half. -/
theorem buddyIndex_add {j k : ℕ} (h : 2 ^ (k + 1) ∣ j) : buddyIndex (j + 2 ^ k) k = j := by
  obtain ⟨r, rfl⟩ := h
  have hodd : 2 ^ (k + 1) * r + 2 ^ k = 2 ^ k * (2 * r + 1) := by ring
  have hshift : (2 ^ (k + 1) * r + 2 ^ k) >>> k = 2 * r + 1 := by
    rw [hodd, Nat.shiftRight_eq_div_pow, Nat.mul_div_cancel_left _ (Nat.two_pow_pos k)]
  rw [buddyIndex, hshift, if_pos (by omega), Nat.add_sub_cancel]

/-- An aligned interval is a lower or an upper half. -/
theorem half_cases {i k : ℕ} (h : 2 ^ k ∣ i) :
    2 ^ (k + 1) ∣ i ∨ ∃ j, i = j + 2 ^ k ∧ 2 ^ (k + 1) ∣ j := by
  obtain ⟨q, rfl⟩ := h
  rcases Nat.even_or_odd' q with ⟨r, rfl | rfl⟩
  · exact Or.inl ⟨r, by ring⟩
  · exact Or.inr ⟨2 ^ (k + 1) * r, by ring, r, rfl⟩

theorem buddyIndex_buddyIndex {i k : ℕ} (h : 2 ^ k ∣ i) :
    buddyIndex (buddyIndex i k) k = i := by
  rcases half_cases h with hi | ⟨j, rfl, hj⟩
  · rw [buddyIndex_of_dvd hi, buddyIndex_add hi]
  · rw [buddyIndex_add hj, buddyIndex_of_dvd hj]

/-! ## Tilings -/

/-- The two halves of an interval cover what it covers. -/
theorem cover_halves (i k : ℕ) (hs : List Interval) (p : ℕ) :
    cover Interval.index Interval.stop (⟨i, k⟩ :: ⟨i + 2 ^ k, k⟩ :: hs) p
      = cover Interval.index Interval.stop (⟨i, k + 1⟩ :: hs) p := by
  have hpow : i + 2 ^ k + 2 ^ k = i + 2 ^ (k + 1) := by ring
  exact @cover_split _ Interval.index Interval.stop ⟨i, k + 1⟩ ⟨i, k⟩ ⟨i + 2 ^ k, k⟩ rfl rfl hpow
    (Interval.index_lt_stop _).le (Interval.index_lt_stop _).le hs p

/-- Aligned intervals that tile `[0, 2 ^ top)`. -/
structure IsTiling (top : ℕ) (hs : List Interval) : Prop where
  tiles : Tiles Interval.index Interval.stop 0 (2 ^ top) hs
  aligned : ∀ b ∈ hs, 2 ^ b.level ∣ b.index
  total : units hs = 2 ^ top

namespace IsTiling

variable {top : ℕ} {hs gs : List Interval} {b c : Interval} {i k : ℕ}

theorem perm (h : IsTiling top hs) (hp : hs.Perm gs) : IsTiling top gs where
  tiles := h.tiles.perm hp
  aligned b hb := h.aligned b (hp.mem_iff.mpr hb)
  total := by rw [← h.total]; exact ((hp.map _).sum_eq).symm

theorem whole (top : ℕ) : IsTiling top [⟨0, top⟩] where
  tiles p := by simp [cover_cons, Interval.stop]
  aligned := by simp
  total := by simp

theorem stop_le (h : IsTiling top hs) (hb : b ∈ hs) : b.stop ≤ 2 ^ top :=
  (h.tiles.within hb b.index_lt_stop).2

theorem index_lt (h : IsTiling top hs) (hb : b ∈ hs) : b.index < 2 ^ top :=
  b.index_lt_stop.trans_le (h.stop_le hb)

theorem level_le (h : IsTiling top hs) (hb : b ∈ hs) : b.level ≤ top := by
  have hstop := h.stop_le hb
  simp only [Interval.stop] at hstop
  exact (Nat.pow_le_pow_iff_right Nat.one_lt_two).mp (by omega)

theorem nodup (h : IsTiling top hs) : hs.Nodup := h.tiles.nodup fun b _ => b.index_lt_stop

theorem disjoint (h : IsTiling top hs) (hb : b ∈ hs) (hc : c ∈ hs) (hne : b ≠ c) :
    b.stop ≤ c.index ∨ c.stop ≤ b.index := by
  have hpair := h.tiles.pairwise fun b _ => b.index_lt_stop
  have : Std.Symm fun b c : Interval => b.stop ≤ c.index ∨ c.stop ≤ b.index :=
    ⟨fun _ _ => Or.symm⟩
  exact hpair.forall hb hc hne

theorem index_inj (h : IsTiling top hs) (hb : b ∈ hs) (hc : c ∈ hs) (heq : b.index = c.index) :
    b = c := by
  by_contra hne
  have := b.index_lt_stop
  have := c.index_lt_stop
  rcases h.disjoint hb hc hne with h | h <;> omega

theorem index_ne (h : IsTiling top (b :: hs)) (hc : c ∈ hs) : b.index ≠ c.index := by
  intro heq
  obtain rfl := h.index_inj (by simp) (by simp [hc]) heq
  exact (List.nodup_cons.mp h.nodup).1 hc

/-- Replacing an interval by its two halves. -/
theorem split (h : IsTiling top (⟨i, k + 1⟩ :: hs)) :
    IsTiling top (⟨i, k⟩ :: ⟨i + 2 ^ k, k⟩ :: hs) where
  tiles := h.tiles.congr (cover_halves i k hs)
  aligned c hc := by
    have hi : 2 ^ (k + 1) ∣ i := h.aligned ⟨i, k + 1⟩ (by simp)
    have hk : 2 ^ k ∣ i := (pow_dvd_pow 2 (Nat.le_succ k)).trans hi
    rcases List.mem_cons.mp hc with rfl | hc
    · exact hk
    rcases List.mem_cons.mp hc with rfl | hc
    · exact Nat.dvd_add hk (dvd_refl _)
    · exact h.aligned c (by simp [hc])
  total := by
    have := h.total
    simp only [units_cons] at this ⊢
    rw [← this]; ring

/-- Replacing two halves by the interval they make. -/
theorem join (h : IsTiling top (⟨i, k⟩ :: ⟨i + 2 ^ k, k⟩ :: hs)) (hi : 2 ^ (k + 1) ∣ i) :
    IsTiling top (⟨i, k + 1⟩ :: hs) where
  tiles := h.tiles.congr fun p => (cover_halves i k hs p).symm
  aligned c hc := by
    rcases List.mem_cons.mp hc with rfl | hc
    · exact hi
    · exact h.aligned c (by simp [hc])
  total := by
    have := h.total
    simp only [units_cons] at this ⊢
    rw [← this]; ring

/-- Where the buddy of an interval begins, the tiling has an interval that is no larger. -/
theorem buddy_mem (h : IsTiling top hs) (hb : b ∈ hs) (hlevel : b.level < top) :
    ∃ c ∈ hs, c.index = buddyIndex b.index b.level ∧ c.level ≤ b.level := by
  obtain ⟨i, k⟩ := b
  have halign : 2 ^ k ∣ i := h.aligned _ hb
  have hbstop : i + 2 ^ k ≤ 2 ^ top := h.stop_le hb
  have hpow : 2 ^ (k + 1) = 2 ^ k + 2 ^ k := by ring
  have hpos : 0 < 2 ^ k := Nat.two_pow_pos k
  have htop : 2 ^ (k + 1) ∣ 2 ^ top := pow_dvd_pow 2 hlevel
  -- `base` is the lower of the two buddies, `j` the buddy of the interval
  obtain ⟨base, j, hj, hbase, hjk, hji, hbj, hbi⟩ : ∃ base j, buddyIndex i k = j ∧
      2 ^ (k + 1) ∣ base ∧ 2 ^ k ∣ j ∧ (j + 2 ^ k ≤ i ∨ i + 2 ^ k ≤ j) ∧
      (base ≤ j ∧ j < base + 2 ^ (k + 1)) ∧ (base ≤ i ∧ i < base + 2 ^ (k + 1)) := by
    rcases half_cases halign with hi | ⟨j, rfl, hj⟩
    · exact ⟨i, i + 2 ^ k, buddyIndex_of_dvd hi, hi, Nat.dvd_add halign (dvd_refl _), by omega,
        by omega, by omega⟩
    · exact ⟨j, j, buddyIndex_add hj, hj, (pow_dvd_pow 2 (Nat.le_succ k)).trans hj, by omega,
        by omega, by omega⟩
  have hjtop : j < 2 ^ top := by
    by_contra hge
    have := le_of_lt_add_dvd htop hbase (by omega)
    omega
  obtain ⟨c, hc, hcj, hjc⟩ := h.tiles.exists_mem (Nat.zero_le j) hjtop
  have hcalign : 2 ^ c.level ∣ c.index := h.aligned c hc
  change j < c.index + 2 ^ c.level at hjc
  have hne : (⟨i, k⟩ : Interval) ≠ c := by
    rintro rfl
    change i ≤ j at hcj
    change j < i + 2 ^ k at hjc
    omega
  have hdisj : i + 2 ^ k ≤ c.index ∨ c.index + 2 ^ c.level ≤ i := h.disjoint hb hc hne
  have hle : c.level ≤ k := by
    -- a larger interval that holds the buddy holds both halves
    by_contra hlt
    have hdvd : 2 ^ (k + 1) ∣ 2 ^ c.level := pow_dvd_pow 2 (by omega)
    have hcstart : c.index ≤ base := le_of_lt_add_dvd (hdvd.trans hcalign) hbase (by omega)
    have hcstop : base + 2 ^ (k + 1) ≤ c.index + 2 ^ c.level :=
      le_of_lt_add_dvd (Nat.dvd_add hbase (dvd_refl _)) (Nat.dvd_add (hdvd.trans hcalign) hdvd)
        (by omega)
    omega
  refine ⟨c, hc, ?_, hle⟩
  have hcd : 2 ^ c.level ∣ j := (pow_dvd_pow 2 hle).trans hjk
  have hjc' : j ≤ c.index := le_of_lt_add_dvd hcd hcalign hjc
  show c.index = buddyIndex i k
  omega

end IsTiling

/-! ## Merged tilings -/

/-- No two intervals below the top level are buddies. -/
def NoBuddies (top : ℕ) (hs : List Interval) : Prop :=
  ∀ b ∈ hs, ∀ c ∈ hs, b.level < top → c.level = b.level → c.index ≠ buddyIndex b.index b.level

namespace IsTiling

variable {top : ℕ} {hs gs hs' gs' : List Interval} {b : Interval}

/-- No point is in an interval of one part of a tiling and in one of the other part. -/
theorem apart (h : IsTiling top (hs ++ gs)) (hb : b ∈ hs) {c : Interval} (hc : c ∈ gs) {p : ℕ}
    (hbp : b.index ≤ p ∧ p < b.stop) (hcp : c.index ≤ p ∧ p < c.stop) : False := by
  have hne : b ≠ c := fun heq => (List.nodup_append.mp h.nodup).2.2 b hb c hc heq
  rcases h.disjoint (List.mem_append_left _ hb) (List.mem_append_right _ hc) hne with h | h <;>
    omega

/-- Where no two buddies are left to join, an interval is as large as the rest of the tiling lets it
be: the interval of the next level around it meets the rest. -/
theorem exists_mem_parent (h : IsTiling top (hs ++ gs)) (hm : NoBuddies top hs) (hb : b ∈ hs)
    (hlt : b.level < top) {base : ℕ} (hbase : 2 ^ (b.level + 1) ∣ base) (hlo : base ≤ b.index)
    (hhi : b.index < base + 2 ^ (b.level + 1)) :
    ∃ c ∈ gs, ∃ p, (c.index ≤ p ∧ p < c.stop) ∧ base ≤ p ∧ p < base + 2 ^ (b.level + 1) := by
  induction hk : b.level using Nat.strong_induction_on generalizing b base with
  | _ k ih =>
    subst hk
    have halign := h.aligned b (List.mem_append_left _ hb)
    have hpow : 2 ^ (b.level + 1) = 2 ^ b.level + 2 ^ b.level := by ring
    have hpos := Nat.two_pow_pos b.level
    obtain ⟨c, hc, hindex, hle⟩ := h.buddy_mem (List.mem_append_left _ hb) hlt
    -- the buddy is the other half of the same interval
    obtain ⟨hdvd, hclo, hchi⟩ : 2 ^ b.level ∣ c.index ∧ base ≤ c.index ∧
        c.index + 2 ^ b.level ≤ base + 2 ^ (b.level + 1) := by
      rcases half_cases halign with hi | ⟨j, hij, hj⟩
      · have : b.index ≤ base := le_of_lt_add_dvd hi hbase hhi
        rw [buddyIndex_of_dvd hi] at hindex
        exact ⟨hindex ▸ Nat.dvd_add halign (dvd_refl _), by omega, by omega⟩
      · have : base ≤ j := le_of_lt_add_dvd hbase hj (by omega)
        have : j ≤ base := le_of_lt_add_dvd hj hbase (by omega)
        rw [hij, buddyIndex_add hj] at hindex
        exact ⟨hindex ▸ (pow_dvd_pow 2 (Nat.le_succ _)).trans hj, by omega, by omega⟩
    rcases List.mem_append.mp hc with hchs | hcgs
    · have hne : c.level ≠ b.level := fun heq => hm b hb c hchs hlt heq hindex
      have hclt : c.level < b.level := lt_of_le_of_ne hle hne
      have hcpow : 2 ^ (c.level + 1) ≤ 2 ^ b.level := Nat.pow_le_pow_right Nat.two_pos hclt
      have hcdvd : 2 ^ (c.level + 1) ∣ c.index := (pow_dvd_pow 2 hclt).trans hdvd
      obtain ⟨x, hx, p, hxp, hplo, hphi⟩ := ih c.level hclt hchs (hclt.trans hlt) hcdvd le_rfl
        (Nat.lt_add_of_pos_right (Nat.two_pow_pos _)) rfl
      exact ⟨x, hx, p, hxp, by omega, by omega⟩
    · exact ⟨c, hcgs, c.index, ⟨le_rfl, c.index_lt_stop⟩, hclo, by omega⟩

/-- A larger aligned interval around one of a merged part meets the rest. -/
theorem exists_mem_larger (h : IsTiling top (hs ++ gs)) (hm : NoBuddies top hs) (hb : b ∈ hs)
    {c : Interval} (halign : 2 ^ c.level ∣ c.index) (hlt : b.level < c.level) (htop : c.level ≤ top)
    (hlo : c.index ≤ b.index) (hhi : b.index < c.stop) :
    ∃ x ∈ gs, ∃ p, (x.index ≤ p ∧ p < x.stop) ∧ c.index ≤ p ∧ p < c.stop := by
  have hpos := Nat.two_pow_pos (b.level + 1)
  have hdiv := Nat.div_add_mod b.index (2 ^ (b.level + 1))
  have hmod := Nat.mod_lt b.index hpos
  set base := 2 ^ (b.level + 1) * (b.index / 2 ^ (b.level + 1))
  have hbase : 2 ^ (b.level + 1) ∣ base := Nat.dvd_mul_right _ _
  have hdvd : 2 ^ (b.level + 1) ∣ 2 ^ c.level := pow_dvd_pow 2 hlt
  have hstart : c.index ≤ base := le_of_lt_add_dvd (hdvd.trans halign) hbase (by omega)
  have hstop : base + 2 ^ (b.level + 1) ≤ c.stop :=
    le_of_lt_add_dvd (Nat.dvd_add hbase (dvd_refl _)) (Nat.dvd_add (hdvd.trans halign) hdvd)
      (by omega)
  obtain ⟨x, hx, p, hxp, hplo, hphi⟩ :=
    h.exists_mem_parent hm hb (hlt.trans_le htop) hbase (by omega) (by omega)
  exact ⟨x, hx, p, hxp, by omega, by omega⟩

/-- An interval of a merged part is in every merged part that leaves the same rest. -/
theorem mem_of_noBuddies (h : IsTiling top (hs ++ gs)) (h' : IsTiling top (hs' ++ gs'))
    (hm : NoBuddies top hs) (hm' : NoBuddies top hs') (hrest : ∀ c, c ∈ gs ↔ c ∈ gs')
    (hb : b ∈ hs) : b ∈ hs' := by
  have hbmem := List.mem_append_left gs hb
  have hbalign := h.aligned b hbmem
  obtain ⟨c, hc, hlo, hhi⟩ :=
    h'.tiles.exists_mem (Nat.zero_le b.index) (b.index_lt_stop.trans_le (h.stop_le hbmem))
  have hcs : c ∈ hs' := by
    refine (List.mem_append.mp hc).resolve_right fun hcgs => ?_
    exact h.apart hb ((hrest c).mpr hcgs) ⟨le_rfl, b.index_lt_stop⟩ ⟨hlo, hhi⟩
  have hcalign := h'.aligned c hc
  rcases Nat.lt_trichotomy b.level c.level with hlt | heq | hlt
  · obtain ⟨x, hx, p, hxp, hcp⟩ :=
      h.exists_mem_larger hm hb hcalign hlt (h'.level_le hc) hlo hhi
    exact absurd (h'.apart hcs ((hrest x).mp hx) hcp hxp) id
  · have hle : b.index ≤ c.index := le_of_lt_add_dvd hbalign (heq ▸ hcalign) (heq ▸ hhi)
    have hbc : b = c := by
      obtain ⟨i, k⟩ := b
      obtain ⟨j, l⟩ := c
      simp only [Interval.mk.injEq] at *
      omega
    exact hbc ▸ hcs
  · have hle : b.index ≤ c.index :=
      le_of_lt_add_dvd ((pow_dvd_pow 2 hlt.le).trans hbalign) hcalign hhi
    have hin : c.index < b.stop := hlo.trans_lt b.index_lt_stop
    obtain ⟨x, hx, p, hxp, hbp⟩ :=
      h'.exists_mem_larger hm' hcs hbalign hlt (h.level_le hbmem) hle hin
    exact absurd (h.apart hb ((hrest x).mpr hx) hbp hxp) id

theorem noBuddies_whole (top : ℕ) : NoBuddies top [⟨0, top⟩] := fun b hb c hc hlt => by
  obtain rfl := List.mem_singleton.mp hb
  exact absurd rfl hlt.ne

/-- Where no two buddies are left to join at all, one interval covers everything. -/
theorem mem_iff_of_noBuddies (h : IsTiling top hs) (hm : NoBuddies top hs) :
    b ∈ hs ↔ b = ⟨0, top⟩ := by
  have h' : IsTiling top (hs ++ []) := by rwa [List.append_nil]
  have hwhole : IsTiling top ([⟨0, top⟩] ++ []) := by
    rw [List.append_nil]
    exact whole top
  rw [← List.mem_singleton]
  constructor
  · exact h'.mem_of_noBuddies hwhole hm (noBuddies_whole top) fun _ => Iff.rfl
  · exact hwhole.mem_of_noBuddies h' (noBuddies_whole top) hm fun _ => Iff.rfl

end IsTiling

end TronKernel.DyadicTiling
