/-
SplitsSubgraph/Lib/Scale.lean

Proportional shares in integer arithmetic.  `scale S x p` is the share `p / S` of
`x`, truncated toward zero.  For amounts and proportions that are not negative
truncation is rounding down (`scale_eq_ediv`), so a share is between zero and the
amount.

When an amount is cut into shares whose proportions add up to the whole, each share
loses less than one unit, so together they lose at most one unit less than there
are shares (`sum_scale_le`, `le_sum_scale`).

What is left of an amount after a share `f` was taken is rounded up, and a share
`a` of that is rounded down again (`scaleRest`).  The two errors have opposite
signs, so the result is within one unit of the exact share on either side
(`abs_scaleRest_sub_lt`), and it still grows with the amount.
-/
import Mathlib

namespace Scaling

/-- The share `p / S` of `x`, truncated toward zero. -/
def scale (S x p : ℤ) : ℤ := (x * p).tdiv S

variable {S x p : ℤ}

theorem scale_eq_ediv (hx : 0 ≤ x) (hp : 0 ≤ p) : scale S x p = x * p / S :=
  Int.tdiv_eq_ediv_of_nonneg (mul_nonneg hx hp)

theorem scale_nonneg (hS : 0 < S) (hx : 0 ≤ x) (hp : 0 ≤ p) : 0 ≤ scale S x p :=
  Int.tdiv_nonneg (mul_nonneg hx hp) hS.le

/-- A share of at most the whole is at most the whole; the proportion may even be
negative. -/
theorem scale_le (hS : 0 < S) (hx : 0 ≤ x) (hp : p ≤ S) : scale S x p ≤ x := by
  rcases le_or_gt 0 p with hp0 | hp0
  · rw [scale_eq_ediv hx hp0]
    apply Int.ediv_le_of_le_mul hS
    exact mul_le_mul_of_nonneg_left hp hx
  · have hneg : 0 ≤ -(x * p) := neg_nonneg.mpr (mul_nonpos_of_nonneg_of_nonpos hx hp0.le)
    have hdiv := Int.tdiv_nonneg hneg hS.le
    rw [Int.neg_tdiv] at hdiv
    exact (neg_nonneg.mp hdiv).trans hx

/-- What a share loses to rounding, in parts of `S`. -/
theorem exists_remainder (hS : 0 < S) (hx : 0 ≤ x) (hp : 0 ≤ p) :
    ∃ r, 0 ≤ r ∧ r < S ∧ S * scale S x p + r = x * p := by
  refine ⟨x * p % S, Int.emod_nonneg _ hS.ne', Int.emod_lt_of_pos _ hS, ?_⟩
  rw [scale_eq_ediv hx hp]
  exact Int.mul_ediv_add_emod (x * p) S

/-! ### Cutting an amount into shares -/

/-- Shares never add up to more than the shared proportion of the amount. -/
theorem mul_sum_scale_le (hS : 0 < S) (hx : 0 ≤ x) {ps : List ℤ} (hps : ∀ p ∈ ps, 0 ≤ p) :
    S * (ps.map (scale S x)).sum ≤ x * ps.sum := by
  induction ps with
  | nil => simp
  | cons p ps ih =>
    have hp := hps p List.mem_cons_self
    have ih' := ih fun q hq => hps q (List.mem_cons_of_mem _ hq)
    obtain ⟨r, hr, -, hshare⟩ := exists_remainder hS hx hp
    rw [List.map_cons, List.sum_cons, List.sum_cons, mul_add, mul_add]
    linarith

/-- Each share loses less than one unit. -/
theorem mul_sum_le_sum_scale (hS : 0 < S) (hx : 0 ≤ x) {ps : List ℤ} (hps : ∀ p ∈ ps, 0 ≤ p) :
    x * ps.sum ≤ S * (ps.map (scale S x)).sum + ps.length * (S - 1) := by
  induction ps with
  | nil => simp
  | cons p ps ih =>
    have hp := hps p List.mem_cons_self
    have ih' := ih fun q hq => hps q (List.mem_cons_of_mem _ hq)
    obtain ⟨r, -, hr, hshare⟩ := exists_remainder hS hx hp
    have hunit : r ≤ S - 1 := Int.le_sub_one_of_lt hr
    rw [List.map_cons, List.sum_cons, List.sum_cons, List.length_cons, mul_add, mul_add]
    push_cast
    linarith

/-- Shares of the whole never add up to more than the amount. -/
theorem sum_scale_le (hS : 0 < S) (hx : 0 ≤ x) {ps : List ℤ} (hps : ∀ p ∈ ps, 0 ≤ p)
    (hsum : ps.sum = S) : (ps.map (scale S x)).sum ≤ x := by
  have h := mul_sum_scale_le hS hx hps
  rw [hsum, mul_comm x S] at h
  exact le_of_mul_le_mul_left h hS

/-- Shares of the whole fall short of the amount by at most one unit less than
there are shares. -/
theorem le_sum_scale (hS : 0 < S) (hx : 0 ≤ x) {ps : List ℤ} (hps : ∀ p ∈ ps, 0 ≤ p)
    (hsum : ps.sum = S) : x ≤ (ps.map (scale S x)).sum + (ps.length - 1) := by
  have h := mul_sum_le_sum_scale hS hx hps
  rw [hsum] at h
  have hpos : (0 : ℤ) < ps.length := by
    rcases ps with - | ⟨p, ps⟩
    · simp only [List.sum_nil] at hsum
      omega
    · simp only [List.length_cons]
      omega
  -- n shares lose at most n (S - 1) < n S out of S times the amount
  have hlt : S * x < S * ((ps.map (scale S x)).sum + ps.length) := by
    rw [mul_add, mul_comm S x]
    linarith [mul_comm S (ps.length : ℤ)]
  have hunit := lt_of_mul_lt_mul_left hlt hS.le
  omega

/-! ### Growth -/

section growth

variable {y q : ℤ}

theorem scale_mono_left (hS : 0 < S) (hx : 0 ≤ x) (hp : 0 ≤ p) (h : x ≤ y) :
    scale S x p ≤ scale S y p := by
  rw [scale_eq_ediv hx hp, scale_eq_ediv (hx.trans h) hp]
  exact Int.ediv_le_ediv hS (mul_le_mul_of_nonneg_right h hp)

theorem scale_mono_right (hS : 0 < S) (hx : 0 ≤ x) (hp : 0 ≤ p) (h : p ≤ q) :
    scale S x p ≤ scale S x q := by
  rw [scale_eq_ediv hx hp, scale_eq_ediv hx (hp.trans h)]
  exact Int.ediv_le_ediv hS (mul_le_mul_of_nonneg_left h hx)

/-- A share grows no faster than the amount. -/
theorem scale_le_add (hS : 0 < S) (hx : 0 ≤ x) (hp : 0 ≤ p) (hp' : p ≤ S) (h : x ≤ y) :
    scale S y p ≤ scale S x p + (y - x) := by
  rw [scale_eq_ediv hx hp, scale_eq_ediv (hx.trans h) hp,
    ← Int.add_mul_ediv_right _ _ hS.ne']
  apply Int.ediv_le_ediv hS
  have hstep : (y - x) * p ≤ (y - x) * S := mul_le_mul_of_nonneg_left hp' (sub_nonneg.mpr h)
  linarith

end growth

/-! ### A share of what is left -/

/-- The share `a` of what is left of `x` after the share `f`. -/
def scaleRest (S f a x : ℤ) : ℤ := scale S (x - scale S x f) a

section rest

variable {f g a b y : ℤ}

theorem rest_nonneg (hS : 0 < S) (hx : 0 ≤ x) (hf' : f ≤ S) : 0 ≤ x - scale S x f :=
  sub_nonneg.mpr (scale_le hS hx hf')

theorem scaleRest_nonneg (hS : 0 < S) (hx : 0 ≤ x) (hf' : f ≤ S) (ha : 0 ≤ a) :
    0 ≤ scaleRest S f a x :=
  scale_nonneg hS (rest_nonneg hS hx hf') ha

theorem scaleRest_mono (hS : 0 < S) (hx : 0 ≤ x) (hf : 0 ≤ f) (hf' : f ≤ S) (ha : 0 ≤ a)
    (h : x ≤ y) : scaleRest S f a x ≤ scaleRest S f a y := by
  apply scale_mono_left hS (rest_nonneg hS hx hf') ha
  have hfee := scale_le_add hS hx hf hf' h
  linarith

theorem scaleRest_mono_share (hS : 0 < S) (hx : 0 ≤ x) (hf' : f ≤ S) (ha : 0 ≤ a) (h : a ≤ b) :
    scaleRest S f a x ≤ scaleRest S f b x :=
  scale_mono_right hS (rest_nonneg hS hx hf') ha h

theorem scaleRest_anti (hS : 0 < S) (hx : 0 ≤ x) (hf : 0 ≤ f) (hg : g ≤ S) (ha : 0 ≤ a)
    (h : f ≤ g) : scaleRest S g a x ≤ scaleRest S f a x := by
  apply scale_mono_left hS (rest_nonneg hS hx hg) ha
  have hfee := scale_mono_right hS hx hf h
  linarith

/-- In parts of `S * S`, the error of rounding twice is less than the whole on
either side. -/
theorem scaleRest_bounds (hS : 0 < S) (hx : 0 ≤ x) (hf : 0 ≤ f) (hf' : f ≤ S) (ha : 0 ≤ a)
    (ha' : a ≤ S) :
    x * (S - f) * a - S * S < S * S * scaleRest S f a x
      ∧ S * S * scaleRest S f a x < x * (S - f) * a + S * S := by
  obtain ⟨r, hr, hr', hfee⟩ := exists_remainder hS hx hf
  obtain ⟨r', hr₂, hr₂', hshare⟩ := exists_remainder hS (rest_nonneg hS hx hf') ha
  -- the fee leaves `r` too much, the share leaves out `r'`
  have hexact : S * S * scaleRest S f a x = x * (S - f) * a + (r * a - S * r') := by
    calc S * S * scaleRest S f a x
        = S * (S * scale S (x - scale S x f) a) := by rw [scaleRest, mul_assoc]
      _ = S * ((x - scale S x f) * a - r') := by rw [← hshare, add_sub_cancel_right]
      _ = (S * x - S * scale S x f) * a - S * r' := by ring
      _ = (S * x - (x * f - r)) * a - S * r' := by rw [← hfee, add_sub_cancel_right]
      _ = x * (S - f) * a + (r * a - S * r') := by ring
  have hup : r * a < S * S := by
    calc r * a ≤ r * S := mul_le_mul_of_nonneg_left ha' hr
      _ < S * S := mul_lt_mul_of_pos_right hr' hS
  have hdown : S * r' < S * S := mul_lt_mul_of_pos_left hr₂' hS
  have hra : 0 ≤ r * a := mul_nonneg hr ha
  have hSr : 0 ≤ S * r' := mul_nonneg hS.le hr₂
  rw [hexact]
  constructor <;> linarith

/-- **Rounding twice loses or gains less than one unit.** -/
theorem abs_scaleRest_sub_lt (hS : 0 < S) (hx : 0 ≤ x) (hf : 0 ≤ f) (hf' : f ≤ S) (ha : 0 ≤ a)
    (ha' : a ≤ S) :
    |(scaleRest S f a x : ℚ) - x * (S - f) * a / (S * S)| < 1 := by
  obtain ⟨hlow, hhigh⟩ := scaleRest_bounds hS hx hf hf' ha ha'
  have hSS : (0 : ℚ) < S * S := by
    have hpos : (0 : ℤ) < S * S := mul_pos hS hS
    exact_mod_cast hpos
  have hlow' : (x * (S - f) * a : ℚ) - S * S < S * S * scaleRest S f a x := by exact_mod_cast hlow
  have hhigh' : (S * S * scaleRest S f a x : ℚ) < x * (S - f) * a + S * S := by
    exact_mod_cast hhigh
  rw [abs_sub_lt_iff, sub_lt_iff_lt_add, sub_lt_iff_lt_add]
  constructor
  · rw [one_add_div hSS.ne', lt_div_iff₀ hSS]
    linarith
  · rw [div_lt_iff₀ hSS]
    linarith

end rest

/-! ### Errors add up -/

/-- Errors of less than one unit each add up to less than one unit for each. -/
theorem abs_sum_sub_sum_lt {α : Type*} {u v : α → ℚ} {l : List α} (hne : l ≠ [])
    (h : ∀ i ∈ l, |u i - v i| < 1) : |(l.map u).sum - (l.map v).sum| < l.length := by
  calc |(l.map u).sum - (l.map v).sum|
      = |(l.map fun i => u i - v i).sum| :=
        congrArg abs (Multiset.sum_map_sub (m := (l : Multiset α))).symm
    _ ≤ ((l.map fun i => u i - v i).map abs).sum :=
        Multiset.abs_sum_le_sum_abs (s := (l.map fun i => u i - v i : Multiset ℚ))
    _ = (l.map fun i => |u i - v i|).sum := by rw [List.map_map]; rfl
    _ < (l.map fun _ => (1 : ℚ)).sum := List.sum_lt_sum_of_ne_nil hne _ _ h
    _ = l.length := by simp

end Scaling
