/-
SplitsSubgraph/Drift.lean

How far the credits of one recipient drift from its exact share.

`handleDistribution` rounds twice.  The fee is rounded down, so what is left is
rounded up, and the recipient's share of that is rounded down.  The two errors go in
opposite directions and neither reaches one unit, so a credit is never a whole unit
away from the exact share, on either side, and over `k` distributions the total is
less than `k` units away (`credit_drift`).  For a run of the handlers this bounds
`totalDistributed` (`totalDistributed_drift`).
-/
import SplitsSubgraph.Conservation

namespace SplitsSubgraph

open Scaling

/-! ### One distribution -/

theorem creditOf_eq_scaleRest (fee allocation amount : ℤ) :
    creditOf fee allocation amount = scaleRest PERCENTAGE_SCALE fee allocation amount := rfl

/-- The share of `A` that allocation `a` gives after fee `f`, without rounding. -/
def exactShare (f a A : ℤ) : ℚ := A * (10 ^ 6 - f) * a / 10 ^ 12

/-- The exact shares of several amounts add up to the exact share of their sum. -/
theorem sum_exactShare (f a : ℤ) (amounts : List ℤ) :
    (amounts.map (exactShare f a)).sum = exactShare f a amounts.sum := by
  induction amounts with
  | nil => simp [exactShare]
  | cons A amounts ih =>
    rw [List.map_cons, List.sum_cons, List.sum_cons, ih]
    simp only [exactShare]
    push_cast
    ring

section credit

variable {f a : ℤ}

/-- A credit is less than one unit away from the exact share. -/
theorem abs_creditOf_sub_lt (hf : 0 ≤ f) (hf' : f ≤ PERCENTAGE_SCALE) (ha : 0 ≤ a)
    (ha' : a ≤ PERCENTAGE_SCALE) {A : ℤ} (hA : 0 ≤ A) :
    |(creditOf f a A : ℚ) - exactShare f a A| < 1 := by
  have h := abs_scaleRest_sub_lt percentageScale_pos hA hf hf' ha ha'
  rw [← creditOf_eq_scaleRest] at h
  have hscale : (PERCENTAGE_SCALE : ℚ) = 10 ^ 6 := by norm_num [PERCENTAGE_SCALE]
  rw [hscale, ← pow_add] at h
  exact h

/-- The credits of `k` distributions are less than `k` units away. -/
theorem abs_sum_creditOf_sub_lt (hf : 0 ≤ f) (hf' : f ≤ PERCENTAGE_SCALE) (ha : 0 ≤ a)
    (ha' : a ≤ PERCENTAGE_SCALE) {amounts : List ℤ} (hne : amounts ≠ [])
    (hA : ∀ A ∈ amounts, 0 ≤ A) :
    |((amounts.map (creditOf f a)).sum : ℚ) - exactShare f a amounts.sum| < amounts.length := by
  have hcast : (((amounts.map (creditOf f a)).sum : ℤ) : ℚ)
      = (amounts.map fun A => (creditOf f a A : ℚ)).sum := by
    rw [Int.cast_list_sum, List.map_map]
    rfl
  rw [hcast, ← sum_exactShare]
  apply abs_sum_sub_sum_lt hne
  intro A hmem
  exact abs_creditOf_sub_lt hf hf' ha ha' (hA A hmem)

end credit

/-- **Credits are monotone and drift by less than one unit each.**  For a fee `f` and an
allocation `a` between zero and the whole, the credit `creditOf f a A` of an amount `A`
that is not negative

* is not negative, grows with `A` and with `a`, and falls as `f` grows;
* differs from the exact share `A (10⁶ - f) a / 10¹²` by less than one;

and the credits of `k ≥ 1` distributions differ from the exact share of their total by
less than `k`. -/
theorem credit_drift {f a : ℤ} (hf : 0 ≤ f) (hf' : f ≤ 10 ^ 6) (ha : 0 ≤ a) (ha' : a ≤ 10 ^ 6) :
    (∀ A, 0 ≤ A → 0 ≤ creditOf f a A)
    ∧ (∀ A B, 0 ≤ A → A ≤ B → creditOf f a A ≤ creditOf f a B)
    ∧ (∀ A b, 0 ≤ A → a ≤ b → b ≤ 10 ^ 6 → creditOf f a A ≤ creditOf f b A)
    ∧ (∀ A g, 0 ≤ A → f ≤ g → g ≤ 10 ^ 6 → creditOf g a A ≤ creditOf f a A)
    ∧ (∀ A, 0 ≤ A → |(creditOf f a A : ℚ) - exactShare f a A| < 1)
    ∧ ∀ amounts : List ℤ, amounts ≠ [] → (∀ A ∈ amounts, 0 ≤ A) →
      |((amounts.map (creditOf f a)).sum : ℚ) - exactShare f a amounts.sum| < amounts.length := by
  refine ⟨?_, ?_, ?_, ?_, ?_, ?_⟩
  · intro A hA
    exact creditOf_nonneg hf' ha hA
  · intro A B hA hAB
    exact scaleRest_mono percentageScale_pos hA hf hf' ha hAB
  · intro A b hA hab _
    exact scaleRest_mono_share percentageScale_pos hA hf' ha hab
  · intro A g hA hfg hg
    exact scaleRest_anti percentageScale_pos hA hf hg ha hfg
  · intro A hA
    exact abs_creditOf_sub_lt hf hf' ha ha' hA
  · intro amounts hne hA
    exact abs_sum_creditOf_sub_lt hf hf' ha ha' hne hA

/-- Both directions occur: a unit less its fee of one half is still a unit, and half of
a unit is nothing. -/
theorem credit_drift_unit :
    creditOf 500000 1000000 1 = 1 ∧ creditOf 0 500000 1 = 0
    ∧ |(creditOf 500000 1000000 1 : ℚ) - exactShare 500000 1000000 1| < 1 := by
  refine ⟨by decide, by decide, ?_⟩
  obtain ⟨-, -, -, -, hdrift, -⟩ := credit_drift (f := 500000) (a := 1000000) (by decide)
    (by decide) (by decide) (by decide)
  exact hdrift 1 (by decide)

/-! ### A run -/

/-- **Drift of a token row.**  In a run as SplitMain guarantees it, what a row says was
distributed to a recipient is less than one unit per distribution away from the exact
share of everything that was distributed. -/
theorem totalDistributed_drift (m : SaveMode) {pre post : List Trigger} {call : CreateSplitCall}
    (h : SplitMainRun (pre ++ .createSplitCall call :: post)) {r t : Address} {a : ℤ}
    (hr : (r, a) ∈ call.accounts.zip call.percentAllocations) (ha' : a ≤ PERCENTAGE_SCALE)
    (hne : distributedAmounts call.split t post ≠ []) :
    let amounts := distributedAmounts call.split t post
    |(totalDistributedOf (run m (pre ++ .createSplitCall call :: post)) call.split r t : ℚ)
        - exactShare call.distributorFee a amounts.sum| < amounts.length := by
  intro amounts
  have hmem : Trigger.createSplitCall call ∈ pre ++ .createSplitCall call :: post := by simp
  have hu : 0 ≤ call.distributorFee ∧ ∀ a ∈ call.percentAllocations, 0 ≤ a := h.unsigned _ hmem
  rw [totalDistributedOf_of_call m h.toSplitMainCalls hr t]
  apply abs_sum_creditOf_sub_lt hu.1 (h.fee_le call hmem) (hu.2 a (List.of_mem_zip hr).2) ha' hne
  exact distributedAmounts_nonneg fun x hx => h.unsigned x (by simp [hx])

end SplitsSubgraph
