/-
SplitsSubgraph/Conservation.lean

Distributed funds are conserved up to rounding.

One distribution pays the fee, rounded down, and cuts the rest into shares whose
proportions add up to the whole, each rounded down.  Fee and rest add up to the
amount exactly, so all that is lost is what the shares lose: at most one unit less
than there are recipients.  Over a run the losses add up, one distribution at a
time, because the credits of different distributions are independent
(`balances_of_call`).
-/
import SplitsSubgraph.ClosedForm

namespace SplitsSubgraph

open KeyedTable Scaling

/-- The fee of a distribution, rounded down. -/
def feeOf (fee amount : ℤ) : ℤ := amount * fee / PERCENTAGE_SCALE

/-! ### One distribution -/

section one

variable {fee amount : ℤ} {allocations : List ℤ}

/-- Everything that one distribution credits. -/
def creditedTo (fee : ℤ) (allocations : List ℤ) (amount : ℤ) : ℤ :=
  (allocations.map fun a => creditOf fee a amount).sum

theorem amountAfterFee_add_feeOf (hf : 0 ≤ fee) (hamount : 0 ≤ amount) :
    amountAfterFee amount fee + feeOf fee amount = amount := by
  have hscale : scaleAmountByPercentage amount fee = feeOf fee amount := scale_eq_ediv hamount hf
  rw [amountAfterFee, hscale, sub_add_cancel]

theorem creditedTo_add_feeOf_le (hf : 0 ≤ fee) (hf' : fee ≤ PERCENTAGE_SCALE)
    (hamount : 0 ≤ amount) (hall : ∀ a ∈ allocations, 0 ≤ a)
    (hsum : allocations.sum = PERCENTAGE_SCALE) :
    creditedTo fee allocations amount + feeOf fee amount ≤ amount := by
  have hrest : creditedTo fee allocations amount ≤ amountAfterFee amount fee :=
    sum_scale_le percentageScale_pos (amountAfterFee_nonneg hamount hf') hall hsum
  have hadd := amountAfterFee_add_feeOf hf hamount
  omega

theorem le_creditedTo_add_feeOf (hf : 0 ≤ fee) (hf' : fee ≤ PERCENTAGE_SCALE)
    (hamount : 0 ≤ amount) (hall : ∀ a ∈ allocations, 0 ≤ a)
    (hsum : allocations.sum = PERCENTAGE_SCALE) :
    amount ≤ creditedTo fee allocations amount + feeOf fee amount + (allocations.length - 1) := by
  have hrest : amountAfterFee amount fee
      ≤ creditedTo fee allocations amount + (allocations.length - 1) :=
    le_sum_scale percentageScale_pos (amountAfterFee_nonneg hamount hf') hall hsum
  have hadd := amountAfterFee_add_feeOf hf hamount
  omega

end one

/-! ### A run -/

/-- What all recipients were credited with is the sum over the distributions. -/
theorem sum_totalDistributedOf (m : SaveMode) {pre post : List Trigger} {call : CreateSplitCall}
    (h : SplitMainCalls (pre ++ .createSplitCall call :: post)) (t : Address) :
    (call.accounts.map fun r => totalDistributedOf
        (run m (pre ++ .createSplitCall call :: post)) call.split r t).sum
      = ((distributedAmounts call.split t post).map
          (creditedTo call.distributorFee call.percentAllocations)).sum := by
  have hlen := h.length call (by simp)
  have hrow : ∀ p ∈ call.accounts.zip call.percentAllocations,
      totalDistributedOf (run m (pre ++ .createSplitCall call :: post)) call.split p.1 t
        = ((distributedAmounts call.split t post).map
            (creditOf call.distributorFee p.2)).sum := by
    rintro ⟨r, a⟩ hp
    exact totalDistributedOf_of_call m h hp t
  calc (call.accounts.map fun r => totalDistributedOf
          (run m (pre ++ .createSplitCall call :: post)) call.split r t).sum
      = ((call.accounts.zip call.percentAllocations).map fun p => totalDistributedOf
          (run m (pre ++ .createSplitCall call :: post)) call.split p.1 t).sum := by
        conv_lhs => rw [← List.map_fst_zip hlen.le, List.map_map]
        rfl
    _ = ((call.accounts.zip call.percentAllocations).map fun p =>
          ((distributedAmounts call.split t post).map
            (creditOf call.distributorFee p.2)).sum).sum := by
        rw [List.map_congr_left hrow]
    _ = (call.percentAllocations.map fun a =>
          ((distributedAmounts call.split t post).map
            (creditOf call.distributorFee a)).sum).sum := by
        conv_rhs => rw [← List.map_snd_zip hlen.ge, List.map_map]
        rfl
    _ = ((distributedAmounts call.split t post).map
          (creditedTo call.distributorFee call.percentAllocations)).sum := by
        exact Multiset.sum_map_sum_map (call.percentAllocations : Multiset ℤ)
          (distributedAmounts call.split t post : Multiset ℤ)

/-- **Conservation of distributed funds.**  In a run as SplitMain guarantees it, with
allocations that add up to the whole, the credits and the fees of a split in one
token never exceed what was distributed, and in each distribution they fall short of
it by at most one unit for every recipient but one. -/
theorem funds_conserved (m : SaveMode) (triggers : List Trigger) (h : SplitMainRun triggers)
    (hsum : ∀ call, .createSplitCall call ∈ triggers →
      call.percentAllocations.sum = PERCENTAGE_SCALE)
    (pre post : List Trigger) (call : CreateSplitCall)
    (hsplit : triggers = pre ++ .createSplitCall call :: post) (t : Address) :
    let amounts := distributedAmounts call.split t post
    let credited := (call.accounts.map fun r =>
      totalDistributedOf (run m triggers) call.split r t).sum
    let fees := (amounts.map fun amount => amount * call.distributorFee / PERCENTAGE_SCALE).sum
    credited + fees ≤ amounts.sum
      ∧ amounts.sum ≤ credited + fees + amounts.length * (call.accounts.length - 1) := by
  subst hsplit
  intro amounts credited fees
  have hmem : Trigger.createSplitCall call ∈ pre ++ .createSplitCall call :: post := by simp
  have hu : 0 ≤ call.distributorFee ∧ ∀ a ∈ call.percentAllocations, 0 ≤ a := h.unsigned _ hmem
  have hamounts : ∀ amount ∈ amounts, 0 ≤ amount :=
    distributedAmounts_nonneg fun x hx => h.unsigned x (by simp [hx])
  have hlen : (call.percentAllocations.length : ℤ) = call.accounts.length := by
    rw [h.length call hmem]
  -- credits and fees, distribution by distribution
  have htotal : credited + fees = (amounts.map fun amount =>
      creditedTo call.distributorFee call.percentAllocations amount
        + feeOf call.distributorFee amount).sum := by
    rw [List.sum_map_add]
    exact congrArg (· + fees) (sum_totalDistributedOf m h.toSplitMainCalls t)
  rw [htotal]
  constructor
  · calc _ ≤ (amounts.map fun amount => amount).sum := by
          apply List.sum_le_sum
          intro amount hamount
          exact creditedTo_add_feeOf_le hu.1 (h.fee_le call hmem) (hamounts amount hamount) hu.2
            (hsum call hmem)
      _ = amounts.sum := by rw [List.map_id']
  · calc amounts.sum = (amounts.map fun amount => amount).sum := by rw [List.map_id']
      _ ≤ (amounts.map fun amount =>
            creditedTo call.distributorFee call.percentAllocations amount
              + feeOf call.distributorFee amount + (call.accounts.length - 1 : ℤ)).sum := by
          apply List.sum_le_sum
          intro amount hamount
          rw [← hlen]
          exact le_creditedTo_add_feeOf hu.1 (h.fee_le call hmem) (hamounts amount hamount) hu.2
            (hsum call hmem)
      _ = _ := by
          rw [List.sum_map_add, List.map_const', List.sum_replicate, nsmul_eq_mul]

theorem funds_conserved_halvesRun :
    let credited := ([Address.filled 2, Address.filled 3].map fun r =>
      totalDistributedOf (run .plain halvesRun) (Address.filled 1) r zeroAddress).sum
    let fees := ([11, 10].map fun amount => amount * 100000 / PERCENTAGE_SCALE).sum
    credited + fees ≤ [11, 10].sum ∧ [11, 10].sum ≤ credited + fees + 2 * (2 - 1) := by
  refine funds_conserved .plain halvesRun splitMainRun_halvesRun ?_ [] halvesRun.tail halvesCall rfl
    zeroAddress
  intro call hmem
  obtain rfl : call = halvesCall := by simpa [halvesRun] using hmem
  decide

end SplitsSubgraph
