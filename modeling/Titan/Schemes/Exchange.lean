import Mathlib.Algebra.BigOperators.Ring.Finset
import Mathlib.Algebra.Order.BigOperators.Group.Finset
import Mathlib.Data.Finset.Max
import Mathlib.Tactic

/-! Cheapest allocations.

    An amount is spread over stocks of different prices. If no unit can be exchanged for one that is
    cheaper, the allocation is a cheapest one. The dual price of the proof is the lowest price among
    the stocks of which the other allocation takes more. -/

namespace Schemes

variable {ι K : Type*} [LinearOrder K] {s : Finset ι} {price g x : ι → K}

/-- A price that no stock undercuts of which `x` takes more, and that none exceeds of which it takes
    less. -/
theorem exists_dual_price [Nonempty K]
    (hexchange : ∀ i ∈ s, ∀ j ∈ s, g i < x i → x j < g j → price j ≤ price i) :
    ∃ t, (∀ i ∈ s, g i < x i → t ≤ price i) ∧ ∀ j ∈ s, x j < g j → price j ≤ t := by
  classical
  rcases (s.filter fun i => g i < x i).eq_empty_or_nonempty with hnone | hsome
  · have hnot : ∀ i ∈ s, ¬ g i < x i := by simpa [Finset.filter_eq_empty_iff] using hnone
    rcases s.eq_empty_or_nonempty with rfl | hs
    · exact ⟨Classical.arbitrary K, by simp, by simp⟩
    · obtain ⟨k, -, hk⟩ := s.exists_max_image price hs
      exact ⟨price k, fun i hi hlt => absurd hlt (hnot i hi), fun j hj _ => hk j hj⟩
  · obtain ⟨k, hk, hmin⟩ := Finset.exists_min_image _ price hsome
    obtain ⟨hks, hlt⟩ := Finset.mem_filter.mp hk
    refine ⟨price k, fun i hi hi' => hmin i (Finset.mem_filter.mpr ⟨hi, hi'⟩), fun j hj hj' => ?_⟩
    exact hexchange k hks j hj hlt hj'

variable [CommRing K] [IsStrictOrderedRing K]

/-- An allocation that no exchange of units makes cheaper costs no more than another one of the same
    amount. -/
theorem cost_le_of_exchange (hsum : ∑ i ∈ s, g i = ∑ i ∈ s, x i)
    (hexchange : ∀ i ∈ s, ∀ j ∈ s, g i < x i → x j < g j → price j ≤ price i) :
    ∑ i ∈ s, price i * g i ≤ ∑ i ∈ s, price i * x i := by
  obtain ⟨t, hmore, hless⟩ := exists_dual_price hexchange
  have hterm : ∀ i ∈ s, 0 ≤ (price i - t) * (x i - g i) := by
    intro i hi
    rcases lt_trichotomy (g i) (x i) with hlt | heq | hgt
    · exact mul_nonneg (sub_nonneg.mpr (hmore i hi hlt)) (sub_nonneg.mpr hlt.le)
    · rw [heq, sub_self, mul_zero]
    · exact mul_nonneg_of_nonpos_of_nonpos (sub_nonpos.mpr (hless i hi hgt)) (sub_nonpos.mpr hgt.le)
  have hsplit : ∑ i ∈ s, (price i - t) * (x i - g i) =
      ∑ i ∈ s, price i * x i - ∑ i ∈ s, price i * g i - t * (∑ i ∈ s, x i - ∑ i ∈ s, g i) := by
    rw [← Finset.sum_sub_distrib, ← Finset.sum_sub_distrib, Finset.mul_sum,
      ← Finset.sum_sub_distrib]
    exact Finset.sum_congr rfl fun i _ => by ring
  have hpos := Finset.sum_nonneg hterm
  rw [hsplit, hsum, sub_self, mul_zero, sub_zero] at hpos
  exact sub_nonneg.mp hpos

/-- An allocation that no exchange of units makes dearer costs no less than another one of the same
    amount. -/
theorem le_cost_of_exchange (hsum : ∑ i ∈ s, g i = ∑ i ∈ s, x i)
    (hexchange : ∀ i ∈ s, ∀ j ∈ s, g i < x i → x j < g j → price i ≤ price j) :
    ∑ i ∈ s, price i * x i ≤ ∑ i ∈ s, price i * g i := by
  have hneg : ∑ i ∈ s, -price i * g i ≤ ∑ i ∈ s, -price i * x i :=
    cost_le_of_exchange hsum fun i hi j hj hij hji => neg_le_neg (hexchange i hi j hj hij hji)
  simpa only [neg_mul, Finset.sum_neg_distrib, neg_le_neg_iff] using hneg

end Schemes
