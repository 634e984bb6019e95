import Titan.Schemes.Loop
import Titan.Schemes.Ring
import Mathlib.Data.Nat.Log

/-! The capacity of a queue. -/

namespace Titan
open Schemes

/-- One pass of the loop of `roundUpPowerOfTwo`. -/
def roundUpStep (val power : UInt64) : Option UInt64 :=
  if power < val then some (power <<< 1) else none

/-- The first power of two that is not below `val`. Beyond `2 ^ 63` the shift runs into zero and the
    loop of the source does not end; the value given here means nothing then. -/
def roundUpPowerOfTwo (val : UInt64) : UInt64 := loop (roundUpStep val) 64 1

variable {val power : UInt64} {e : ℕ}

/-- The loop has passed all powers of two below `power`, each of which was too small. -/
def Passed (val power : UInt64) : Prop :=
  ∃ e ≤ 63, power.toNat = 2 ^ e ∧ ∀ d < e, 2 ^ d < val.toNat

theorem Passed.one (val : UInt64) : Passed val 1 := ⟨0, by omega, rfl, fun _ h => by omega⟩

theorem toNat_shiftLeft_one (hpow : power.toNat = 2 ^ e) :
    (power <<< 1).toNat = 2 ^ (e + 1) % 2 ^ 64 := by
  rw [UInt64.toNat_shiftLeft, hpow]
  show 2 ^ e <<< 1 % 2 ^ 64 = 2 ^ (e + 1) % 2 ^ 64
  rw [Nat.shiftLeft_eq, pow_one, ← pow_succ]

/-- One pass, where the shift keeps its bit. -/
theorem Passed.step {power' : UInt64} (h : Passed val power) (hval : val.toNat ≤ 2 ^ 63)
    (hstep : roundUpStep val power = some power') :
    Passed val power' ∧ 63 - Nat.log 2 power'.toNat < 63 - Nat.log 2 power.toNat := by
  obtain ⟨e, he, hpow, hbelow⟩ := h
  rw [roundUpStep] at hstep
  split_ifs at hstep with hlt
  cases hstep
  have hlt' : 2 ^ e < val.toNat := hpow ▸ hlt
  have he' : e < 63 := (Nat.pow_lt_pow_iff_right (by decide)).mp (hlt'.trans_le hval)
  have hshift : (power <<< 1).toNat = 2 ^ (e + 1) := by
    rw [toNat_shiftLeft_one hpow, Nat.mod_eq_of_lt (Nat.pow_lt_pow_right (by decide) (by omega))]
  rw [hshift, hpow, Nat.log_pow (by decide), Nat.log_pow (by decide)]
  refine ⟨⟨e + 1, he', hshift, fun d hd => ?_⟩, by omega⟩
  rcases Nat.lt_succ_iff_lt_or_eq.mp hd with hd | rfl
  · exact hbelow d hd
  · exact hlt'

/-- Up to `2 ^ 63` the loop ends. -/
theorem roundUpPowerOfTwo_exits (h : val.toNat ≤ 2 ^ 63) :
    Exits (roundUpStep val) 1 (roundUpPowerOfTwo val) :=
  loop_exits (I := Passed val) (fun power => 63 - Nat.log 2 power.toNat)
    (fun _ _ hp hstep => hp.step h hstep) _ _ (.one val) (by omega)

theorem passed_roundUpPowerOfTwo (h : val.toNat ≤ 2 ^ 63) :
    Passed val (roundUpPowerOfTwo val) :=
  (roundUpPowerOfTwo_exits h).iterates.invariant (fun _ _ hp hstep => (hp.step h hstep).1)
    (.one val)

/-- Up to `2 ^ 63` the loop ends with a power of two. -/
theorem roundUpPowerOfTwo_pow (h : val.toNat ≤ 2 ^ 63) :
    ∃ e, e ≤ 63 ∧ (roundUpPowerOfTwo val).toNat = 2 ^ e := by
  obtain ⟨e, he, hpow, -⟩ := passed_roundUpPowerOfTwo h
  exact ⟨e, he, hpow⟩

theorem le_roundUpPowerOfTwo (h : val.toNat ≤ 2 ^ 63) :
    val.toNat ≤ (roundUpPowerOfTwo val).toNat := by
  have hdone := (roundUpPowerOfTwo_exits h).done
  rw [roundUpStep] at hdone
  split_ifs at hdone with hlt
  exact UInt64.not_lt.mp hlt

/-- The mask that belongs to a capacity. -/
theorem toNat_mask (hpow : power.toNat = 2 ^ e) : (power - 1).toNat = 2 ^ e - 1 := by
  have hpos := Nat.two_pow_pos e
  have hlt := power.toNat_lt
  rw [UInt64.toNat_sub, UInt64.toNat_one]
  omega

/-- What a queue is built on: the loop ends, with the least power of two that is not below `val`; the
    mask of that capacity takes the remainder of every counter, and the counters wrap at a multiple
    of it. -/
structure Rounded (val capacity : UInt64) : Prop where
  exits : Exits (roundUpStep val) 1 capacity
  least : IsLeast {p | (∃ e, p = 2 ^ e) ∧ val.toNat ≤ p} capacity.toNat
  mask : ∀ counter : UInt64, (counter &&& (capacity - 1)).toNat = counter.toNat % capacity.toNat
  dvd : capacity.toNat ∣ 2 ^ 64

theorem rounded_roundUpPowerOfTwo (h : val.toNat ≤ 2 ^ 63) :
    Rounded val (roundUpPowerOfTwo val) := by
  obtain ⟨e, he, hpow, hbelow⟩ := passed_roundUpPowerOfTwo h
  refine ⟨roundUpPowerOfTwo_exits h, ⟨⟨⟨e, hpow⟩, le_roundUpPowerOfTwo h⟩, ?_⟩, fun counter => ?_,
    hpow ▸ Nat.pow_dvd_pow 2 (by omega)⟩
  · rintro p ⟨⟨d, rfl⟩, hd⟩
    rw [hpow]
    refine Nat.pow_le_pow_right (by decide) (Nat.le_of_not_lt fun hlt => ?_)
    have := hbelow d hlt
    omega
  · rw [hpow, ← toNat_and_mask (by omega) (toNat_mask hpow), UInt64.ofNat_toNat]

/-- Beyond `2 ^ 63` every power of two that fits is too small, and so is the zero that comes behind
    the last one. -/
theorem roundUp_diverges (h : 2 ^ 63 < val.toNat) : ¬ Exits (roundUpStep val) 1 power := by
  have hmore : ∀ p : UInt64, (∃ e ≤ 64, p.toNat = 2 ^ e % 2 ^ 64) → p < val := by
    rintro p ⟨e, he, hp⟩
    rw [UInt64.lt_iff_toNat_lt, hp]
    refine lt_of_le_of_lt ?_ h
    rcases Nat.lt_or_ge e 64 with he' | he'
    · exact (Nat.mod_le _ _).trans (Nat.pow_le_pow_right (by decide) (by omega))
    · rw [show e = 64 by omega, Nat.mod_self]
      exact Nat.zero_le _
  refine not_exits (I := fun p => ∃ e ≤ 64, p.toNat = 2 ^ e % 2 ^ 64) ?_ ?_
    ⟨0, by decide, rfl⟩
  · rintro p p' ⟨e, he, hp⟩ hstep
    rw [roundUpStep, if_pos (hmore p ⟨e, he, hp⟩)] at hstep
    cases hstep
    rcases Nat.lt_or_ge e 64 with he' | he'
    · rw [Nat.mod_eq_of_lt (Nat.pow_lt_pow_right (by decide) he')] at hp
      exact ⟨e + 1, he', toNat_shiftLeft_one hp⟩
    · -- zero stays zero
      have hzero : p = 0 := UInt64.toNat_inj.mp (by rw [hp, show e = 64 by omega]; rfl)
      exact ⟨64, le_rfl, by rw [hzero]; rfl⟩
  · intro p hp
    rw [roundUpStep, if_pos (hmore p hp)]
    exact Option.some_ne_none _

/-- Rounding gives a capacity iff there is one: for arguments up to `2 ^ 63`. -/
theorem rounds_iff (val : UInt64) : (∃ capacity, Rounded val capacity) ↔ val.toNat ≤ 2 ^ 63 := by
  constructor
  · rintro ⟨capacity, h⟩
    by_contra hgt
    exact roundUp_diverges (Nat.lt_of_not_le hgt) h.exits
  · intro h
    exact ⟨_, rounded_roundUpPowerOfTwo h⟩

/-- The first argument for which the loop does not end: `2 ^ 63 + 1`. -/
theorem rounds_never : ¬ ∃ capacity, Rounded 9223372036854775809 capacity := by
  rintro ⟨capacity, h⟩
  exact roundUp_diverges (by decide +kernel) h.exits

end Titan
