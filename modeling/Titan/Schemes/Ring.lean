import Mathlib.Data.Nat.Count
import Mathlib.Tactic

/-! Positions that go round a ring, and counters that wrap.

    Position `i` of an endless sequence lies in slot `i % cap` of a ring of `cap` slots. `laps` counts
    how often a slot has been passed. A window of at most `cap` positions passes a slot once, so a
    ring holds the items of a window whatever lies in the other slots. -/

namespace Schemes

variable {cap k i v w : ℕ}

/-- How many of the first `w` positions lie in slot `k`. -/
def laps (cap k w : ℕ) : ℕ := Nat.count (fun i => i % cap = k) w

@[simp] theorem laps_zero : laps cap k 0 = 0 := Nat.count_zero _

theorem laps_succ_self (cap w : ℕ) : laps cap (w % cap) (w + 1) = laps cap (w % cap) w + 1 := by
  rw [laps, Nat.count_succ, if_pos rfl, laps]

theorem laps_succ_of_ne (h : w % cap ≠ k) : laps cap k (w + 1) = laps cap k w := by
  rw [laps, Nat.count_succ, if_neg h, Nat.add_zero, laps]

theorem laps_mono (cap k : ℕ) {v w : ℕ} (h : v ≤ w) : laps cap k v ≤ laps cap k w :=
  Nat.count_monotone _ h

/-- Within one round after position `i` its slot is not passed again. -/
theorem laps_window (cap i : ℕ) : ∀ d, d < cap →
    laps cap (i % cap) (i + 1 + d) = laps cap (i % cap) (i + 1)
  | 0, _ => rfl
  | d + 1, hd => by
    have hne : (i + 1 + d) % cap ≠ i % cap := by
      intro he
      have hdvd : cap ∣ i + 1 + d - i := (Nat.modEq_iff_dvd' (by omega)).mp (Nat.ModEq.symm he)
      have := Nat.le_of_dvd (by omega) hdvd
      omega
    rw [← Nat.add_assoc, laps_succ_of_ne hne, laps_window cap i d (by omega)]

theorem laps_round (h : i < w) (h' : w ≤ i + cap) :
    laps cap (i % cap) w = laps cap (i % cap) (i + 1) := by
  obtain ⟨d, rfl⟩ := Nat.exists_eq_add_of_le (Nat.succ_le_of_lt h)
  exact laps_window cap i d (by omega)

/-- No slot is passed in the first round before its turn. -/
theorem laps_first (h : w < cap) : ∀ v, v ≤ w → laps cap w v = 0
  | 0, _ => laps_zero
  | v + 1, hv => by
    have hne : v % cap ≠ w := by
      rw [Nat.mod_eq_of_lt (by omega)]
      omega
    rw [laps_succ_of_ne hne, laps_first h v (by omega)]

/-- A slot is not passed between its last turn and its next. -/
theorem laps_before (h : v ≤ w) (h' : w < v + cap) : laps cap (w % cap) v = laps cap (w % cap) w := by
  rcases Nat.lt_or_ge w cap with hw | hw
  · rw [Nat.mod_eq_of_lt hw, laps_first hw v h, laps_first hw w le_rfl]
  · have hmod : w % cap = (w - cap) % cap := by
      rw [← Nat.sub_add_cancel hw, Nat.add_mod_right, Nat.sub_add_cancel hw]
    rw [hmod, laps_round (i := w - cap) (by omega) (by omega),
      laps_round (i := w - cap) (w := w) (by omega) (by omega)]

/-! ### Wrapping counters -/

/-- The distance of two counters is exact while it stays below the modulus. -/
theorem toNat_sub_ofNat {a b : ℕ} (h : b ≤ a) (hd : a - b < 2 ^ 64) :
    (UInt64.ofNat a - UInt64.ofNat b).toNat = a - b := by
  rw [UInt64.toNat_sub, UInt64.toNat_ofNat', UInt64.toNat_ofNat']
  omega

/-- The mask of a power of two takes the remainder, whether or not the counter has wrapped. -/
theorem toNat_and_mask {mask : UInt64} {e : ℕ} (he : e ≤ 64) (hmask : mask.toNat = 2 ^ e - 1)
    (i : ℕ) : (UInt64.ofNat i &&& mask).toNat = i % 2 ^ e := by
  rw [UInt64.toNat_and, hmask, Nat.and_two_pow_sub_one_eq_mod, UInt64.toNat_ofNat',
    Nat.mod_mod_of_dvd _ (Nat.pow_dvd_pow 2 he)]

/-- A counter that wraps keeps its slot. -/
theorem toNat_add_mod {cap : ℕ} (h : cap ∣ 2 ^ 64) (c d : UInt64) :
    (c + d).toNat % cap = (c.toNat + d.toNat) % cap := by
  rw [UInt64.toNat_add, Nat.mod_mod_of_dvd _ h]

/-! ### Windows -/

section Window
variable {α : Type*} [Inhabited α] {ring : List α} {a a' len : ℕ}

/-- The `len` items of a ring from position `a` on. -/
def window (ring : List α) (a len : ℕ) : List α :=
  (List.range len).map fun i => ring.getD ((a + i) % ring.length) default

theorem window_cons (ring : List α) (a len : ℕ) :
    window ring a (len + 1) = ring.getD (a % ring.length) default :: window ring (a + 1) len := by
  rw [window, List.range_succ_eq_map, List.map_cons, List.map_map, window]
  refine congrArg _ (List.map_congr_left fun i _ => ?_)
  rw [Function.comp_apply, Nat.succ_eq_add_one, Nat.add_assoc, Nat.add_comm 1]

theorem window_concat (ring : List α) (a len : ℕ) :
    window ring a (len + 1) = window ring a len ++ [ring.getD ((a + len) % ring.length) default] := by
  rw [window, List.range_succ, List.map_append, List.map_singleton, window]

/-- A window can be told by the slots of its positions. -/
theorem window_congr (h : a % ring.length = a' % ring.length) :
    window ring a len = window ring a' len := by
  refine List.map_congr_left fun i _ => ?_
  rw [Nat.add_mod, h, ← Nat.add_mod]

/-- A slot outside a window does not matter to it. -/
theorem window_set (y : α) {k : ℕ} (h : ∀ i < len, (a + i) % ring.length ≠ k) :
    window (ring.set k y) a len = window ring a len := by
  refine List.map_congr_left fun i hi => ?_
  rw [List.length_set, List.getD_eq_getElem?_getD, List.getD_eq_getElem?_getD,
    List.getElem?_set_ne (h i (List.mem_range.mp hi)).symm]

/-- Two positions less than one round apart lie in different slots. -/
theorem add_mod_ne {i j : ℕ} (hij : i < j) (hj : j < i + cap) : (a + i) % cap ≠ (a + j) % cap := by
  intro he
  have hdvd : cap ∣ a + j - (a + i) := (Nat.modEq_iff_dvd' (by omega)).mp he
  have := Nat.le_of_dvd (by omega) hdvd
  omega

/-- A write behind a window that leaves a slot free. -/
theorem window_push (h : len < ring.length) (x : α) :
    window (ring.set ((a + len) % ring.length) x) a (len + 1) = window ring a len ++ [x] := by
  have hlt : (a + len) % ring.length < ring.length := Nat.mod_lt _ (by omega)
  rw [window_concat, window_set _ fun i hi => add_mod_ne hi (by omega), List.length_set,
    List.getD_eq_getElem?_getD, List.getElem?_set_self hlt]
  rfl

/-- A write to the slot that a window has left. -/
theorem window_pop (h : len < ring.length) (y : α) :
    window (ring.set (a % ring.length) y) (a + 1) len = window ring (a + 1) len := by
  refine window_set _ fun i hi => ?_
  rw [Nat.add_assoc, Nat.add_comm 1]
  exact (add_mod_ne (a := a) (i := 0) (Nat.succ_pos i) (by omega)).symm

end Window

end Schemes
