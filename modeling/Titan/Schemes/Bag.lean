import Mathlib.Data.List.Perm.Basic
import Mathlib.Tactic

/-! Lists used as bags: an item is taken out by putting the last one in its place. -/

namespace Schemes
open scoped List

variable {α : Type*} {xs ys : List α} {x : α} {k : ℕ}

/-- Take item `k` out of a bag, if there is one: the last item moves to its place. -/
def swapPop (xs : List α) (k : ℕ) : Option (α × List α) :=
  match xs[k]?, xs.getLast? with
  | some x, some last => some (x, (xs.set k last).dropLast)
  | _, _ => none

theorem swapPop_concat (ys : List α) (last : α) (h : k < ys.length) :
    swapPop (ys ++ [last]) k = some (ys[k], ys.set k last) := by
  rw [swapPop, List.getElem?_append_left h, List.getElem?_eq_getElem h, List.getLast?_concat]
  dsimp only
  rw [List.set_append_left _ _ h, List.dropLast_concat]

theorem swapPop_last (ys : List α) (last : α) :
    swapPop (ys ++ [last]) ys.length = some (last, ys) := by
  rw [swapPop, List.getElem?_concat_length, List.getLast?_concat]
  dsimp only
  rw [List.set_append_right _ _ le_rfl, Nat.sub_self, List.set_cons_zero, List.dropLast_concat]

/-- There is nothing to take iff the position is out of range. -/
theorem swapPop_eq_none_iff : swapPop xs k = none ↔ xs.length ≤ k := by
  rcases List.eq_nil_or_concat xs with rfl | ⟨ys, last, rfl⟩
  · simp [swapPop]
  · rw [List.concat_eq_append, List.length_append, List.length_singleton]
    rcases lt_trichotomy k ys.length with hk | rfl | hk
    · rw [swapPop_concat ys last hk]
      refine ⟨fun h => ?_, fun h => by omega⟩
      cases h
    · rw [swapPop_last]
      refine ⟨fun h => ?_, fun h => by omega⟩
      cases h
    · rw [swapPop, List.getElem?_eq_none (by simpa using hk)]
      exact ⟨fun _ => by omega, fun _ => rfl⟩

/-- The bag is what was taken and what is left. -/
theorem swapPop_perm (h : swapPop xs k = some (x, ys)) : xs ~ x :: ys := by
  rcases List.eq_nil_or_concat xs with rfl | ⟨zs, last, rfl⟩
  · cases h
  · rw [List.concat_eq_append] at h ⊢
    rcases lt_trichotomy k zs.length with hk | rfl | hk
    · rw [swapPop_concat zs last hk] at h
      cases h
      have hset : zs.set k last ~ last :: zs.eraseIdx k := List.set_perm_cons_eraseIdx hk last
      calc zs ++ [last] ~ last :: zs := List.perm_append_singleton last zs
        _ ~ last :: zs[k] :: zs.eraseIdx k := (List.getElem_cons_eraseIdx_perm hk).symm.cons last
        _ ~ zs[k] :: last :: zs.eraseIdx k := .swap ..
        _ ~ zs[k] :: zs.set k last := hset.symm.cons _
    · rw [swapPop_last] at h
      cases h
      exact List.perm_append_singleton x ys
    · have hnone : swapPop (zs ++ [last]) k = none :=
        swapPop_eq_none_iff.mpr (by simpa using hk)
      rw [hnone] at h
      cases h

end Schemes
