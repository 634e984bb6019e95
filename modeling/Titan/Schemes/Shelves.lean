import Mathlib.Data.List.Perm.Basic
import Mathlib.Data.List.Pairwise
import Mathlib.Order.Defs.Unbundled
import Mathlib.Tactic

/-! Lists that are kept in shelves.

    A shelf of a list is what it holds under one key, in its order. The shelves of a list decide it up
    to a permutation, and if the list is sorted by key they decide it. -/

namespace Schemes

variable {α κ : Type*} [DecidableEq κ] (key : α → κ)

/-- What a list holds under the key `c`. -/
def shelf (xs : List α) (c : κ) : List α := xs.filter fun x => key x = c

variable {key} {xs ys : List α} {c : κ} {x : α}

theorem mem_shelf : x ∈ shelf key xs c ↔ x ∈ xs ∧ key x = c := by
  rw [shelf, List.mem_filter, decide_eq_true_eq]

theorem shelf_cons : shelf key (x :: xs) c = if key x = c then x :: shelf key xs c else shelf key xs c := by
  rw [shelf, List.filter_cons, shelf]
  simp

theorem shelf_concat : shelf key (xs ++ [x]) c =
    shelf key xs c ++ if key x = c then [x] else [] := by
  rw [shelf, List.filter_append, shelf]
  by_cases hx : key x = c <;> simp [hx]

theorem mem_of_shelves (h : ∀ c, shelf key xs c = shelf key ys c) (hx : x ∈ xs) : x ∈ ys := by
  have hmem : x ∈ shelf key xs (key x) := mem_shelf.mpr ⟨hx, rfl⟩
  rw [h] at hmem
  exact (mem_shelf.mp hmem).1

variable (key) in
/-- Lists with the same shelves hold the same. -/
theorem perm_of_shelves [DecidableEq α] (h : ∀ c, shelf key xs c = shelf key ys c) :
    xs.Perm ys := by
  rw [List.perm_iff_count]
  intro x
  have hcount : ∀ zs : List α, zs.count x = (shelf key zs (key x)).count x := by
    intro zs
    rw [shelf, List.count_filter]
    simp
  rw [hcount xs, hcount ys, h]

variable (key) in
/-- Sorted lists with the same shelves are the same. -/
theorem eq_of_shelves {r : κ → κ → Prop} [IsStrictTotalOrder κ r]
    (hxs : xs.Pairwise fun x y => ¬ r (key y) (key x))
    (hys : ys.Pairwise fun x y => ¬ r (key y) (key x))
    (h : ∀ c, shelf key xs c = shelf key ys c) : xs = ys := by
  induction xs generalizing ys with
  | nil =>
    cases ys with
    | nil => rfl
    | cons y ys => exact absurd (mem_of_shelves (fun c => (h c).symm) List.mem_cons_self) (by simp)
  | cons x xs ih =>
    cases ys with
    | nil => exact absurd (mem_of_shelves h List.mem_cons_self) (by simp)
    | cons y ys =>
      obtain ⟨hx, hxs'⟩ := List.pairwise_cons.mp hxs
      obtain ⟨hy, hys'⟩ := List.pairwise_cons.mp hys
      -- the first ones have the same key, since neither key comes before the other
      have hkey : key x = key y := by
        have hxy : x ∈ y :: ys := mem_of_shelves h List.mem_cons_self
        have hyx : y ∈ x :: xs := mem_of_shelves (fun c => (h c).symm) List.mem_cons_self
        rcases List.mem_cons.mp hxy with rfl | hxy
        · rfl
        rcases List.mem_cons.mp hyx with rfl | hyx
        · rfl
        rcases trichotomous_of r (key x) (key y) with hlt | heq | hgt
        · exact absurd hlt (hy x hxy)
        · exact heq
        · exact absurd hgt (hx y hyx)
      have hfirst := h (key y)
      rw [shelf_cons, shelf_cons, if_pos hkey, if_pos rfl] at hfirst
      obtain ⟨rfl, -⟩ := List.cons.inj hfirst
      refine congrArg _ (ih hxs' hys' fun c => ?_)
      have hc := h c
      rw [shelf_cons, shelf_cons] at hc
      split_ifs at hc
      · exact (List.cons.inj hc).2
      · exact hc

end Schemes
