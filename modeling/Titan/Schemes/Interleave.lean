import Mathlib.Tactic

/-! Sequences that two writers put together.

    Each writer adds at the end, in its own order; nothing is said of whose turn it is. -/

namespace Schemes

variable {α β : Type*}

/-- `zs` is made of all of `xs` and all of `ys`, each in its order. -/
inductive Interleaved : List α → List α → List α → Prop
  | nil : Interleaved [] [] []
  | left {xs ys zs : List α} (x : α) : Interleaved xs ys zs → Interleaved (x :: xs) ys (x :: zs)
  | right {xs ys zs : List α} (y : α) : Interleaved xs ys zs → Interleaved xs (y :: ys) (y :: zs)

namespace Interleaved
variable {xs ys zs xs' ys' zs' : List α}

theorem symm (h : Interleaved xs ys zs) : Interleaved ys xs zs := by
  induction h with
  | nil => exact .nil
  | left x _ ih => exact ih.right x
  | right y _ ih => exact ih.left y

/-- One writer alone. -/
theorem self : ∀ xs : List α, Interleaved xs [] xs
  | [] => .nil
  | x :: xs => (self xs).left x

theorem append (h : Interleaved xs ys zs) (h' : Interleaved xs' ys' zs') :
    Interleaved (xs ++ xs') (ys ++ ys') (zs ++ zs') := by
  induction h with
  | nil => exact h'
  | left x _ ih => exact ih.left x
  | right y _ ih => exact ih.right y

/-- The first writer adds to the end. -/
theorem append_left (h : Interleaved xs ys zs) (us : List α) :
    Interleaved (xs ++ us) ys (zs ++ us) := by
  have := h.append (self us)
  rwa [List.append_nil] at this

/-- The second writer adds to the end. -/
theorem append_right (h : Interleaved xs ys zs) (us : List α) :
    Interleaved xs (ys ++ us) (zs ++ us) := (h.symm.append_left us).symm

/-- Where the second writer adds nothing, there is what the first has written. -/
theorem eq_left (h : Interleaved xs [] zs) : zs = xs := by
  generalize hys : [] = ys at h
  induction h with
  | nil => rfl
  | left x _ ih => rw [ih hys]
  | right y _ _ => cases hys

theorem mem_iff (h : Interleaved xs ys zs) {a : α} : a ∈ zs ↔ a ∈ xs ∨ a ∈ ys := by
  induction h with
  | nil => simp
  | left x _ ih => simp [ih, or_assoc]
  | right y _ ih => simp [ih, or_left_comm]

end Interleaved

end Schemes
