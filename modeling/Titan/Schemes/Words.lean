import Mathlib.Data.List.TakeWhile
import Mathlib.Tactic

/-! Words between blanks.

    `Spaced` says that a sequence writes out some words: blanks stand in front of a word, behind the
    last one, and at least one of them between two words. Every sequence writes out one list of words
    and no other, and the first of them is what two `dropWhile` and a `takeWhile` find. -/

namespace Schemes

variable {α : Type*} {blank : α → Bool}

/-- Something to be written between blanks. -/
def IsWord (blank : α → Bool) (w : List α) : Prop := w ≠ [] ∧ ∀ x ∈ w, blank x = false

instance (blank : α → Bool) (w : List α) : Decidable (IsWord blank w) :=
  decidable_of_iff (w ≠ [] ∧ w.all fun x => !blank x) (by simp [IsWord])

/-- `Spaced blank words xs`: the words one after another, each with blanks in front, and blanks at
    the end. What follows a word starts with a blank, or there is nothing left. -/
inductive Spaced (blank : α → Bool) : List (List α) → List α → Prop
  | nil {gap : List α} : (∀ x ∈ gap, blank x) → Spaced blank [] gap
  | cons (gap : List α) {w rest : List α} {words : List (List α)} :
    (∀ x ∈ gap, blank x) → IsWord blank w → (∀ x ∈ rest.head?, blank x) → Spaced blank words rest →
      Spaced blank (w :: words) (gap ++ (w ++ rest))

/-- Every sequence writes out some words. -/
theorem exists_spaced : ∀ xs : List α, ∃ words, Spaced blank words xs
  | [] => ⟨[], .nil (by simp)⟩
  | x :: xs => by
    obtain ⟨words, h⟩ := exists_spaced xs
    cases hx : blank x with
    | true =>
      -- a blank lengthens the first gap
      cases h with
      | nil hgap => exact ⟨[], .nil (List.forall_mem_cons.mpr ⟨hx, hgap⟩)⟩
      | @cons gap w rest words hgap hw hrest h =>
        exact ⟨w :: words, .cons (x :: gap) (List.forall_mem_cons.mpr ⟨hx, hgap⟩) hw hrest h⟩
    | false =>
      have hword : IsWord blank [x] := ⟨List.cons_ne_nil _ _, List.forall_mem_singleton.mpr hx⟩
      cases h with
      | nil hgap =>
        refine ⟨[[x]], .cons [] (by simp) hword ?_ (.nil hgap)⟩
        exact fun y hy => hgap y (List.mem_of_mem_head? hy)
      | @cons gap w rest words hgap hw hrest h =>
        cases gap with
        | nil =>
          -- the character belongs to the first word
          refine ⟨(x :: w) :: words, .cons [] (by simp) ⟨List.cons_ne_nil _ _, ?_⟩ hrest h⟩
          exact List.forall_mem_cons.mpr ⟨hx, hw.2⟩
        | cons y gap =>
          refine ⟨[x] :: w :: words, .cons [] (by simp) hword ?_ (.cons (y :: gap) hgap hw hrest h)⟩
          intro z hz
          cases hz
          exact hgap y List.mem_cons_self

/-- Words with one blank in front of each. -/
theorem Spaced.of_words {sep : α} (hsep : blank sep = true) {words : List (List α)}
    (hwords : ∀ w ∈ words, IsWord blank w) :
    Spaced blank words (words.flatMap fun w => sep :: w) := by
  induction words with
  | nil => exact .nil (by simp)
  | cons w words ih =>
    obtain ⟨hw, hwords⟩ := List.forall_mem_cons.mp hwords
    have hhead : ∀ x ∈ (words.flatMap fun w => sep :: w).head?, blank x = true := by
      cases words with
      | nil => simp
      | cons w' words => simpa using hsep
    exact .cons [sep] (by simpa using hsep) hw hhead (ih hwords)

theorem Spaced.of_nil {xs : List α} (h : Spaced blank [] xs) : xs.dropWhile blank = [] := by
  cases h with
  | nil hgap => exact List.dropWhile_eq_nil_iff.mpr hgap

/-- Where the first word starts, and where it ends. -/
theorem Spaced.of_cons {w xs : List α} {words : List (List α)} (h : Spaced blank (w :: words) xs) :
    w ≠ [] ∧ ∃ rest, xs.dropWhile blank = w ++ rest ∧ (w ++ rest).takeWhile (!blank ·) = w ∧
      (w ++ rest).dropWhile (!blank ·) = rest ∧ Spaced blank words rest ∧
      rest.length < xs.length := by
  cases h with
  | @cons gap _ rest _ hgap hw hrest h =>
    obtain ⟨hne, hw⟩ := hw
    obtain ⟨x, w', rfl⟩ := List.exists_cons_of_ne_nil hne
    have hx : ¬ blank x = true := by simp [hw x List.mem_cons_self]
    have hw' : ∀ y ∈ x :: w', (!blank y) = true := fun y hy => by simp [hw y hy]
    have hnot : rest.takeWhile (!blank ·) = [] ∧ rest.dropWhile (!blank ·) = rest := by
      cases rest with
      | nil => exact ⟨rfl, rfl⟩
      | cons y rest =>
        have hy : blank y = true := hrest y rfl
        simp [hy]
    refine ⟨hne, rest, ?_, ?_, ?_, h, ?_⟩
    · rw [List.dropWhile_append_of_pos hgap, List.cons_append, List.dropWhile_cons_of_neg hx]
    · rw [List.takeWhile_append_of_pos hw', hnot.1, List.append_nil]
    · rw [List.dropWhile_append_of_pos hw', hnot.2]
    · simp only [List.length_append, List.length_cons]
      omega

end Schemes
