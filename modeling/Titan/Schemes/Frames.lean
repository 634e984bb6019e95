import Mathlib.Tactic

/-! Sequences cut into frames.

    A delimiter ends a frame. `frames` is the inverse of writing frames behind one another with their
    delimiters, so that a sequence says where its frames are no matter how it was put together. -/

namespace Schemes

variable {α : Type*} [DecidableEq α] {d : α}

/-- The complete frames of a sequence, without their delimiters, and what comes after the last
    delimiter. -/
def frames (d : α) : List α → List (List α) × List α
  | [] => ([], [])
  | x :: xs =>
    if x = d then ([] :: (frames d xs).1, (frames d xs).2)
    else
      match (frames d xs).1 with
      | [] => ([], x :: (frames d xs).2)
      | f :: fs => ((x :: f) :: fs, (frames d xs).2)

theorem frames_of_notMem : ∀ {xs : List α}, d ∉ xs → frames d xs = ([], xs)
  | [], _ => rfl
  | x :: xs, h => by
    obtain ⟨hx, hxs⟩ := not_or.mp (mt List.mem_cons.mpr h)
    rw [frames, if_neg (Ne.symm hx), frames_of_notMem hxs]

/-- One frame in front. -/
theorem frames_cons : ∀ {f : List α}, d ∉ f → ∀ xs : List α,
    frames d (f ++ d :: xs) = (f :: (frames d xs).1, (frames d xs).2)
  | [], _, xs => by rw [List.nil_append, frames, if_pos rfl]
  | x :: f, h, xs => by
    obtain ⟨hx, hf⟩ := not_or.mp (mt List.mem_cons.mpr h)
    rw [List.cons_append, frames, if_neg (Ne.symm hx), frames_cons hf xs]

/-- Frames in front are the first frames. -/
theorem frames_append (xs : List α) : ∀ {fs : List (List α)}, (∀ f ∈ fs, d ∉ f) →
    frames d (fs.flatMap (· ++ [d]) ++ xs) = (fs ++ (frames d xs).1, (frames d xs).2)
  | [], _ => rfl
  | f :: fs, h => by
    obtain ⟨hf, hfs⟩ := List.forall_mem_cons.mp h
    rw [List.flatMap_cons, List.append_assoc, List.append_assoc, List.singleton_append,
      frames_cons hf, frames_append xs hfs]
    rfl

theorem frames_fst_eq_nil_iff : ∀ {xs : List α}, (frames d xs).1 = [] ↔ d ∉ xs
  | [] => by simp [frames]
  | x :: xs => by
    have ih : (frames d xs).1 = [] ↔ d ∉ xs := frames_fst_eq_nil_iff
    rw [frames, List.mem_cons, not_or]
    by_cases hx : x = d
    · simp [hx]
    · rw [if_neg hx, ← ih]
      cases (frames d xs).1 with
      | nil => simp [Ne.symm hx]
      | cons f fs => simp

/-- The frames and what comes after them are the sequence. -/
theorem flatMap_frames (xs : List α) :
    (frames d xs).1.flatMap (· ++ [d]) ++ (frames d xs).2 = xs := by
  induction xs with
  | nil => rfl
  | cons x xs ih =>
    rw [frames]
    by_cases hx : x = d
    · rw [if_pos hx]
      simp [ih, hx]
    · rw [if_neg hx]
      cases hf : (frames d xs).1 with
      | nil =>
        rw [hf] at ih
        simpa using ih
      | cons f fs =>
        rw [hf] at ih
        simpa using ih

theorem notMem_of_mem_frames {xs : List α} : ∀ f ∈ (frames d xs).1, d ∉ f := by
  induction xs with
  | nil => nofun
  | cons x xs ih =>
    rw [frames]
    by_cases hx : x = d
    · rw [if_pos hx]
      simpa using ih
    · rw [if_neg hx]
      cases hf : (frames d xs).1 with
      | nil => nofun
      | cons f fs =>
        rw [hf] at ih
        obtain ⟨hfd, hfs⟩ := List.forall_mem_cons.mp ih
        refine List.forall_mem_cons.mpr ⟨?_, hfs⟩
        simp [hfd, Ne.symm hx]

/-- A sequence that comes in two parts is framed part by part. -/
theorem frames_split (xs ys : List α) : frames d (xs ++ ys) =
    ((frames d xs).1 ++ (frames d ((frames d xs).2 ++ ys)).1,
      (frames d ((frames d xs).2 ++ ys)).2) := by
  have hsplit : xs ++ ys =
      (frames d xs).1.flatMap (· ++ [d]) ++ ((frames d xs).2 ++ ys) := by
    rw [← List.append_assoc, flatMap_frames]
  rw [hsplit, frames_append _ notMem_of_mem_frames]

/-- More of a sequence has more frames. -/
theorem frames_mono {xs ys : List α} (h : xs <+: ys) : (frames d xs).1 <+: (frames d ys).1 := by
  obtain ⟨zs, rfl⟩ := h
  rw [frames_split]
  exact List.prefix_append ..

end Schemes
