import Mathlib.Logic.Relation
import Mathlib.Tactic

/-! Imperative loops as iterated partial steps.

    One iteration of a `while` loop is a function `step : σ → Option σ`; it answers `none` when the
    loop's test fails or its body breaks. `Exits` is the meaning of the loop, with no bound on the
    number of iterations; `loop` runs it on a fuel. The rules say that an invariant and a decreasing
    measure make the two agree. -/

namespace Schemes

variable {σ : Type*} (step : σ → Option σ)

/-- The loop run on `n` units of fuel. -/
def loop : ℕ → σ → σ
  | 0, s => s
  | n + 1, s =>
    match step s with
    | none => s
    | some s' => loop n s'

/-- The loop started in `s` stops in `t`. -/
inductive Exits : σ → σ → Prop
  | stop {s : σ} : step s = none → Exits s s
  | next {s s' t : σ} : step s = some s' → Exits s' t → Exits s t

/-- `t` is the state after some number of iterations from `s`. -/
abbrev Iterates (s t : σ) : Prop := Relation.ReflTransGen (fun a b => step a = some b) s t

variable {step}

theorem Exits.iterates {s t : σ} (h : Exits step s t) : Iterates step s t := by
  induction h with
  | stop _ => exact .refl
  | next hs _ ih => exact .head hs ih

theorem Exits.done {s t : σ} (h : Exits step s t) : step t = none := by
  induction h with
  | stop hs => exact hs
  | next _ _ ih => exact ih

/-- An invariant of one iteration holds after any number of them. -/
theorem Iterates.invariant {I : σ → Prop} (hstep : ∀ s s', I s → step s = some s' → I s')
    {s t : σ} (h : Iterates step s t) (hs : I s) : I t := by
  induction h with
  | refl => exact hs
  | tail _ hst ih => exact hstep _ _ ih hst

/-- Whatever the fuel, the loop only makes iterations. -/
theorem loop_iterates : ∀ (n : ℕ) (s : σ), Iterates step s (loop step n s)
  | 0, _ => .refl
  | n + 1, s => by
    rw [loop]
    cases hs : step s with
    | none => exact .refl
    | some s' => exact .head hs (loop_iterates n s')

/-- A loop whose invariant never lets its test fail does not stop. -/
theorem not_exits {I : σ → Prop} (hstep : ∀ s s', I s → step s = some s' → I s')
    (hmore : ∀ s, I s → step s ≠ none) {s t : σ} (hs : I s) : ¬ Exits step s t := fun h =>
  hmore t (h.iterates.invariant hstep hs) h.done

/-- Total correctness rule: an invariant with a measure that every iteration decreases makes the
    loop stop, and any fuel from the measure on reaches that stop. -/
theorem loop_exits {I : σ → Prop} (μ : σ → ℕ)
    (hstep : ∀ s s', I s → step s = some s' → I s' ∧ μ s' < μ s) :
    ∀ n s, I s → μ s ≤ n → Exits step s (loop step n s)
  | 0, s, hI, hn => by
    refine .stop ?_
    cases hs : step s with
    | none => rfl
    | some s' => have := (hstep s s' hI hs).2; omega
  | n + 1, s, hI, hn => by
    rw [loop]
    cases hs : step s with
    | none => exact .stop hs
    | some s' =>
      obtain ⟨hI', hlt⟩ := hstep s s' hI hs
      exact .next hs (loop_exits μ hstep n s' hI' (by omega))

/-- The invariant at the exit of the loop, with the negated test. -/
theorem loop_rule {I : σ → Prop} (μ : σ → ℕ)
    (hstep : ∀ s s', I s → step s = some s' → I s' ∧ μ s' < μ s) {n : ℕ} {s : σ}
    (hI : I s) (hn : μ s ≤ n) : I (loop step n s) ∧ step (loop step n s) = none := by
  have h := loop_exits μ hstep n s hI hn
  exact ⟨h.iterates.invariant (fun a b ha hab => (hstep a b ha hab).1) hI, h.done⟩

/-- Once the loop has stopped, more fuel changes nothing. -/
theorem loop_of_done : ∀ (n k : ℕ) (s : σ), step (loop step n s) = none →
    loop step (n + k) s = loop step n s
  | 0, 0, _, _ => rfl
  | 0, k + 1, s, h => by
    have hs : step s = none := h
    rw [Nat.zero_add]
    show (match step s with | none => s | some s' => loop step k s') = s
    rw [hs]
  | n + 1, k, s, h => by
    rw [Nat.add_right_comm, loop, loop]
    rw [loop] at h
    cases hs : step s with
    | none => rfl
    | some s' =>
      rw [hs] at h
      exact loop_of_done n k s' h

/-- A map that commutes with one iteration, wherever `I` holds, commutes with the loop. -/
theorem loop_map {τ : Type*} {step' : τ → Option τ} {f : σ → τ} {I : σ → Prop}
    (hmap : ∀ s, I s → step' (f s) = (step s).map f)
    (hstep : ∀ s s', I s → step s = some s' → I s') :
    ∀ (n : ℕ) (s : σ), I s → loop step' n (f s) = f (loop step n s)
  | 0, _, _ => rfl
  | n + 1, s, hI => by
    rw [loop, loop, hmap s hI]
    cases hs : step s with
    | none => rfl
    | some s' => exact loop_map hmap hstep n s' (hstep s s' hI hs)

end Schemes
