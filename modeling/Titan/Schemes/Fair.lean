import Titan.Schemes.Machine

/-! Runs without an end, in which no thread is forgotten.

    The rule of helpful threads: as long as the goal is not reached, the work that is left never grows
    and some thread is due, whose moves bring it nearer to doing some; the moves of the others leave
    it where it is. If every thread moves again and again, the goal is reached. -/

namespace Schemes

variable {σ α θ : Type*} {step : α → σ → Option σ}

/-- A run without an end. -/
structure Endless (step : α → σ → Option σ) where
  state : ℕ → σ
  choice : ℕ → α
  next : ∀ i, step (choice i) (state i) = some (state (i + 1))

namespace Endless
variable (r : Endless step)

def moveAt (i : ℕ) : Move σ α := ⟨r.state i, r.choice i, r.state (i + 1)⟩

/-- The first moves of a run. -/
def upTo (i : ℕ) : List (Move σ α) := (List.range i).map r.moveAt

theorem trace : ∀ i, Trace step (r.state 0) (r.upTo i) (r.state i)
  | 0 => .start
  | i + 1 => by
    rw [upTo, List.range_succ, List.map_append, List.map_singleton]
    exact (trace i).move (r.next i)

/-- Every thread moves again and again. -/
def Fair (thread : α → Option θ) : Prop := ∀ t i, ∃ j ≥ i, thread (r.choice j) = some t

section Rule
variable {thread : α → Option θ} {I G : σ → Prop} {P : Move σ α → Prop} {work rank : σ → ℕ}
  {due : σ → θ}

/-- The move before the goal: it does some work, or the thread that is due comes nearer to it. -/
def Helps (thread : α → Option θ) (work rank : σ → ℕ) (due : σ → θ) (m : Move σ α) : Prop :=
  work m.after < work m.before ∨
    (work m.after = work m.before ∧ due m.after = due m.before ∧ rank m.after ≤ rank m.before ∧
      (thread m.choice = some (due m.before) → rank m.after < rank m.before))

variable (hstep : ∀ s a t, I s → ¬ G s → step a s = some t → P ⟨s, a, t⟩ →
    I t ∧ Helps thread work rank due ⟨s, a, t⟩)
include hstep

/-- When the thread that is due moves, there is less to do, or it is nearer to it. -/
theorem descends (hP : ∀ i, P (r.moveAt i)) : ∀ (d i : ℕ), I (r.state i) →
    thread (r.choice (i + d)) = some (due (r.state i)) →
    ∃ j, G (r.state j) ∨ (I (r.state j) ∧ (work (r.state j) < work (r.state i) ∨
      (work (r.state j) = work (r.state i) ∧ rank (r.state j) < rank (r.state i)))) := by
  intro d
  induction d with
  | zero =>
    intro i hi hdue
    by_cases hG : G (r.state i)
    · exact ⟨i, .inl hG⟩
    · obtain ⟨hi', hless | ⟨hsame, -, -, hrank⟩⟩ := hstep _ _ _ hi hG (r.next i) (hP i)
      · exact ⟨i + 1, .inr ⟨hi', .inl hless⟩⟩
      · exact ⟨i + 1, .inr ⟨hi', .inr ⟨hsame, hrank hdue⟩⟩⟩
  | succ d ih =>
    intro i hi hdue
    by_cases hG : G (r.state i)
    · exact ⟨i, .inl hG⟩
    · obtain ⟨hi', hless | ⟨hsame, hthread, hrank, -⟩⟩ := hstep _ _ _ hi hG (r.next i) (hP i)
      · exact ⟨i + 1, .inr ⟨hi', .inl hless⟩⟩
      · simp only at hsame hthread hrank
        have hdue' : thread (r.choice (i + 1 + d)) = some (due (r.state (i + 1))) := by
          rw [hthread, Nat.add_right_comm]
          exact hdue
        obtain ⟨j, hj | ⟨hj, hless⟩⟩ := ih (i + 1) hi' hdue'
        · exact ⟨j, .inl hj⟩
        · refine ⟨j, .inr ⟨hj, ?_⟩⟩
          rcases hless with hless | ⟨hwork, hless⟩
          · exact .inl (hsame ▸ hless)
          · exact .inr ⟨hwork.trans hsame, hless.trans_le hrank⟩

/-- The rule of helpful threads. -/
theorem eventually (hfair : r.Fair thread) (hP : ∀ i, P (r.moveAt i)) {i : ℕ}
    (hi : I (r.state i)) : ∃ j, G (r.state j) := by
  induction hw : work (r.state i) using Nat.strong_induction_on generalizing i with
  | _ w ihw =>
    induction hk : rank (r.state i) using Nat.strong_induction_on generalizing i with
    | _ k ihk =>
      obtain ⟨j, hij, hdue⟩ := hfair (due (r.state i)) i
      obtain ⟨d, rfl⟩ := Nat.exists_eq_add_of_le hij
      obtain ⟨m, hm | ⟨hm, hless | ⟨hsame, hless⟩⟩⟩ := r.descends hstep hP d i hi hdue
      · exact ⟨m, hm⟩
      · exact ihw _ (hw ▸ hless) hm rfl
      · exact ihk _ (hk ▸ hless) hm (hsame.trans hw) rfl

end Rule

/-- Where every thread can always move, there is a run in which all take turns. -/
theorem exists_fair {I : σ → Prop} {P : Move σ α → Prop} (thread : α → Option θ) (turn : ℕ → θ)
    (hturn : ∀ t i, ∃ j ≥ i, turn j = t)
    (hmoves : ∀ s t, I s → ∃ a u, step a s = some u ∧ P ⟨s, a, u⟩ ∧ thread a = some t ∧ I u)
    {s : σ} (hs : I s) :
    ∃ r : Endless step, r.state 0 = s ∧ (∀ i, P (r.moveAt i)) ∧ r.Fair thread := by
  choose choice next hnext hP hthread hI using hmoves
  let states : ℕ → {s // I s} := fun i =>
    Nat.rec ⟨s, hs⟩ (fun i s => ⟨next s.1 (turn i) s.2, hI s.1 (turn i) s.2⟩) i
  refine ⟨⟨fun i => (states i).1, fun i => choice (states i).1 (turn i) (states i).2,
    fun i => hnext ..⟩, rfl, fun i => hP .., fun t i => ?_⟩
  obtain ⟨j, hij, rfl⟩ := hturn t i
  exact ⟨j, hij, hthread ..⟩

end Endless

end Schemes
