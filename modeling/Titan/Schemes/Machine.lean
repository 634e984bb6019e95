import Mathlib.Tactic

/-! Runs of a machine whose moves are chosen from outside.

    A machine is a partial function `step` from a choice and a state to the next state; it answers
    `none` when the choice is not possible. A choice says which thread moves and what its environment
    answers, so the traces of the machine are all its interleavings. What is to be remembered about a
    run is a fold over its moves. -/

namespace Schemes

variable {σ α γ : Type*} {step : α → σ → Option σ}

/-- One move of a run. -/
structure Move (σ α : Type*) where
  before : σ
  choice : α
  after : σ

/-- The moves lead from `s` to the last state. -/
inductive Trace (step : α → σ → Option σ) (s : σ) : List (Move σ α) → σ → Prop
  | start : Trace step s [] s
  | move {ms : List (Move σ α)} {t u : σ} {a : α} : Trace step s ms t → step a t = some u →
      Trace step s (ms ++ [⟨t, a, u⟩]) u

/-- The state after a given sequence of choices, if all of them are possible. -/
def play (step : α → σ → Option σ) (s : σ) : List α → Option σ
  | [] => some s
  | a :: as => (step a s).bind fun t => play step t as

/-- The moves of a sequence of choices, up to the first that is not possible. -/
def moves (step : α → σ → Option σ) (s : σ) : List α → List (Move σ α)
  | [] => []
  | a :: as =>
    match step a s with
    | none => []
    | some t => ⟨s, a, t⟩ :: moves step t as

/-- An invariant of a state and a memory, kept by all moves that are `P`. -/
theorem Trace.fold_invariant {I : σ → γ → Prop} {P : Move σ α → Prop}
    (record : γ → Move σ α → γ)
    (hstep : ∀ s g a t, I s g → step a s = some t → P ⟨s, a, t⟩ → I t (record g ⟨s, a, t⟩))
    {s t : σ} {g : γ} {ms : List (Move σ α)} (h : Trace step s ms t) (hs : I s g)
    (hP : ∀ m ∈ ms, P m) : I t (ms.foldl record g) := by
  induction h with
  | start => exact hs
  | move _ hmove ih =>
    rw [List.foldl_append]
    exact hstep _ _ _ _ (ih fun m hm => hP m (List.mem_append_left _ hm)) hmove
      (hP _ (List.mem_append_right _ (List.mem_singleton_self _)))

/-- An invariant of the state alone. -/
theorem Trace.invariant {I : σ → Prop} {P : Move σ α → Prop}
    (hstep : ∀ s a t, I s → step a s = some t → P ⟨s, a, t⟩ → I t)
    {s t : σ} {ms : List (Move σ α)} (h : Trace step s ms t) (hs : I s) (hP : ∀ m ∈ ms, P m) :
    I t :=
  h.fold_invariant (I := fun s (_ : Unit) => I s) (g := ()) (fun _ _ => ())
    (fun s _ a t => hstep s a t) hs hP

/-- Where the moves that are counted use up a measure, and the others do not add to it, there are no
    more of them than the measure is at the start. -/
theorem Trace.countP_le {I : σ → Prop} {P : Move σ α → Prop} (counted : Move σ α → Bool) (μ : σ → ℕ)
    (hstep : ∀ s a t, I s → step a s = some t → P ⟨s, a, t⟩ →
      I t ∧ μ t + (if counted ⟨s, a, t⟩ then 1 else 0) ≤ μ s)
    {s t : σ} {ms : List (Move σ α)} (h : Trace step s ms t) (hs : I s) (hP : ∀ m ∈ ms, P m) :
    I t ∧ ms.countP counted + μ t ≤ μ s := by
  induction h with
  | start => exact ⟨hs, by simp⟩
  | @move ms t u a _ hmove ih =>
    obtain ⟨ht, hcount⟩ := ih fun m hm => hP m (List.mem_append_left _ hm)
    obtain ⟨hu, hle⟩ := hstep t a u ht hmove (hP _ (by simp))
    refine ⟨hu, ?_⟩
    rw [List.countP_append, List.countP_singleton]
    omega

theorem Trace.trans {s t u : σ} {ms ns : List (Move σ α)} (h : Trace step s ms t)
    (h' : Trace step t ns u) : Trace step s (ms ++ ns) u := by
  induction h' with
  | start => rwa [List.append_nil]
  | move _ hmove ih =>
    rw [← List.append_assoc]
    exact ih.move hmove

/-- Where every state of an invariant has a move that decreases a measure, unless it is a goal, a run
    can be continued to a goal. -/
theorem Trace.exists_goal {I G : σ → Prop} (μ : σ → ℕ)
    (hprogress : ∀ s, I s → ¬ G s → ∃ a t, step a s = some t ∧ I t ∧ μ t < μ s) {s : σ}
    (hs : I s) : ∃ ms t, Trace step s ms t ∧ G t := by
  induction hμ : μ s using Nat.strong_induction_on generalizing s with
  | _ k ih =>
    by_cases hG : G s
    · exact ⟨[], s, .start, hG⟩
    · obtain ⟨a, t, hmove, ht, hlt⟩ := hprogress s hs hG
      obtain ⟨ms, u, hms, hu⟩ := ih (μ t) (hμ ▸ hlt) ht rfl
      have hfirst : Trace step s ([] ++ [⟨s, a, t⟩]) t := Trace.start.move hmove
      exact ⟨_, u, hfirst.trans hms, hu⟩

/-- One more choice. -/
theorem play_concat (a : α) : ∀ (as : List α) (s : σ),
    play step s (as ++ [a]) = (play step s as).bind (step a)
  | [], s => by simp [play]
  | b :: as, s => by
    rw [List.cons_append, play, play, Option.bind_assoc]
    exact congrArg _ (funext fun t => play_concat a as t)

/-- What a sequence of choices plays is a trace. -/
theorem Trace.of_play : ∀ {as : List α} {s t : σ}, play step s as = some t →
    Trace step s (moves step s as) t
  | [], s, t, h => by
    cases h
    exact .start
  | a :: as, s, t, h => by
    obtain ⟨u, hu, ht⟩ := Option.bind_eq_some_iff.mp h
    have hfirst : Trace step s ([] ++ [⟨s, a, u⟩]) u := Trace.start.move hu
    rw [moves, hu]
    exact hfirst.trans (.of_play ht)

/-- The states that the moves pass, the first one included. -/
def states (s : σ) (ms : List (Move σ α)) : List σ := s :: ms.map (·.after)

/-- A run can be cut at any place. -/
theorem Trace.split {s t : σ} {ms : List (Move σ α)} (h : Trace step s ms t) :
    ∀ {as bs : List (Move σ α)}, ms = as ++ bs →
      ∃ u ∈ states s ms, Trace step s as u ∧ Trace step u bs t := by
  induction h with
  | start =>
    intro as bs h
    obtain ⟨rfl, rfl⟩ := List.append_eq_nil_iff.mp h.symm
    exact ⟨s, List.mem_cons_self, .start, .start⟩
  | @move ms t u a hms hmove ih =>
    intro as bs h
    rcases List.eq_nil_or_concat bs with rfl | ⟨bs, m, rfl⟩
    · rw [List.append_nil] at h
      refine ⟨u, ?_, h ▸ hms.move hmove, .start⟩
      simp [states]
    · rw [List.concat_eq_append, ← List.append_assoc] at h
      obtain ⟨hinit, hlast⟩ := List.append_inj' h rfl
      cases hlast
      obtain ⟨v, hv, has, hbs⟩ := ih hinit
      refine ⟨v, ?_, has, ?_⟩
      · simp only [states, List.map_append, List.mem_cons, List.mem_append] at hv ⊢
        tauto
      · rw [List.concat_eq_append]
        exact hbs.move hmove

/-- A run passes its states one after another. -/
theorem Trace.split_at {s t u : σ} {ms : List (Move σ α)} (h : Trace step s ms t)
    (hu : u ∈ states s ms) :
    ∃ as bs, ms = as ++ bs ∧ Trace step s as u ∧ Trace step u bs t := by
  induction h with
  | start =>
    rw [states, List.map_nil, List.mem_singleton] at hu
    subst hu
    exact ⟨[], [], rfl, .start, .start⟩
  | @move ms t v a hms hmove ih =>
    rw [states, List.map_append, ← List.cons_append] at hu
    rcases List.mem_append.mp hu with hu | hu
    · obtain ⟨as, bs, rfl, has, hbs⟩ := ih hu
      exact ⟨as, bs ++ [⟨t, a, v⟩], List.append_assoc .., has, hbs.move hmove⟩
    · rw [List.map_singleton, List.mem_singleton] at hu
      subst hu
      exact ⟨_, [], (List.append_nil _).symm, hms.move hmove, .start⟩

/-- Where nothing of one kind comes before something of another, a sequence can be cut so that the
    first part is free of the one and the second part of the other. -/
theorem exists_cut {p r : α → Prop} : ∀ {xs : List α}, (∀ x ∈ xs, ¬ (p x ∧ r x)) →
    xs.Pairwise (fun x y => ¬ (p x ∧ r y)) →
      ∃ as bs, xs = as ++ bs ∧ (∀ x ∈ as, ¬ p x) ∧ ∀ x ∈ bs, ¬ r x
  | [], _, _ => ⟨[], [], rfl, nofun, nofun⟩
  | x :: xs, hboth, h => by
    obtain ⟨hx, hxs⟩ := List.pairwise_cons.mp h
    obtain ⟨hxboth, hboth⟩ := List.forall_mem_cons.mp hboth
    by_cases hp : p x
    · refine ⟨[], x :: xs, rfl, nofun, List.forall_mem_cons.mpr ⟨fun hr => hxboth ⟨hp, hr⟩, ?_⟩⟩
      exact fun y hy hr => hx y hy ⟨hp, hr⟩
    · obtain ⟨as, bs, rfl, has, hbs⟩ := exists_cut hboth hxs
      exact ⟨x :: as, bs, rfl, List.forall_mem_cons.mpr ⟨hp, has⟩, hbs⟩

theorem pairwise_of_cut {p r : α → Prop} {as bs : List α} (has : ∀ x ∈ as, ¬ p x)
    (hbs : ∀ x ∈ bs, ¬ r x) : (as ++ bs).Pairwise fun x y => ¬ (p x ∧ r y) := by
  refine List.pairwise_append.mpr ⟨?_, ?_, fun x hx y hy h => has x hx h.1⟩
  · exact List.pairwise_of_forall_mem_list fun x hx y _ h => has x hx h.1
  · exact List.pairwise_of_forall_mem_list fun x _ y hy h => hbs y hy h.2

end Schemes
