import Mathlib.Data.List.Forall2
import Mathlib.Tactic

/-! Runs of a machine that answers calls.

    A machine is a function `step` from a state and a call to a reply and the next state. `history`
    lists what happens call by call; whatever is to be remembered about a run (totals, time stamps, a
    ledger) is a fold over it. The rules lift a fact about one call to the whole run. -/

namespace Schemes

variable {σ τ α ρ γ : Type*}

/-- One call of a run. -/
structure Event (σ α ρ : Type*) where
  before : σ
  call : α
  reply : ρ
  after : σ

/-- The events of a run, first call first. -/
def history (step : σ → α → ρ × σ) : σ → List α → List (Event σ α ρ)
  | _, [] => []
  | s, a :: as => ⟨s, a, (step s a).1, (step s a).2⟩ :: history step (step s a).2 as

/-- The state at the end of a run. -/
def final (step : σ → α → ρ × σ) : σ → List α → σ
  | s, [] => s
  | s, a :: as => final step (step s a).2 as

section Rules
variable {step : σ → α → ρ × σ} {step' : τ → α → ρ × τ}

theorem final_append : ∀ (s : σ) (as bs : List α),
    final step s (as ++ bs) = final step (final step s as) bs
  | _, [], _ => rfl
  | _, a :: as, bs => final_append (step _ a).2 as bs

theorem history_append : ∀ (s : σ) (as bs : List α),
    history step s (as ++ bs) = history step s as ++ history step (final step s as) bs
  | _, [], _ => rfl
  | _, a :: as, bs => congrArg _ (history_append (step _ a).2 as bs)

/-- Every event is a step from a state that the run reaches. -/
theorem of_mem_history : ∀ {s : σ} {as : List α} {e : Event σ α ρ}, e ∈ history step s as →
    ∃ pre post, as = pre ++ e.call :: post ∧ e.before = final step s pre ∧
      (e.reply, e.after) = step e.before e.call
  | s, a :: as, e, h => by
    rcases List.mem_cons.mp h with rfl | h
    · exact ⟨[], as, rfl, rfl, rfl⟩
    · obtain ⟨pre, post, h1, h2, h3⟩ := of_mem_history h
      exact ⟨a :: pre, post, by rw [h1]; rfl, h2, h3⟩

/-- An invariant of one call, on runs that stay within `P`, holds at the end of the run. -/
theorem final_invariant {I P : σ → Prop}
    (hstep : ∀ s a, I s → P (step s a).2 → I (step s a).2) :
    ∀ (as : List α) {s : σ}, I s → (∀ e ∈ history step s as, P e.after) → I (final step s as)
  | [], _, hs, _ => hs
  | a :: as, s, hs, hok =>
    final_invariant hstep as (hstep s a hs (hok _ (List.mem_cons_self ..)))
      fun e he => hok e (List.mem_cons_of_mem _ he)

/-- The same for a memory that is folded along the run. -/
theorem fold_invariant {I : σ → γ → Prop} {P : σ → Prop} (record : γ → Event σ α ρ → γ)
    (hstep : ∀ s g a, I s g → P (step s a).2 →
      I (step s a).2 (record g ⟨s, a, (step s a).1, (step s a).2⟩)) :
    ∀ (as : List α) {s : σ} {g : γ}, I s g → (∀ e ∈ history step s as, P e.after) →
      I (final step s as) ((history step s as).foldl record g)
  | [], _, _, hs, _ => hs
  | a :: as, s, g, hs, hok =>
    fold_invariant record hstep as (hstep s g a hs (hok _ (List.mem_cons_self ..)))
      fun e he => hok e (List.mem_cons_of_mem _ he)

/-- Two machines that answer related calls with related replies, from related states to related
    states, have related histories and end in related states. What may be assumed of the events of
    the two runs is `P` and `W`. -/
theorem history_related {β ρ' : Type*} {step' : τ → β → ρ' × τ} {C : α → β → Prop}
    {Q : ρ → ρ' → Prop} {R : σ → τ → Prop} {P : Event σ α ρ → Prop} {W : Event τ β ρ' → Prop}
    (hstep : ∀ s t a b, R s t → C a b → P ⟨s, a, (step s a).1, (step s a).2⟩ →
      W ⟨t, b, (step' t b).1, (step' t b).2⟩ →
      Q (step s a).1 (step' t b).1 ∧ R (step s a).2 (step' t b).2) :
    ∀ {as : List α} {bs : List β}, List.Forall₂ C as bs → ∀ {s : σ} {t : τ}, R s t →
      (∀ e ∈ history step s as, P e) → (∀ f ∈ history step' t bs, W f) →
      List.Forall₂ (fun e f => C e.call f.call ∧ Q e.reply f.reply ∧ R e.before f.before ∧
        R e.after f.after) (history step s as) (history step' t bs) ∧
      R (final step s as) (final step' t bs)
  | _, _, .nil, _, _, hR, _, _ => ⟨.nil, hR⟩
  | a :: as, b :: bs, .cons hab hs, s, t, hR, hP, hW => by
    obtain ⟨hP₁, hP⟩ := List.forall_mem_cons.mp hP
    obtain ⟨hW₁, hW⟩ := List.forall_mem_cons.mp hW
    obtain ⟨hr, hR'⟩ := hstep s t a b hR hab hP₁ hW₁
    obtain ⟨hall, hlast⟩ := history_related hstep hs hR' hP hW
    exact ⟨.cons ⟨hab, hr, hR, hR'⟩ hall, hlast⟩

/-- Two machines that answer every call alike, from related states to related states, have
    histories alike. -/
theorem history_simulation {R : σ → τ → Prop} {P : σ → Prop}
    (hstep : ∀ s t a, R s t → P (step s a).2 →
      (step s a).1 = (step' t a).1 ∧ R (step s a).2 (step' t a).2) (as : List α) {s : σ} {t : τ}
    (hR : R s t) (hP : ∀ e ∈ history step s as, P e.after) :
    List.Forall₂ (fun e f => e.call = f.call ∧ e.reply = f.reply ∧ R e.before f.before ∧
      R e.after f.after) (history step s as) (history step' t as) := by
  refine (history_related (C := Eq) (Q := Eq) (W := fun _ => True) ?_
    (List.forall₂_same.mpr fun _ _ => rfl) hR hP fun _ _ => trivial).1
  rintro s t a _ hR rfl hP -
  exact hstep s t a hR hP

end Rules

/-- Related runs have a related event for every event. -/
theorem exists_related {β : Type*} {R : α → β → Prop} {as : List α} {bs : List β}
    (h : List.Forall₂ R as bs) {a : α} (ha : a ∈ as) : ∃ b ∈ bs, R a b := by
  induction h with
  | nil => cases ha
  | @cons a₁ b₁ as bs hab _ ih =>
    rcases List.mem_cons.mp ha with rfl | ha
    · exact ⟨b₁, List.mem_cons_self, hab⟩
    · obtain ⟨b, hb, hr⟩ := ih ha
      exact ⟨b, List.mem_cons_of_mem _ hb, hr⟩

end Schemes
