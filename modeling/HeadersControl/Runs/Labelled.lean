import Mathlib.Data.List.Basic

/-! # Labelled runs

The steps of a system carry labels, and a run carries the labels of its steps. A
property that every step keeps holds after a run, a function of the state that
follows the labels is folded along a run, and systems that match step by step
match run by run.
-/

namespace Runs

variable {α β σ τ : Type*}

inductive Run (R : α → σ → σ → Prop) : σ → List α → σ → Prop
  | nil (s : σ) : Run R s [] s
  | cons {a : α} {as : List α} {s s₁ s' : σ} : R a s s₁ → Run R s₁ as s' → Run R s (a :: as) s'

namespace Run

variable {R : α → σ → σ → Prop} {as : List α} {s s' : σ}

theorem invariant {I : σ → Prop} (h : Run R s as s')
    (hstep : ∀ a ∈ as, ∀ s s', R a s s' → I s → I s') (hs : I s) : I s' := by
  induction h with
  | nil => exact hs
  | cons ha _ ih =>
    have hs₁ := hstep _ List.mem_cons_self _ _ ha hs
    exact ih (fun b hb => hstep b (List.mem_cons_of_mem _ hb)) hs₁

/-- Under an invariant, a view of the state that follows the labels is folded along the run. -/
theorem foldl {I : σ → Prop} {view : σ → β} {f : β → α → β} (h : Run R s as s')
    (hstep : ∀ a ∈ as, ∀ s s', R a s s' → I s → I s' ∧ view s' = f (view s) a) (hs : I s) :
    I s' ∧ view s' = as.foldl f (view s) := by
  induction h with
  | nil => exact ⟨hs, rfl⟩
  | @cons a as s s₁ s' ha _ ih =>
    obtain ⟨hs₁, hview⟩ := hstep a List.mem_cons_self _ _ ha hs
    rw [List.foldl_cons, ← hview]
    exact ih (fun b hb => hstep b (List.mem_cons_of_mem _ hb)) hs₁

/-- Matching steps make matching runs. -/
theorem simulate {T : α → τ → τ → Prop} {S : σ → τ → Prop} {t : τ} (h : Run R s as s')
    (hstep : ∀ a ∈ as, ∀ s s' t, R a s s' → S s t → ∃ t', T a t t' ∧ S s' t') (hs : S s t) :
    ∃ t', Run T t as t' ∧ S s' t' := by
  induction h generalizing t with
  | nil => exact ⟨t, .nil t, hs⟩
  | cons ha _ ih =>
    obtain ⟨t₁, ht, hs₁⟩ := hstep _ List.mem_cons_self _ _ _ ha hs
    obtain ⟨t', hr, hs'⟩ := ih (fun b hb => hstep b (List.mem_cons_of_mem _ hb)) hs₁
    exact ⟨t', .cons ht hr, hs'⟩

end Run

end Runs
