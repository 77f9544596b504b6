import HeadersControl.Runs.Labelled

/-! # Runs that are repeated

What the steps of a run have established holds at its end, if no later step breaks
it. And where every label leaves a value, resets it, or is the only one to act on
it, the same labels a second time make no difference.
-/

namespace Runs

variable {α β σ : Type*}

theorem Run.established {R : α → σ → σ → Prop} {P : α → σ → Prop} {K : α → α → Prop}
    {as : List α} {s s' : σ} (h : Run R s as s') (hpair : as.Pairwise K)
    (hstep : ∀ a ∈ as, ∀ s s', R a s s' → P a s')
    (hkeep : ∀ a ∈ as, ∀ b ∈ as, K a b → ∀ s s', R b s s' → P a s → P a s') :
    ∀ a ∈ as, P a s' := by
  induction h with
  | nil => simp
  | @cons a as s s₁ s' ha hrun ih =>
    obtain ⟨hfirst, hpair⟩ := List.pairwise_cons.mp hpair
    intro b hb
    rcases List.mem_cons.mp hb with rfl | hb
    · exact hrun.invariant
        (fun c hc => hkeep b (by simp) c (List.mem_cons_of_mem _ hc) (hfirst c hc))
        (hstep b (by simp) _ _ ha)
    · exact ih hpair (fun c hc => hstep c (List.mem_cons_of_mem _ hc))
        (fun c hc d hd => hkeep c (List.mem_cons_of_mem _ hc) d (List.mem_cons_of_mem _ hd)) b hb

section Fold

variable {f : β → α → β} {P : α → Prop} {as : List α}

/-- Of labels that leave a value, reset it, or act on it alone, the last to count decides. -/
theorem foldl_cases (hpair : as.Pairwise fun a b => P a → ¬ P b)
    (hkind : ∀ a ∈ as, (∀ x, f x a = x) ∨ (∃ c, ∀ x, f x a = c) ∨ P a) :
    (∀ x, as.foldl f x = x) ∨ (∃ c, ∀ x, as.foldl f x = c) ∨
      ∃ a ∈ as, P a ∧ ∀ x, as.foldl f x = f x a := by
  induction as with
  | nil => exact Or.inl fun _ => rfl
  | cons a as ih =>
    obtain ⟨hfirst, hpair⟩ := List.pairwise_cons.mp hpair
    rcases ih hpair fun b hb => hkind b (List.mem_cons_of_mem _ hb) with
      hid | ⟨c, hc⟩ | ⟨b, hb, hP, hfold⟩
    · rcases hkind a List.mem_cons_self with ha | ⟨c, ha⟩ | hP
      · exact Or.inl fun x => (hid _).trans (ha x)
      · exact Or.inr (Or.inl ⟨c, fun x => (hid _).trans (ha x)⟩)
      · exact Or.inr (Or.inr ⟨a, List.mem_cons_self, hP, fun x => hid _⟩)
    · exact Or.inr (Or.inl ⟨c, fun x => hc _⟩)
    · rcases hkind a List.mem_cons_self with ha | ⟨c, ha⟩ | hPa
      · refine Or.inr (Or.inr ⟨b, List.mem_cons_of_mem _ hb, hP, fun x => ?_⟩)
        rw [List.foldl_cons, hfold, ha]
      · refine Or.inr (Or.inl ⟨f c b, fun x => ?_⟩)
        rw [List.foldl_cons, hfold, ha]
      · exact absurd hP (hfirst b hb hPa)

theorem foldl_foldl (hpair : as.Pairwise fun a b => P a → ¬ P b)
    (hkind : ∀ a ∈ as, (∀ x, f x a = x) ∨ (∃ c, ∀ x, f x a = c) ∨ P a)
    (hidem : ∀ a ∈ as, P a → ∀ x, f (f x a) a = f x a) (x : β) :
    as.foldl f (as.foldl f x) = as.foldl f x := by
  rcases foldl_cases hpair hkind with hid | ⟨c, hc⟩ | ⟨a, ha, hP, hfold⟩
  · exact hid _
  · rw [hc, hc]
  · rw [hfold, hfold, hidem a ha hP]

end Fold

end Runs
