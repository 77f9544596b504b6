import HeadersControl.Runs.Labelled

/-! # Independent neighbours

Lists of labels that differ in the order of independent neighbours. Where steps
with independent labels commute, a run over the one list is a run over the other,
between the same states.
-/

namespace Runs

variable {α β σ : Type*}

/-- Neighbours that are independent change places. -/
inductive Reordered (I : α → α → Prop) : List α → List α → Prop
  | nil : Reordered I [] []
  | cons (a : α) {as bs : List α} : Reordered I as bs → Reordered I (a :: as) (a :: bs)
  | swap {a b : α} (as : List α) : I a b → Reordered I (a :: b :: as) (b :: a :: as)
  | trans {as bs cs : List α} : Reordered I as bs → Reordered I bs cs → Reordered I as cs

namespace Reordered

variable {I : α → α → Prop} {as bs : List α}

@[refl] theorem refl : ∀ as : List α, Reordered I as as
  | [] => .nil
  | a :: as => .cons a (refl as)

theorem mem_iff (h : Reordered I as bs) {a : α} : a ∈ as ↔ a ∈ bs := by
  induction h with
  | nil => rfl
  | cons b _ ih => rw [List.mem_cons, List.mem_cons, ih]
  | @swap b c as _ =>
    constructor
    · intro hm
      simp only [List.mem_cons] at hm ⊢
      exact or_left_comm.mp hm
    · intro hm
      simp only [List.mem_cons] at hm ⊢
      exact or_left_comm.mp hm
  | trans _ _ ih ih' => exact ih.trans ih'

end Reordered

/-- Commuting steps may be taken in another order. -/
theorem Run.reordered {I : α → α → Prop} {R : α → σ → σ → Prop} {as bs : List α} {s s' : σ}
    (h : Run R s as s') (hr : Reordered I as bs)
    (hcomm : ∀ a ∈ as, ∀ b ∈ as, I a b → ∀ s s₁ s₂, R a s s₁ → R b s₁ s₂ →
      ∃ t, R b s t ∧ R a t s₂) : Run R s bs s' := by
  induction hr generalizing s with
  | nil => exact h
  | cons a _ ih =>
    cases h with
    | cons hs hrun =>
      exact .cons hs (ih hrun fun b hb c hc =>
        hcomm b (List.mem_cons_of_mem _ hb) c (List.mem_cons_of_mem _ hc))
  | swap as hab =>
    cases h with
    | cons ha hrun =>
      cases hrun with
      | cons hb hrun =>
        obtain ⟨t, hb', ha'⟩ := hcomm _ (by simp) _ (by simp) hab _ _ _ ha hb
        exact .cons hb' (.cons ha' hrun)
  | trans hab _ ih ih' =>
    refine ih' (ih h hcomm) fun a ha b hb => ?_
    exact hcomm a (hab.mem_iff.mpr ha) b (hab.mem_iff.mpr hb)

end Runs
