import Mathlib.Data.List.Find
import Mathlib.Data.List.Nodup
import Mathlib.Logic.Function.Basic

/-! # Putting a value under a name

A list of slots holds entries, and some of them have a name. A put writes the first
of these, or appends an entry where there is none; it may take the others of the
name out. A put after another one of the same name is as good as alone, where the
second write hides what the first one wrote.
-/

namespace Segments

variable {ε : Type*}

/--
What a put does to the slots `l` with the contents `cell`: the entry in `a` is the first one of
the name, written, or a new one in the slot `n`.
-/
inductive Put (named : ε → Bool) (merges : Bool) (write : ε → ε) (new : ε) (n : ℕ)
    (l : List ℕ) (cell : ℕ → ε) (l' : List ℕ) (cell' : ℕ → ε) : ℕ → Prop
  | written {a : ℕ} :
      (l.find? fun s => named (cell s)) = some a →
      l' = l.filter (fun s => !merges || !named (cell s) || s = a) →
      (∀ s ∈ l', cell' s = if s = a then write (cell a) else cell s) →
      Put named merges write new n l cell l' cell' a
  | created :
      (l.find? fun s => named (cell s)) = none → n ∉ l → l' = l ++ [n] →
      (∀ s ∈ l', cell' s = if s = n then new else cell s) →
      Put named merges write new n l cell l' cell' n

namespace Put

variable {named : ε → Bool} {merges : Bool} {write write' : ε → ε} {new new' : ε} {n n' a b c : ℕ}
  {l l₁ l₂ l' : List ℕ} {cell cell₁ cell₂ cell' : ℕ → ε}

theorem named_eq (h : Put named merges write new n l cell l₁ cell₁ a)
    (hwrite : ∀ e, named (write e) = named e) {s : ℕ} (hs : s ∈ l) (hs' : s ∈ l₁) :
    named (cell₁ s) = named (cell s) := by
  cases h with
  | written _ _ hcell =>
    rw [hcell s hs']
    split_ifs with hsa
    · rw [hsa, hwrite]
    · rfl
  | created _ hn _ hcell =>
    rw [hcell s hs', if_neg]
    rintro rfl
    exact hn hs

theorem find (h : Put named merges write new n l cell l₁ cell₁ a)
    (hwrite : ∀ e, named (write e) = named e) (hnew : named new = true) :
    (l₁.find? fun s => named (cell₁ s)) = some a := by
  have hkeep := fun s => h.named_eq hwrite (s := s)
  cases h with
  | written hfind hl hcell =>
    obtain ⟨ha, as, bs, rfl, hno⟩ := List.find?_eq_some_iff_append.mp hfind
    have hmem : a ∈ l₁ := by simp [hl]
    refine List.find?_eq_some_iff_append.mpr ⟨?_, as, bs.filter fun s =>
      !merges || !named (cell s) || s = a, ?_, fun s hs => ?_⟩
    · rw [hkeep a (by simp) hmem]
      exact ha
    · have has : (as.filter fun s => !merges || !named (cell s) || s = a) = as :=
        List.filter_eq_self.mpr fun s hs => by simp [hno s hs]
      rw [hl, List.filter_append, has, List.filter_cons_of_pos (by simp)]
    · have hs' : s ∈ l₁ := by
        rw [hl, List.mem_filter]
        exact ⟨by simp [hs], by simp [hno s hs]⟩
      rw [hkeep s (by simp [hs]) hs']
      exact hno s hs
  | created hfind hn hl hcell =>
    subst hl
    rw [List.find?_append, List.find?_eq_none.mpr, Option.none_or]
    · have hn' : named (cell₁ n) = true := by rwa [hcell n (by simp), if_pos rfl]
      exact List.find?_cons_of_pos hn'
    · intro s hs
      rw [hkeep s hs (by simp [hs])]
      exact List.find?_eq_none.mp hfind s hs

theorem mem (h : Put named merges write new n l cell l₁ cell₁ a) : a ∈ l₁ := by
  cases h with
  | written hfind hl _ =>
    rw [hl, List.mem_filter]
    exact ⟨List.mem_of_find?_eq_some hfind, by simp⟩
  | created _ _ hl _ => simp [hl]

theorem modify {g : ε → ε} (h : Put named merges write new n l cell l₁ cell₁ a)
    (hg : ∀ s ∈ l₁, cell₂ s = if s = a then g (cell₁ a) else cell₁ s) :
    Put named merges (fun e => g (write e)) (g new) n l cell l₁ cell₂ a := by
  have ha := h.mem
  cases h with
  | written hfind hl hcell =>
    refine .written hfind hl fun s hs => ?_
    rw [hg s hs, hcell a ha, if_pos rfl]
    split_ifs with hsa
    · rfl
    · rw [hcell s hs, if_neg hsa]
  | created hfind hn hl hcell =>
    refine .created hfind hn hl fun s hs => ?_
    rw [hg s hs, hcell _ ha, if_pos rfl]
    split_ifs with hsa
    · rfl
    · rw [hcell s hs, if_neg hsa]

theorem filter_eq (h : Put named merges write new n l cell l₁ cell₁ a)
    (hwrite : ∀ e, named (write e) = named e) :
    (l₁.filter fun s => !merges || !named (cell₁ s) || s = a) = l₁ := by
  have hkeep := fun s => h.named_eq hwrite (s := s)
  rw [List.filter_eq_self]
  intro s hs'
  cases h with
  | written _ hl _ =>
    obtain ⟨hs, hcond⟩ := List.mem_filter.mp (hl ▸ hs')
    rw [hkeep s hs hs']
    exact hcond
  | created hfind hn hl _ =>
    rw [hl, List.mem_append, List.mem_singleton] at hs'
    rcases hs' with hs | rfl
    · rw [hkeep s hs (by simp [hl, hs])]
      have hno := List.find?_eq_none.mp hfind s hs
      simp [hno]
    · simp

/-- The last put wins: a put of the same name before it leaves no trace. -/
theorem last (h₁ : Put named merges write new n l cell l₁ cell₁ a)
    (h₂ : Put named merges write' new' n' l₁ cell₁ l₂ cell₂ b)
    (h : Put named merges write' new' n l cell l' cell' c)
    (hwrite : ∀ e, named (write e) = named e) (hnew : named new = true)
    (hhide : ∀ e, write' (write e) = write' e) (hmake : write' new = new') :
    b = c ∧ l₂ = l' ∧ ∀ s ∈ l', cell₂ s = cell' s := by
  have hfind₁ := h₁.find hwrite hnew
  have hfilter₁ := h₁.filter_eq hwrite
  cases h₂ with
  | created hnone => cases hnone.symm.trans hfind₁
  | written hfind₂ hl₂ hcell₂ =>
    obtain rfl := Option.some.inj (hfind₁.symm.trans hfind₂)
    rw [hfilter₁] at hl₂
    subst hl₂
    cases h₁ with
    | written hfind hl hcell₁ =>
      cases h with
      | created hnone => cases hnone.symm.trans hfind
      | written hfind' hl' hcell' =>
        obtain rfl := Option.some.inj (hfind.symm.trans hfind')
        have hll : l₂ = l' := hl.trans hl'.symm
        have hmem : a ∈ l₂ := List.mem_of_find?_eq_some hfind₁
        refine ⟨rfl, hll, fun s hs => ?_⟩
        rw [hcell' s hs, hcell₂ s (hll ▸ hs), hcell₁ a hmem, if_pos rfl, hhide]
        split_ifs with hsa
        · rfl
        · rw [hcell₁ s (hll ▸ hs), if_neg hsa]
    | created hfind hn hl hcell₁ =>
      cases h with
      | written hsome => cases hfind.symm.trans hsome
      | created _ _ hl' hcell' =>
        have hll : l₂ = l' := hl.trans hl'.symm
        refine ⟨rfl, hll, fun s hs => ?_⟩
        rw [hcell' s hs, hcell₂ s (hll ▸ hs), hcell₁ n (by simp [hl]), if_pos rfl, hmake]
        split_ifs with hsa
        · rfl
        · rw [hcell₁ s (hll ▸ hs), if_neg hsa]

end Put

end Segments
