import HeadersControl.Rules.Loop

/-! # Inheritance as chaining

Running the merged array of a location is running the rules of its lineage one
level after the other, innermost first. A parent rule that the merge leaves out
could not run: the child rule that disables it holds unconditionally, so it runs
and locks the name, or finds the name locked.
-/

namespace HeadersControl

open Segments

variable {ι η ο σ : Type} {cond : HeaderVal η ο → σ → Option Bool}
  {act : HeaderVal η ο → σ → Except Fault (Rc × σ)} {intTLen : ℕ} {names : List (ℕ × Str)}
  {curr prev c : List (HeaderVal η ο)}

def Unconditional (cond : HeaderVal η ο → σ → Option Bool) : Prop :=
  ∀ h s, h.overrides = true → cond h s = some true

theorem disabledBy_iff {p : HeaderVal η ο} : p.disabledBy curr = true ↔
    p.wildcard = false ∧ ∃ h ∈ curr, h.overrides = true ∧ nameKey h.key = nameKey p.key := by
  simp only [HeaderVal.disabledBy, Bool.and_eq_true, Bool.not_eq_true', List.any_eq_true,
    sameName_iff]

theorem reference_mapIdx (hu : Uniform cond act) (f : ℕ → ℕ) (hs : List (HeaderVal η ο))
    (s : σ) : reference cond act (hs.mapIdx fun i h => { h with id := f i }) names s =
      reference cond act hs names s := by
  induction hs generalizing names s f with
  | nil => rfl
  | cons h hs ih =>
    have ih' : ∀ names s, reference cond act
        (hs.mapIdx fun i h => { h with id := f (i + 1) }) names s =
          reference cond act hs names s := fun names s => ih (fun i => f (i + 1)) s
    simp only [List.mapIdx_cons, reference, hu.cond_id, hu.act_id, HeaderVal.locks, ih']
    rfl

/-- Rules whose names are locked can be left out. -/
theorem reference_filter (hd : ∀ h ∈ curr, h.overrides = true → nameKey h.key ∈ names)
    (hs : List (HeaderVal η ο)) (s : σ) :
    reference cond act (hs.filter fun p => !p.disabledBy curr) names s =
      reference cond act hs names s := by
  induction hs generalizing names s with
  | nil => rfl
  | cons p hs ih =>
    by_cases hp : p.disabledBy curr = true
    · obtain ⟨hw, h, hh, ho, hk⟩ := disabledBy_iff.mp hp
      have hlocked : nameKey p.key ∈ names := hk ▸ hd h hh ho
      rw [List.filter_cons_of_neg (by simp [hp]), ih hd]
      simp [reference, hw, hlocked]
    · have hlock : ∀ h ∈ curr, h.overrides = true →
          nameKey h.key ∈ if p.locks then nameKey p.key :: names else names := by
        intro h hh ho
        split
        · exact List.mem_cons_of_mem _ (hd h hh ho)
        · exact hd h hh ho
      rw [List.filter_cons_of_pos (by simp [hp])]
      simp only [reference, ih hd, ih hlock]

theorem reference_append_filter (hun : Unconditional cond)
    (hd : ∀ h ∈ curr, h.overrides = true → nameKey h.key ∈ names ∨ h ∈ c)
    (hs : List (HeaderVal η ο)) (s : σ) :
    reference cond act (c ++ hs.filter fun p => !p.disabledBy curr) names s =
      reference cond act (c ++ hs) names s := by
  induction c generalizing names s with
  | nil => exact reference_filter (fun h hh ho => (hd h hh ho).resolve_right (by simp)) hs s
  | cons r c ih =>
    simp only [List.cons_append, reference]
    split
    · rename_i hlocked
      refine ih (fun h hh ho => ?_) s
      rcases hd h hh ho with hn | hm
      · exact Or.inl hn
      · rcases List.mem_cons.mp hm with rfl | hm
        · exact Or.inl hlocked.2
        · exact Or.inr hm
    · cases hc : cond r s with
      | none => rfl
      | some b =>
        cases b with
        | false =>
          refine ih (fun h hh ho => ?_) s
          rcases hd h hh ho with hn | hm
          · exact Or.inl hn
          · rcases List.mem_cons.mp hm with rfl | hm
            · rw [hun h s ho] at hc
              cases hc
            · exact Or.inr hm
        | true =>
          have hlock : ∀ h ∈ curr, h.overrides = true →
              nameKey h.key ∈ (if r.locks then nameKey r.key :: names else names) ∨ h ∈ c := by
            intro h hh ho
            rcases hd h hh ho with hn | hm
            · left
              split
              · exact List.mem_cons_of_mem _ hn
              · exact hn
            · rcases List.mem_cons.mp hm with rfl | hm
              · simp only [HeaderVal.overrides, Bool.and_eq_true] at ho
                simp [HeaderVal.locks, ho]
              · exact Or.inr hm
          simp only [ih hlock]

theorem reference_append_congr {hs hs' : List (HeaderVal η ο)}
    (h : ∀ names s, reference cond act hs names s = reference cond act hs' names s)
    (c : List (HeaderVal η ο)) (s : σ) :
    reference cond act (c ++ hs) names s = reference cond act (c ++ hs') names s := by
  induction c generalizing names s with
  | nil => exact h names s
  | cons r c ih => simp only [List.cons_append, reference, ih]

section Lineage

variable {parent : ι → Option ι} {merged path : List ι} {i : ι} {s₀ s : Side ι η ο}

theorem numbered_inherited (h : s₀.Inv fun _ => False) (hp : Lineage parent i path) :
    Numbered (inherited intTLen s₀ path) := by
  induction hp with
  | root => exact h.numbered _
  | child _ hp ih =>
    rw [hp.inherited_cons]
    exact numbered_mergeRules (h.numbered _) ih

/-- What a location inherits runs like the rules of its lineage in a row. -/
theorem reference_inherited (hT : 1 ≤ intTLen) (hT' : intTLen ≤ 64) (hu : Uniform cond act)
    (hun : Unconditional cond) (h : s₀.Inv fun _ => False) (hp : Lineage parent i path)
    (names : List (ℕ × Str)) (st : σ) :
    reference cond act ((inherited intTLen s₀ path).1.getD []) names st =
      reference cond act (path.flatMap s₀.own) names st := by
  induction hp generalizing names st with
  | root => simp [inherited, Side.own]
  | @child i p path _ hp ih =>
    rw [hp.inherited_cons, List.flatMap_cons, ← reference_append_congr ih]
    have hn : Numbered (inherited intTLen s₀ path) := numbered_inherited h hp
    generalize inherited intTLen s₀ path = r at hn ⊢
    obtain ⟨prev, prevCnt⟩ := r
    obtain ⟨hids, hcnt⟩ := hn
    unfold Side.own
    rcases s₀.rules i with ⟨_ | _ | ⟨r, rs⟩, n⟩
    · rfl
    · rfl
    · rcases prev with _ | _ | ⟨q, qs⟩
      · simp [mergeRules]
      · simp [mergeRules]
      · have hmerge : mergeRules intTLen (some (r :: rs), n) (some (q :: qs), prevCnt) =
            (some (mergeOneArray intTLen (r :: rs) (q :: qs) prevCnt), _) := rfl
        rw [Option.getD_some] at hids hcnt
        obtain rfl : prevCnt = (q :: qs).length := hcnt
        rw [hmerge, Option.getD_some, Option.getD_some, Option.getD_some,
          mergeOneArray_eq hT hT' hids]
        exact (reference_mapIdx hu (fun i => i) _ _).trans
          (reference_append_filter hun (fun _ hh _ => Or.inr hh) _ _)

theorem runRules_eq_reference (hT : 1 ≤ intTLen) (hT' : intTLen ≤ 64) (hu : Uniform cond act)
    (hun : Unconditional cond) (h : s₀.Inv fun _ => False)
    (hm : s₀.Merged intTLen parent s merged) (hi : Settled parent merged i)
    (hp : Lineage parent i path) (st : σ) :
    runRules intTLen (guarded cond act) (s.rules i) st =
      reference cond act (path.flatMap s₀.own) [] st := by
  obtain ⟨path', hp', he⟩ := hm.settled i hi
  obtain rfl := hp.unique hp'
  have hn : Numbered (s.rules i) := hm.inv.numbered i
  rw [← reference_inherited hT hT' hu hun h hp, ← he]
  unfold runRules
  cases hr : (s.rules i).1 with
  | none => rfl
  | some arr =>
    obtain ⟨hids, hcnt⟩ : arr.map HeaderVal.id = List.range arr.length ∧
      (s.rules i).2 = arr.length := by simpa [Numbered, hr] using hn
    rw [hcnt]
    exact ruleLoop_eq_reference hT hT' hu (by simpa using hids) (bitmapInit_holds _ _)
      (fun key => by simp) (by simp) st

end Lineage

def traced (act : HeaderVal η ο → σ → Except Fault (Rc × σ)) (h : HeaderVal η ο)
    (s : σ × List (HeaderVal η ο)) : Except Fault (Rc × (σ × List (HeaderVal η ο))) := do
  let (rc, s') ← act h s.1
  pure (rc, (s', s.2 ++ [{ h with id := 0 }]))

theorem Uniform.traced (hu : Uniform cond act) :
    Uniform (fun h s => cond h s.1) (HeadersControl.traced act) where
  cond_id := fun h n => funext fun s => congrFun (hu.cond_id h n) s.1
  act_id := fun h n => by
    funext s
    simp only [HeadersControl.traced, hu.act_id]
  not_declined := fun h s s' => by
    unfold HeadersControl.traced
    cases ha : act h s.1 with
    | error e => simp [bind, Except.bind]
    | ok res =>
      obtain ⟨rc, s''⟩ := res
      rcases rc with _ | _ | _
      · simp [bind, Except.bind, pure, Except.pure]
      · simp [bind, Except.bind, pure, Except.pure]
      · exact absurd ha (hu.not_declined h s.1 s'')

theorem Unconditional.fst (hun : Unconditional cond) :
    Unconditional fun h (s : σ × List (HeaderVal η ο)) => cond h s.1 :=
  fun h s ho => hun h s.1 ho

end HeadersControl
