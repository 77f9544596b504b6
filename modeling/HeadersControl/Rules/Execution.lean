import HeadersControl.Rules.Loop
import HeadersControl.Runs.Labelled

/-! # What a run of the rules executes

A pass through a list of rules skips the rules whose name is locked or whose
condition fails. The others act, one after the other, each with the value that it
evaluates to in the state that it finds. The reference semantics comes through
with such a pass, or it stops with what some rule returns.
-/

namespace HeadersControl

open Segments Runs

variable {η ο σ : Type}

/-- An exact rule whose name is locked. -/
def HeaderVal.Locked (h : HeaderVal η ο) (names : List (ℕ × Str)) : Prop :=
  h.wildcard = false ∧ nameKey h.key ∈ names

/-- The locked names once the rule ran. -/
def HeaderVal.lock (h : HeaderVal η ο) (names : List (ℕ × Str)) : List (ℕ × Str) :=
  if h.locks then nameKey h.key :: names else names

/-- The handler of a rule returns `NGX_OK` for a value. -/
def Acts (handle : HeaderVal η ο → Str → σ → Except Fault (Rc × σ)) (a : HeaderVal η ο × Str)
    (s s' : σ) : Prop :=
  handle a.1 a.2 s = .ok (.ok, s')

/-- A pass through rules, from the locked names it finds to those it leaves, with what acted. -/
inductive Pass (cv : ComplexValue → σ → Option Str)
    (handle : HeaderVal η ο → Str → σ → Except Fault (Rc × σ)) :
    List (ℕ × Str) → List (HeaderVal η ο) → σ → List (HeaderVal η ο × Str) → List (ℕ × Str) →
      σ → Prop
  | nil {names : List (ℕ × Str)} {s : σ} : Pass cv handle names [] s [] names s
  | locked {h : HeaderVal η ο} {hs : List (HeaderVal η ο)} {names names' : List (ℕ × Str)}
      {log : List (HeaderVal η ο × Str)} {s s' : σ} :
      h.Locked names → Pass cv handle names hs s log names' s' →
      Pass cv handle names (h :: hs) s log names' s'
  | skipped {h : HeaderVal η ο} {hs : List (HeaderVal η ο)} {names names' : List (ℕ × Str)}
      {log : List (HeaderVal η ο × Str)} {s s' : σ} :
      ¬ h.Locked names → condition cv h s = some false →
      Pass cv handle names hs s log names' s' → Pass cv handle names (h :: hs) s log names' s'
  | passed {h : HeaderVal η ο} {hs : List (HeaderVal η ο)} {names names' : List (ℕ × Str)}
      {log : List (HeaderVal η ο × Str)} {s s' : σ} :
      ¬ h.Locked names → condition cv h s = some true → h.opcode = .pass →
      Pass cv handle (h.lock names) hs s log names' s' →
      Pass cv handle names (h :: hs) s log names' s'
  | acted {h : HeaderVal η ο} {hs : List (HeaderVal η ο)} {names names' : List (ℕ × Str)}
      {log : List (HeaderVal η ο × Str)} {s s₁ s' : σ} {value : Str} :
      ¬ h.Locked names → condition cv h s = some true → h.opcode ≠ .pass →
      complexValue cv h.value s = some value → Acts handle (h, value.dropLast) s s₁ →
      Pass cv handle (h.lock names) hs s₁ log names' s' →
      Pass cv handle names (h :: hs) s ((h, value.dropLast) :: log) names' s'

structure Evaluates (cv : ComplexValue → σ → Option Str) (h : HeaderVal η ο) (value : Str)
    (s : σ) : Prop where
  holds : condition cv h s = some true
  not_pass : h.opcode ≠ .pass
  value_eq : complexValue cv h.value s = some value

def Unevaluated (cv : ComplexValue → σ → Option Str) (h : HeaderVal η ο) (s : σ) : Prop :=
  condition cv h s = none ∨
    condition cv h s = some true ∧ h.opcode ≠ .pass ∧ complexValue cv h.value s = none

theorem lock_subset (h : HeaderVal η ο) (names : List (ℕ × Str)) : names ⊆ h.lock names := by
  intro key hk
  unfold HeaderVal.lock
  split
  · exact List.mem_cons_of_mem _ hk
  · exact hk

theorem mem_lock {h : HeaderVal η ο} (hl : h.locks = true) (names : List (ℕ × Str)) :
    nameKey h.key ∈ h.lock names := by
  unfold HeaderVal.lock
  rw [if_pos hl]
  exact List.mem_cons_self

theorem locks_of_overrides {h : HeaderVal η ο} (ho : h.overrides = true) : h.locks = true := by
  simp only [HeaderVal.overrides, Bool.and_eq_true] at ho
  simp [HeaderVal.locks, ho]

namespace Pass

variable {cv : ComplexValue → σ → Option Str}
  {handle : HeaderVal η ο → Str → σ → Except Fault (Rc × σ)} {h : HeaderVal η ο}
  {hs hs' : List (HeaderVal η ο)} {names names₁ names' : List (ℕ × Str)}
  {log log' : List (HeaderVal η ο × Str)} {s s₁ s' : σ} {key : ℕ × Str}

theorem append (hp : Pass cv handle names hs s log names₁ s₁)
    (hp' : Pass cv handle names₁ hs' s₁ log' names' s') :
    Pass cv handle names (hs ++ hs') s (log ++ log') names' s' := by
  induction hp with
  | nil => exact hp'
  | locked hl _ ih => exact .locked hl (ih hp')
  | skipped hf hc _ ih => exact .skipped hf hc (ih hp')
  | passed hf hc ho _ ih => exact .passed hf hc ho (ih hp')
  | acted hf hc ho hv ha _ ih => exact .acted hf hc ho hv ha (ih hp')

theorem split (hp : Pass cv handle names (hs ++ hs') s log names' s') :
    ∃ log₁ names₁ s₁ log₂, Pass cv handle names hs s log₁ names₁ s₁ ∧
      Pass cv handle names₁ hs' s₁ log₂ names' s' ∧ log = log₁ ++ log₂ := by
  induction hs generalizing names s log with
  | nil => exact ⟨[], names, s, log, .nil, hp, rfl⟩
  | cons h hs ih =>
    cases hp with
    | locked hl hp =>
      obtain ⟨log₁, names₁, s₁, log₂, h₁, h₂, rfl⟩ := ih hp
      exact ⟨log₁, names₁, s₁, log₂, .locked hl h₁, h₂, rfl⟩
    | skipped hf hc hp =>
      obtain ⟨log₁, names₁, s₁, log₂, h₁, h₂, rfl⟩ := ih hp
      exact ⟨log₁, names₁, s₁, log₂, .skipped hf hc h₁, h₂, rfl⟩
    | passed hf hc ho hp =>
      obtain ⟨log₁, names₁, s₁, log₂, h₁, h₂, rfl⟩ := ih hp
      exact ⟨log₁, names₁, s₁, log₂, .passed hf hc ho h₁, h₂, rfl⟩
    | @acted _ _ _ _ _ _ _ _ value hf hc ho hv ha hp =>
      obtain ⟨log₁, names₁, s₁, log₂, h₁, h₂, rfl⟩ := ih hp
      exact ⟨(h, value.dropLast) :: log₁, names₁, s₁, log₂, .acted hf hc ho hv ha h₁, h₂, rfl⟩

theorem run (hp : Pass cv handle names hs s log names' s') : Run (Acts handle) s log s' := by
  induction hp with
  | nil => exact .nil _
  | locked _ _ ih => exact ih
  | skipped _ _ _ ih => exact ih
  | passed _ _ _ _ ih => exact ih
  | acted _ _ _ _ ha _ ih => exact .cons ha ih

theorem sublist (hp : Pass cv handle names hs s log names' s') : (log.map Prod.fst).Sublist hs := by
  induction hp with
  | nil => exact .slnil
  | locked _ _ ih => exact ih.cons _
  | skipped _ _ _ ih => exact ih.cons _
  | passed _ _ _ _ ih => exact ih.cons _
  | acted _ _ _ _ _ _ ih => exact ih.cons_cons _

theorem mem (hp : Pass cv handle names hs s log names' s') {a : HeaderVal η ο × Str}
    (ha : a ∈ log) : a.1 ∈ hs :=
  hp.sublist.subset (List.mem_map_of_mem ha)

theorem evaluated (hp : Pass cv handle names hs s log names' s') {a : HeaderVal η ο × Str}
    (ha : a ∈ log) : a.1.opcode ≠ .pass ∧
      ∃ s₁ value, complexValue cv a.1.value s₁ = some value ∧ a.2 = value.dropLast := by
  induction hp with
  | nil => cases ha
  | locked _ _ ih => exact ih ha
  | skipped _ _ _ ih => exact ih ha
  | passed _ _ _ _ ih => exact ih ha
  | acted _ _ ho hv _ _ ih =>
    rcases List.mem_cons.mp ha with rfl | ha
    · exact ⟨ho, _, _, hv, rfl⟩
    · exact ih ha

theorem names_subset (hp : Pass cv handle names hs s log names' s') : names ⊆ names' := by
  induction hp with
  | nil => exact List.Subset.refl _
  | locked _ _ ih => exact ih
  | skipped _ _ _ ih => exact ih
  | passed _ _ _ _ ih => exact List.Subset.trans (lock_subset _ _) ih
  | acted _ _ _ _ _ _ ih => exact List.Subset.trans (lock_subset _ _) ih

theorem locked_out (hp : Pass cv handle names hs s log names' s') (hk : key ∈ names) :
    ∀ a ∈ log, a.1.wildcard = false → nameKey a.1.key ≠ key := by
  induction hp with
  | nil => simp
  | locked _ _ ih => exact ih hk
  | skipped _ _ _ ih => exact ih hk
  | passed _ _ _ _ ih => exact ih (lock_subset _ _ hk)
  | acted hf _ _ _ _ _ ih =>
    intro a ha hw
    rcases List.mem_cons.mp ha with rfl | ha
    · rintro rfl
      exact hf ⟨hw, hk⟩
    · exact ih (lock_subset _ _ hk) a ha hw

theorem pairwise_locks (hp : Pass cv handle names hs s log names' s') :
    log.Pairwise fun a b => a.1.locks = true → b.1.wildcard = false →
      nameKey b.1.key ≠ nameKey a.1.key := by
  induction hp with
  | nil => exact .nil
  | locked _ _ ih => exact ih
  | skipped _ _ _ ih => exact ih
  | passed _ _ _ _ ih => exact ih
  | acted _ _ _ _ _ hp ih =>
    refine List.pairwise_cons.mpr ⟨fun b hb hl hw => ?_, ih⟩
    exact hp.locked_out (mem_lock hl _) b hb hw

theorem mem_of_overrides (hp : Pass cv handle names hs s log names' s') (hm : h ∈ hs)
    (ho : h.overrides = true) : nameKey h.key ∈ names' := by
  induction hp with
  | nil => cases hm
  | locked hl hp ih =>
    rcases List.mem_cons.mp hm with rfl | hm
    · exact hp.names_subset hl.2
    · exact ih hm
  | @skipped _ _ _ _ _ s _ _ hc _ ih =>
    rcases List.mem_cons.mp hm with rfl | hm
    · rw [condition_of_overrides s ho] at hc
      cases hc
    · exact ih hm
  | passed _ _ _ hp ih =>
    rcases List.mem_cons.mp hm with rfl | hm
    · exact hp.names_subset (mem_lock (locks_of_overrides ho) _)
    · exact ih hm
  | acted _ _ _ _ _ hp ih =>
    rcases List.mem_cons.mp hm with rfl | hm
    · exact hp.names_subset (mem_lock (locks_of_overrides ho) _)
    · exact ih hm

/-- Whoever finds a name locked finds a rule that locked it. -/
theorem locked_by (hp : Pass cv handle names hs s log names' s') (hk : key ∈ names') :
    key ∈ names ∨ ∃ h ∈ hs, h.locks = true ∧ nameKey h.key = key := by
  have hlock : ∀ {h : HeaderVal η ο} {hs : List (HeaderVal η ο)} {names : List (ℕ × Str)},
      (key ∈ h.lock names ∨ ∃ x ∈ hs, x.locks = true ∧ nameKey x.key = key) →
      key ∈ names ∨ ∃ x ∈ h :: hs, x.locks = true ∧ nameKey x.key = key := by
    rintro h hs names (hm | ⟨x, hx, hl⟩)
    · unfold HeaderVal.lock at hm
      split at hm
      · rcases List.mem_cons.mp hm with rfl | hm
        · exact Or.inr ⟨h, List.mem_cons_self, ‹_›, rfl⟩
        · exact Or.inl hm
      · exact Or.inl hm
    · exact Or.inr ⟨x, List.mem_cons_of_mem _ hx, hl⟩
  have hrest : ∀ {h : HeaderVal η ο} {hs : List (HeaderVal η ο)} {names : List (ℕ × Str)},
      (key ∈ names ∨ ∃ x ∈ hs, x.locks = true ∧ nameKey x.key = key) →
      key ∈ names ∨ ∃ x ∈ h :: hs, x.locks = true ∧ nameKey x.key = key := by
    rintro h hs names (hm | ⟨x, hx, hl⟩)
    · exact Or.inl hm
    · exact Or.inr ⟨x, List.mem_cons_of_mem _ hx, hl⟩
  induction hp with
  | nil => exact Or.inl hk
  | locked _ _ ih => exact hrest (ih hk)
  | skipped _ _ _ ih => exact hrest (ih hk)
  | passed _ _ _ _ ih => exact hlock (ih hk)
  | acted _ _ _ _ _ _ ih => exact hlock (ih hk)

theorem override {pre post : List (HeaderVal η ο)}
    (hp : Pass cv handle [] (pre ++ h :: post) s log names' s') (ho : h.overrides = true)
    (hpre : ∀ x ∈ pre, x.locks = true → nameKey x.key ≠ nameKey h.key) :
    ∃ log₁ names₁ s₀ s₁ log₂, Pass cv handle [] pre s log₁ names₁ s₀ ∧
      Pass cv handle (h.lock names₁) post s₁ log₂ names' s' ∧
      (h.opcode = .pass ∧ s₁ = s₀ ∨ h.opcode ≠ .pass ∧ ∃ value,
        complexValue cv h.value s₀ = some value ∧ Acts handle (h, value.dropLast) s₀ s₁) := by
  obtain ⟨log₁, names₁, s₀, log₂, h₁, h₂, -⟩ := hp.split
  cases h₂ with
  | locked hl =>
    rcases h₁.locked_by hl.2 with hm | ⟨x, hx, hlock, hkey⟩
    · cases hm
    · exact absurd hkey (hpre x hx hlock)
  | skipped _ hc =>
    rw [condition_of_overrides s₀ ho] at hc
    cases hc
  | passed _ _ hop h₂ => exact ⟨log₁, names₁, s₀, s₀, log₂, h₁, h₂, Or.inl ⟨hop, rfl⟩⟩
  | acted _ _ hop hv ha h₂ =>
    exact ⟨log₁, names₁, s₀, _, _, h₁, h₂, Or.inr ⟨hop, _, hv, ha⟩⟩

end Pass

section Reference

variable {cv : ComplexValue → σ → Option Str}
  {handle : HeaderVal η ο → Str → σ → Except Fault (Rc × σ)} {hs : List (HeaderVal η ο)}
  {names : List (ℕ × Str)} {s : σ}

/-- A run that stops at a rule, with a fault or `NGX_ERROR`. -/
def Stops (cv : ComplexValue → σ → Option Str)
    (handle : HeaderVal η ο → Str → σ → Except Fault (Rc × σ)) (names : List (ℕ × Str))
    (hs : List (HeaderVal η ο)) (s : σ) (res : Except Fault (Rc × σ)) : Prop :=
  ∃ hs₁ h hs₂ log names' s₁, hs = hs₁ ++ h :: hs₂ ∧ Pass cv handle names hs₁ s log names' s₁ ∧
    ¬ h.Locked names' ∧ execHeader cv handle h s₁ = res ∧
      ∀ rc s', res = .ok (rc, s') → rc = .error

theorem exec_stops {h : HeaderVal η ο} {res : Except Fault (Rc × σ)}
    (he : execHeader cv handle h s = res) (hne : ∀ rc s', res = .ok (rc, s') → rc = .error) :
    Unevaluated cv h s ∧ res = .ok (.error, s) ∨
      ∃ value, Evaluates cv h value s ∧ handle h value.dropLast s = res := by
  rw [execHeader_eq] at he
  cases hc : condition cv h s with
  | none =>
    rw [hc] at he
    exact Or.inl ⟨Or.inl hc, he.symm⟩
  | some b =>
    rw [hc] at he
    cases b with
    | false => cases hne .declined s he.symm
    | true =>
      dsimp only at he
      unfold action at he
      split_ifs at he with hop
      · cases hne .ok s he.symm
      · cases hv : complexValue cv h.value s with
        | none =>
          rw [hv] at he
          exact Or.inl ⟨Or.inr ⟨hc, hop, hv⟩, he.symm⟩
        | some value =>
          rw [hv] at he
          exact Or.inr ⟨value, ⟨hc, hop, hv⟩, he⟩

theorem Stops.cons {h : HeaderVal η ο} {log : List (HeaderVal η ο × Str)}
    {names₁ : List (ℕ × Str)} {s₁ : σ} {res : Except Fault (Rc × σ)}
    (hp : Pass cv handle names [h] s log names₁ s₁) (hst : Stops cv handle names₁ hs s₁ res) :
    Stops cv handle names (h :: hs) s res := by
  obtain ⟨hs₁, h', hs₂, log', names', s₂, rfl, hp', hst⟩ := hst
  exact ⟨h :: hs₁, h', hs₂, log ++ log', names', s₂, rfl, hp.append hp', hst⟩

variable (cv handle) in
theorem reference_cases (hd : ∀ hv v s s', handle hv v s ≠ .ok (.declined, s'))
    (hs : List (HeaderVal η ο)) (names : List (ℕ × Str)) (s : σ) :
    (∃ log names' s', reference (condition cv) (action cv handle) hs names s = .ok (.ok, s') ∧
      Pass cv handle names hs s log names' s') ∨
    Stops cv handle names hs s (reference (condition cv) (action cv handle) hs names s) := by
  induction hs generalizing names s with
  | nil => exact Or.inl ⟨[], names, s, rfl, .nil⟩
  | cons h hs ih =>
    have hgo : ∀ {log : List (HeaderVal η ο × Str)} {names₁ : List (ℕ × Str)} {s₁ : σ},
        Pass cv handle names [h] s log names₁ s₁ →
        reference (condition cv) (action cv handle) (h :: hs) names s =
          reference (condition cv) (action cv handle) hs names₁ s₁ →
        (∃ log names' s', reference (condition cv) (action cv handle) (h :: hs) names s =
            .ok (.ok, s') ∧ Pass cv handle names (h :: hs) s log names' s') ∨
        Stops cv handle names (h :: hs) s
          (reference (condition cv) (action cv handle) (h :: hs) names s) := by
      intro log names₁ s₁ hp he
      rw [he]
      rcases ih names₁ s₁ with ⟨log', names', s', hok, hp'⟩ | hst
      · exact Or.inl ⟨log ++ log', names', s', hok, hp.append hp'⟩
      · exact Or.inr (hst.cons hp)
    by_cases hl : h.Locked names
    · exact hgo (.locked hl .nil) (by simp [reference, hl.1, hl.2])
    have hfree : ¬ ((!h.wildcard) = true ∧ nameKey h.key ∈ names) := by
      simpa [HeaderVal.Locked] using hl
    have hstop : ∀ res : Except Fault (Rc × σ),
        reference (condition cv) (action cv handle) (h :: hs) names s = res →
        execHeader cv handle h s = res → (∀ rc s', res = .ok (rc, s') → rc = .error) →
        Stops cv handle names (h :: hs) s
          (reference (condition cv) (action cv handle) (h :: hs) names s) := by
      rintro res hr he hne
      rw [hr]
      exact ⟨[], h, hs, [], names, s, rfl, .nil, hl, he, hne⟩
    cases hc : condition cv h s with
    | none =>
      exact Or.inr (hstop (.ok (.error, s)) (by rw [reference, if_neg hfree, hc])
        (by simp [execHeader_eq, hc]) (by simp +contextual))
    | some b =>
      cases b with
      | false => exact hgo (.skipped hl hc .nil) (by rw [reference, if_neg hfree, hc])
      | true =>
        have hexec : execHeader cv handle h s = action cv handle h s := by
          simp [execHeader_eq, hc]
        have href : reference (condition cv) (action cv handle) (h :: hs) names s =
            (action cv handle h s).bind fun p => if p.1 = .error then .ok (.error, p.2)
              else reference (condition cv) (action cv handle) hs (h.lock names) p.2 := by
          simp only [reference, hfree, if_false, hc]
          rfl
        cases ha : action cv handle h s with
        | error e =>
          exact Or.inr (hstop _ (by rw [href, ha]; rfl) (hexec.trans ha) (by simp))
        | ok p =>
          obtain ⟨rc, s₁⟩ := p
          cases rc with
          | declined => exact absurd ha (action_ne_declined hd)
          | error =>
            exact Or.inr (hstop _ (by rw [href, ha]; rfl) (hexec.trans ha) (by simp +contextual))
          | ok =>
            have hpass : ∃ log, Pass cv handle names [h] s log (h.lock names) s₁ := by
              unfold action at ha
              split_ifs at ha with ho
              · cases ha
                exact ⟨[], .passed hl hc ho .nil⟩
              · cases hv : complexValue cv h.value s with
                | none => simp [hv] at ha
                | some value =>
                  rw [hv] at ha
                  exact ⟨_, .acted hl hc ho hv ha .nil⟩
            obtain ⟨log, hpass⟩ := hpass
            exact hgo hpass (by rw [href, ha]; rfl)

/-- A run that comes through is a pass. -/
theorem pass_of_reference {s' : σ} (hd : ∀ hv v s s', handle hv v s ≠ .ok (.declined, s'))
    (he : reference (condition cv) (action cv handle) hs names s = .ok (.ok, s')) :
    ∃ log names', Pass cv handle names hs s log names' s' := by
  rcases reference_cases cv handle hd hs names s with
    ⟨log, names', s₁, hok, hp⟩ | ⟨_, _, _, _, _, _, -, -, -, -, hne⟩
  · obtain rfl := (Prod.mk.inj (Except.ok.inj (he.symm.trans hok))).2
    exact ⟨log, names', hp⟩
  · cases hne .ok s' he

variable (cv handle names) in
/--
Where every handler keeps `J .ok`, and returns with `J` or with a fault that `F` allows it, so does
the reference semantics.
-/
theorem reference_safe {J : Rc → σ → Prop} {F : HeaderVal η ο → Fault → Prop}
    (hd : ∀ hv v s s', handle hv v s ≠ .ok (.declined, s')) (herr : ∀ s, J .ok s → J .error s)
    (hJ : ∀ h ∈ hs, ∀ value, (h.opcode = .clear → h.value = none → value = []) → ∀ s, J .ok s →
      (∃ rc s', handle h value s = .ok (rc, s') ∧ J rc s') ∨
        ∃ e, handle h value s = .error e ∧ F h e) (hs₀ : J .ok s) :
    (∃ rc s', reference (condition cv) (action cv handle) hs names s = .ok (rc, s') ∧ J rc s') ∨
      ∃ h ∈ hs, ∃ e, reference (condition cv) (action cv handle) hs names s = .error e ∧ F h e := by
  have hnil : ∀ {h : HeaderVal η ο} {s : σ} {value : Str}, complexValue cv h.value s = some value →
      h.opcode = .clear → h.value = none → value.dropLast = [] := by
    intro h s value hv _ hnone
    rw [hnone] at hv
    cases hv
    rfl
  -- a pass keeps `J .ok`
  have hpass : ∀ {hs₁ : List (HeaderVal η ο)} {log : List (HeaderVal η ο × Str)}
      {names' : List (ℕ × Str)} {s₁ : σ}, hs₁ ⊆ hs → Pass cv handle names hs₁ s log names' s₁ →
      J .ok s₁ := by
    intro hs₁ log names' s₁ hsub hp
    refine hp.run.invariant (fun a ha t t' hact ht => ?_) hs₀
    obtain ⟨-, t₀, value, hval, hav⟩ := hp.evaluated ha
    have hclear : a.1.opcode = .clear → a.1.value = none → a.2 = [] := fun hop hnone =>
      hav.trans (hnil hval hop hnone)
    unfold Acts at hact
    rcases hJ a.1 (hsub (hp.mem ha)) a.2 hclear t ht with ⟨rc, t₁, he, hj⟩ | ⟨e, he, -⟩
    · cases hact.symm.trans he
      exact hj
    · cases hact.symm.trans he
  rcases reference_cases cv handle hd hs names s with
    ⟨log, names', s', hok, hp⟩ | ⟨hs₁, h, hs₂, log, names', s₁, hchain, hp, -, he, hne⟩
  · exact Or.inl ⟨.ok, s', hok, hpass (List.Subset.refl _) hp⟩
  · have hs₁ : J .ok s₁ := hpass (by rw [hchain]; exact List.subset_append_left _ _) hp
    have hm : h ∈ hs := by rw [hchain]; simp
    rcases exec_stops he hne with ⟨-, hres⟩ | ⟨value, hv, he⟩
    · exact Or.inl ⟨.error, s₁, hres, herr s₁ hs₁⟩
    · rcases hJ h hm value.dropLast (hnil hv.value_eq) s₁ hs₁ with
        ⟨rc, s', he', hj⟩ | ⟨e, he', hf⟩
      · exact Or.inl ⟨rc, s', he.symm.trans he', hj⟩
      · exact Or.inr ⟨h, hm, e, he.symm.trans he', hf⟩

end Reference

end HeadersControl
