import HeadersControl.Rules.Execution

/-! # Rules on a view of the state

A view keeps what is said about a state and leaves its layout out. Where what a
handler does to a state is what an effect does to the view, a run of the rules on
the state is a run of their effects on the view, up to the same end.
-/

namespace HeadersControl

open Segments Runs

variable {η ο σ τ : Type}

/--
What a handler returns on the state `s` mirrors what an effect returns on the view of it. The view
is good for states with `J`; a handler may fail for want of memory where it is not `ample`.
-/
inductive Mirrors (view : σ → τ) (J ample : σ → Prop) (s : σ) :
    Except Fault (Rc × σ) → Except Fault (Rc × τ) → Prop
  | fault {e : Fault} : Mirrors view J ample s (.error e) (.error e)
  | rejected : Mirrors view J ample s (.ok (.error, s)) (.ok (.error, view s))
  | exhausted {s' : σ} {res : Except Fault (Rc × τ)} :
      ¬ ample s → Mirrors view J ample s (.ok (.error, s')) res
  | done {s' : σ} {v : τ} : J s' → (ample s → ample s') → view s' = v →
      Mirrors view J ample s (.ok (.ok, s')) (.ok (.ok, v))

/--
The end of a loop that has come to the state `s`, with these rules ahead: there are none, or the
next one cannot be evaluated, has its value rejected, or runs into a fault.
-/
inductive LoopEnd (cv : ComplexValue → σ → Option Str)
    (effect : HeaderVal η ο → Str → τ → Except Fault (Rc × τ)) (view : σ → τ) (s : σ)
    (names : List (ℕ × Str)) : List (HeaderVal η ο) → Except Fault (Rc × σ) → Prop
  | through : LoopEnd cv effect view s names [] (.ok (.ok, s))
  | unevaluated {h : HeaderVal η ο} {hs : List (HeaderVal η ο)} : ¬ h.Locked names →
      Unevaluated cv h s → LoopEnd cv effect view s names (h :: hs) (.ok (.error, s))
  | rejected {h : HeaderVal η ο} {hs : List (HeaderVal η ο)} {value : Str} : ¬ h.Locked names →
      Evaluates cv h value s → effect h value.dropLast (view s) = .ok (.error, view s) →
      LoopEnd cv effect view s names (h :: hs) (.ok (.error, s))
  | fault {h : HeaderVal η ο} {hs : List (HeaderVal η ο)} {value : Str} {e : Fault} :
      ¬ h.Locked names → Evaluates cv h value s →
      effect h value.dropLast (view s) = .error e →
      LoopEnd cv effect view s names (h :: hs) (.error e)

section Loop

variable {cv : ComplexValue → σ → Option Str}
  {handle : HeaderVal η ο → Str → σ → Except Fault (Rc × σ)}
  {effect : HeaderVal η ο → Str → τ → Except Fault (Rc × τ)} {view : σ → τ} {J ample : σ → Prop}
  {h : HeaderVal η ο} {hs : List (HeaderVal η ο)} {names names' : List (ℕ × Str)}
  {log : List (HeaderVal η ο × Str)} {s s' : σ}

variable (handle effect view J ample) in
/-- The handler of a rule mirrors its effect, for values that the rule can evaluate to. -/
def HeaderVal.Mirrored (h : HeaderVal η ο) : Prop :=
  ∀ s value, J s → h.opcode ≠ .pass → (h.value = none → value = []) →
    Mirrors view J ample s (handle h value s) (effect h value (view s))

theorem dropLast_of_none {value : Str} (hv : complexValue cv h.value s = some value)
    (hnone : h.value = none) : value.dropLast = [] := by
  rw [hnone] at hv
  cases hv
  rfl

theorem Pass.mirrored (hp : Pass cv handle names hs s log names' s')
    (hall : ∀ h ∈ hs, h.Mirrored handle effect view J ample) (hs₀ : J s) :
    Run (Acts effect) (view s) log (view s') ∧ J s' ∧ (ample s → ample s') := by
  have hstep : ∀ a ∈ log, ∀ s₁ s₂ v, Acts handle a s₁ s₂ →
      (J s₁ ∧ (ample s → ample s₁)) ∧ view s₁ = v →
      ∃ v', Acts effect a v v' ∧ (J s₂ ∧ (ample s → ample s₂)) ∧ view s₂ = v' := by
    rintro a ha s₁ s₂ v he ⟨⟨hs₁, hample⟩, rfl⟩
    obtain ⟨hpass, s₀, value, hval, hav⟩ := hp.evaluated ha
    have hm := hall _ (hp.mem ha) s₁ a.2 hs₁ hpass
      fun hnone => hav.trans (dropLast_of_none hval hnone)
    unfold Acts at he ⊢
    rw [he] at hm
    generalize effect a.1 a.2 (view s₁) = res at hm ⊢
    cases hm with
    | done hs₂ ha₂ hv => exact ⟨_, rfl, ⟨hs₂, fun h => ha₂ (hample h)⟩, hv⟩
  obtain ⟨v', hr, ⟨hs', hample⟩, rfl⟩ := hp.run.simulate hstep ⟨⟨hs₀, id⟩, rfl⟩
  exact ⟨hr, hs', hample⟩

theorem loopEnd_of_stop {res : Except Fault (Rc × σ)} (hf : ¬ h.Locked names)
    (hh : h.Mirrored handle effect view J ample) (hs₀ : J s) (hample : ample s)
    (he : execHeader cv handle h s = res) (hne : ∀ rc s', res = .ok (rc, s') → rc = .error) :
    LoopEnd cv effect view s names (h :: hs) res := by
  rcases exec_stops he hne with ⟨hun, rfl⟩ | ⟨value, hv, he⟩
  · exact .unevaluated hf hun
  · have hm := hh s value.dropLast hs₀ hv.not_pass fun hnone => dropLast_of_none hv.value_eq hnone
    rw [he] at hm
    generalize heff : effect h value.dropLast (view s) = eff at hm
    cases hm with
    | fault => exact .fault hf hv heff
    | rejected => exact .rejected hf hv heff
    | exhausted hno => exact absurd hample hno
    | done => cases hne _ _ rfl

variable (cv names) in
/-- The reference semantics makes one pass up to its end, and the same on the view. -/
theorem refine_reference (hd : ∀ hv v s s', handle hv v s ≠ .ok (.declined, s'))
    (hall : ∀ h ∈ hs, h.Mirrored handle effect view J ample) (hs₀ : J s) (hample : ample s) :
    ∃ hs₁ rest log names' s₁, hs = hs₁ ++ rest ∧ Pass cv handle names hs₁ s log names' s₁ ∧
      J s₁ ∧ Run (Acts effect) (view s) log (view s₁) ∧
      LoopEnd cv effect view s₁ names' rest
        (reference (condition cv) (action cv handle) hs names s) := by
  rcases reference_cases cv handle hd hs names s with
    ⟨log, names', s₁, hok, hp⟩ | ⟨hs₁, h, rest, log, names', s₁, rfl, hp, hf, he, hne⟩
  · obtain ⟨hrun, hs₁, -⟩ := hp.mirrored hall hs₀
    rw [hok]
    exact ⟨_, [], log, names', s₁, (List.append_nil _).symm, hp, hs₁, hrun, .through⟩
  · obtain ⟨hrun, hj, hample'⟩ := hp.mirrored (fun x hx => hall x (List.mem_append_left _ hx)) hs₀
    exact ⟨hs₁, h :: rest, log, names', s₁, rfl, hp, hj, hrun,
      loopEnd_of_stop hf (hall h (by simp)) hj (hample' hample) he hne⟩

end Loop

section Match

/--
Two results match: the same fault, or the same return code with states that `S` relates. Behind an
error only `W` relates them.
-/
inductive Matched (S W : σ → τ → Prop) :
    Except Fault (Rc × σ) → Except Fault (Rc × τ) → Prop
  | fault {e : Fault} : Matched S W (.error e) (.error e)
  | ended {rc : Rc} {s : σ} {t : τ} : W s t → (rc ≠ .error → S s t) →
      Matched S W (.ok (rc, s)) (.ok (rc, t))

/--
The second result follows the first one, unless this is a fault: the same return code, and states
that `S` relates. Behind an error only `W` relates them.
-/
inductive Follows (S W : σ → τ → Prop) :
    Except Fault (Rc × σ) → Except Fault (Rc × τ) → Prop
  | fault {e : Fault} {res : Except Fault (Rc × τ)} : Follows S W (.error e) res
  | ended {rc : Rc} {s : σ} {t : τ} : W s t → (rc ≠ .error → S s t) →
      Follows S W (.ok (rc, s)) (.ok (rc, t))

def goOn (k : σ → Except Fault (Rc × σ)) (p : Rc × σ) : Except Fault (Rc × σ) :=
  if p.1 = .error then .ok (.error, p.2) else k p.2

variable {R : Except Fault (Rc × σ) → Except Fault (Rc × τ) → Prop} {S W : σ → τ → Prop}
  {cv : ComplexValue → σ → Option Str} {cv' : ComplexValue → τ → Option Str}
  {handle : HeaderVal η ο → Str → σ → Except Fault (Rc × σ)}
  {handle' : HeaderVal η ο → Str → τ → Except Fault (Rc × τ)} {hs : List (HeaderVal η ο)}
  {names : List (ℕ × Str)} {s : σ} {t : τ}

theorem action_related {h : HeaderVal η ο} (hcv : ∀ text s t, S s t → cv text s = cv' text t)
    (hend : ∀ rc s t, S s t → R (.ok (rc, s)) (.ok (rc, t)))
    (hh : ∀ value s t, S s t → R (handle h value s) (handle' h value t)) (hst : S s t) :
    R (action cv handle h s) (action cv' handle' h t) := by
  have hval : complexValue cv h.value s = complexValue cv' h.value t := by
    cases hv : h.value with
    | none => rfl
    | some text => exact hcv text s t hst
  unfold action
  rw [hval]
  split_ifs
  · exact hend .ok s t hst
  · cases complexValue cv' h.value t with
    | none => exact hend .error s t hst
    | some value => exact hh value.dropLast s t hst

theorem reference_related (hcv : ∀ text s t, S s t → cv text s = cv' text t)
    (hend : ∀ rc s t, S s t → R (.ok (rc, s)) (.ok (rc, t)))
    (hgo : ∀ a b (k : σ → Except Fault (Rc × σ)) (k' : τ → Except Fault (Rc × τ)), R a b →
      (∀ s t, S s t → R (k s) (k' t)) → R (a.bind (goOn k)) (b.bind (goOn k')))
    (hhandle : ∀ h ∈ hs, ∀ value s t, S s t → R (handle h value s) (handle' h value t))
    (hst : S s t) :
    R (reference (condition cv) (action cv handle) hs names s)
      (reference (condition cv') (action cv' handle') hs names t) := by
  induction hs generalizing names s t with
  | nil => exact hend .ok s t hst
  | cons h hs ih =>
    have htail : ∀ x ∈ hs, ∀ value s t, S s t → R (handle x value s) (handle' x value t) :=
      fun x hx => hhandle x (List.mem_cons_of_mem _ hx)
    have hcond : condition cv h s = condition cv' h t := by
      unfold condition
      cases h.filter with
      | none => rfl
      | some text => exact congrArg (Option.map _) (hcv text s t hst)
    unfold reference
    rw [hcond]
    split
    · exact ih htail hst
    · cases condition cv' h t with
      | none => exact hend .error s t hst
      | some holds =>
        cases holds with
        | false => exact ih htail hst
        | true =>
          exact hgo _ _ _ _ (action_related hcv hend (hhandle h List.mem_cons_self) hst)
            fun s t hst => ih htail hst

theorem Matched.bind {a : Except Fault (Rc × σ)} {b : Except Fault (Rc × τ)}
    {k : σ → Except Fault (Rc × σ)} {k' : τ → Except Fault (Rc × τ)} (h : Matched S W a b)
    (hk : ∀ s t, S s t → Matched S W (k s) (k' t)) :
    Matched S W (a.bind (goOn k)) (b.bind (goOn k')) := by
  cases h with
  | fault => exact .fault
  | @ended rc s t hw hst =>
    by_cases hrc : rc = .error
    · simp only [Except.bind, goOn, if_pos hrc]
      exact .ended hw fun hne => absurd rfl hne
    · simp only [Except.bind, goOn, if_neg hrc]
      exact hk s t (hst hrc)

theorem Follows.bind {a : Except Fault (Rc × σ)} {b : Except Fault (Rc × τ)}
    {k : σ → Except Fault (Rc × σ)} {k' : τ → Except Fault (Rc × τ)} (h : Follows S W a b)
    (hk : ∀ s t, S s t → Follows S W (k s) (k' t)) :
    Follows S W (a.bind (goOn k)) (b.bind (goOn k')) := by
  cases h with
  | fault => exact .fault
  | @ended rc s t hw hst =>
    by_cases hrc : rc = .error
    · simp only [Except.bind, goOn, if_pos hrc]
      exact .ended hw fun hne => absurd rfl hne
    · simp only [Except.bind, goOn, if_neg hrc]
      exact hk s t (hst hrc)

theorem reference_matched (hweak : ∀ s t, S s t → W s t)
    (hcv : ∀ text s t, S s t → cv text s = cv' text t)
    (hhandle : ∀ h ∈ hs, ∀ value s t, S s t → Matched S W (handle h value s) (handle' h value t))
    (hst : S s t) :
    Matched S W (reference (condition cv) (action cv handle) hs names s)
      (reference (condition cv') (action cv' handle') hs names t) := by
  apply reference_related hcv
  · exact fun _ s t hst => .ended (hweak s t hst) fun _ => hst
  · exact fun _ _ _ _ hab hk => hab.bind hk
  · exact hhandle
  · exact hst

end Match

end HeadersControl
