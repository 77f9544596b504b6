import HeadersControl.Rules.Isolation

/-! # The rule loop

The request and the response loop run the rules of one array in order. A rule
that ran sets the bit of its id, and an exact rule is skipped when an earlier
exact rule of its name has its bit set. The reference semantics keeps the set of
locked names instead and knows neither ids nor bitmaps.
-/

namespace HeadersControl

open Segments

variable {η ο σ : Type}

/-- The inner loop over the earlier rules. -/
def lockedBy (intTLen : ℕ) (locked : Bitmap) (done : List (HeaderVal η ο)) (h : HeaderVal η ο) :
    Bool :=
  done.any fun p => !p.wildcard && sameName p.key h.key &&
    bitmapIsset intTLen locked p.id == .ok

/-- The loop over the rules `todo`, the rules `done` being behind it. -/
def ruleLoop (intTLen : ℕ) (exec : HeaderVal η ο → σ → Except Fault (Rc × σ)) :
    List (HeaderVal η ο) → List (HeaderVal η ο) → Bitmap → σ → Except Fault (Rc × σ)
  | _, [], _, s => .ok (.ok, s)
  | done, h :: todo, locked, s =>
      if !h.wildcard && lockedBy intTLen locked done h then
        ruleLoop intTLen exec (done ++ [h]) todo locked s
      else do
        let (rc, s) ← exec h s
        match rc with
        | .error => pure (.error, s)
        | .declined => ruleLoop intTLen exec (done ++ [h]) todo locked s
        | .ok =>
            let locked ← if h.locks then bitmapWrite intTLen locked h.id else pure locked
            ruleLoop intTLen exec (done ++ [h]) todo locked s

def runRules (intTLen : ℕ) (exec : HeaderVal η ο → σ → Except Fault (Rc × σ)) (r : Rules η ο)
    (s : σ) : Except Fault (Rc × σ) :=
  match r.1 with
  | none => .ok (.ok, s)
  | some h => ruleLoop intTLen exec [] h (bitmapInit intTLen r.2 pcallocWords) s

def guarded (cond : HeaderVal η ο → σ → Option Bool)
    (act : HeaderVal η ο → σ → Except Fault (Rc × σ)) (h : HeaderVal η ο) (s : σ) :
    Except Fault (Rc × σ) :=
  match cond h s with
  | none => .ok (.error, s)
  | some false => .ok (.declined, s)
  | some true => act h s

/--
The reference semantics on a plain list of rules with the keys of the locked names. An exact
rule runs when its name is not locked and its condition holds, a wildcard rule when its
condition holds. A rule that ran locks its name unless it is a wildcard or has `-n`.
-/
def reference (cond : HeaderVal η ο → σ → Option Bool)
    (act : HeaderVal η ο → σ → Except Fault (Rc × σ)) :
    List (HeaderVal η ο) → List (ℕ × Str) → σ → Except Fault (Rc × σ)
  | [], _, s => .ok (.ok, s)
  | h :: hs, names, s =>
      if !h.wildcard ∧ nameKey h.key ∈ names then reference cond act hs names s
      else match cond h s with
        | none => .ok (.error, s)
        | some false => reference cond act hs names s
        | some true => do
            let (rc, s) ← act h s
            if rc = .error then pure (.error, s)
            else reference cond act hs (if h.locks then nameKey h.key :: names else names) s

/-- Rules act without looking at their id, and do not decline. -/
structure Uniform (cond : HeaderVal η ο → σ → Option Bool)
    (act : HeaderVal η ο → σ → Except Fault (Rc × σ)) : Prop where
  cond_id : ∀ h n, cond { h with id := n } = cond h
  act_id : ∀ h n, act { h with id := n } = act h
  not_declined : ∀ h s s', act h s ≠ .ok (.declined, s')

variable {cond : HeaderVal η ο → σ → Option Bool}
  {act : HeaderVal η ο → σ → Except Fault (Rc × σ)} {intTLen n : ℕ}
  {done todo : List (HeaderVal η ο)} {locked : Bitmap} {ids : Set ℕ} {names : List (ℕ × Str)}

/-- The bitmap knows the locked names through the exact rules behind the loop. -/
def Knows (ids : Set ℕ) (done : List (HeaderVal η ο)) (names : List (ℕ × Str)) : Prop :=
  ∀ key, key ∈ names ↔ ∃ p ∈ done, p.wildcard = false ∧ nameKey p.key = key ∧ p.id ∈ ids

theorem lockedBy_iff (hb : locked.Holds intTLen n ids) (hlt : ∀ p ∈ done, p.id < n)
    (hk : Knows ids done names) (h : HeaderVal η ο) :
    lockedBy intTLen locked done h = true ↔ nameKey h.key ∈ names := by
  rw [hk, lockedBy, List.any_eq_true]
  refine exists_congr fun p => and_congr_right fun hp => ?_
  rw [Bool.and_eq_true, Bool.and_eq_true, sameName_iff, beq_iff_eq,
    bitmapIsset_iff hb (hlt p hp), Bool.not_eq_true', and_assoc]

theorem Knows.skip (hk : Knows ids done names) {h : HeaderVal η ο} (hh : h.id ∉ ids) :
    Knows ids (done ++ [h]) names := by
  intro key
  rw [hk]
  simp only [List.mem_append, List.mem_singleton, or_and_right, exists_or, exists_eq_left]
  exact ⟨Or.inl, fun hor => hor.resolve_right fun hn => hh hn.2.2⟩

theorem Knows.lock (hk : Knows ids done names) {h : HeaderVal η ο} (hw : h.wildcard = false)
    (hh : ∀ p ∈ done, p.id ≠ h.id) :
    Knows (insert h.id ids) (done ++ [h]) (nameKey h.key :: names) := by
  intro key
  rw [List.mem_cons, hk]
  constructor
  · rintro (rfl | ⟨p, hp, hpw, hpk, hpi⟩)
    · exact ⟨h, by simp, hw, rfl, Set.mem_insert _ _⟩
    · exact ⟨p, by simp [hp], hpw, hpk, Set.mem_insert_of_mem _ hpi⟩
  · rintro ⟨p, hp, hpw, hpk, hpi⟩
    rcases List.mem_append.mp hp with hp | hp
    · exact Or.inr ⟨p, hp, hpw, hpk, hpi.resolve_left (hh p hp)⟩
    · obtain rfl := List.mem_singleton.mp hp
      exact Or.inl hpk.symm

/-- With ids that are indices the loop is the reference semantics. -/
theorem ruleLoop_eq_reference (hT : 1 ≤ intTLen) (hT' : intTLen ≤ 64) (hu : Uniform cond act)
    (hids : (done ++ todo).map HeaderVal.id = List.range n)
    (hb : locked.Holds intTLen n ids) (hk : Knows ids done names)
    (hd : ∀ j ∈ ids, j < done.length) (s : σ) :
    ruleLoop intTLen (guarded cond act) done todo locked s = reference cond act todo names s := by
  induction todo generalizing done locked ids names s with
  | nil => rfl
  | cons h todo ih =>
    have hn : n = done.length + (todo.length + 1) := by
      simpa using (congrArg List.length hids).symm
    have hid : h.id = done.length := by
      have := congrArg (fun l => l[done.length]?) hids
      simpa [hn] using this
    have hlt : ∀ p ∈ done, p.id < n := fun p hp => List.mem_range.mp <| hids ▸
      List.mem_map_of_mem (f := HeaderVal.id) (List.mem_append_left (h :: todo) hp)
    have hne : ∀ p ∈ done, p.id ≠ h.id := by
      have hnodup : ((done ++ h :: todo).map HeaderVal.id).Nodup := hids ▸ List.nodup_range
      rw [List.map_append, List.nodup_append] at hnodup
      exact fun p hp => hnodup.2.2 _ (List.mem_map_of_mem hp) _ (by simp)
    have hids' : (done ++ [h] ++ todo).map HeaderVal.id = List.range n := by simpa using hids
    have hd' : ∀ j ∈ ids, j < (done ++ [h]).length := fun j hj => by
      have := hd j hj
      simp
      omega
    have hskip := fun s => ih hids' hb (hk.skip fun hm => (hd _ hm).ne hid) hd' s
    simp only [ruleLoop, reference, Bool.and_eq_true, lockedBy_iff hb hlt hk]
    split
    · exact hskip s
    · cases hc : cond h s with
      | none => simp [guarded, hc, bind, Except.bind, pure, Except.pure]
      | some b =>
        cases b with
        | false => simpa [guarded, hc, bind, Except.bind] using hskip s
        | true =>
          cases ha : act h s with
          | error e => simp [guarded, hc, ha, bind, Except.bind]
          | ok res =>
            obtain ⟨rc, s'⟩ := res
            cases rc with
            | error => simp [guarded, hc, ha, bind, Except.bind]
            | declined => exact absurd ha (hu.not_declined h s s')
            | ok =>
              simp only [guarded, hc, ha, bind, Except.bind, reduceCtorEq, if_false]
              by_cases hl : h.locks = true
              · have hbit : h.id < n := by omega
                obtain ⟨locked', hw, hb'⟩ := bitmapWrite_holds hT hT' hb hbit
                have hwild : h.wildcard = false := by
                  rw [HeaderVal.locks, Bool.and_eq_true, Bool.not_eq_true'] at hl
                  exact hl.1
                rw [if_pos hl, if_pos hl, hw]
                refine ih hids' hb' (hk.lock hwild hne) (fun j hj => ?_) s'
                rcases hj with rfl | hj
                · simp [hid]
                · exact hd' j hj
              · rw [if_neg hl, if_neg hl]
                exact hskip s'

end HeadersControl
