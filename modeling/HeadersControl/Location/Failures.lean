import HeadersControl.Location.Locking

/-! # Allocations that fail

A merge allocates a bitmap and places for the rules that it copies, and a loop
allocates a bitmap. A merge without its bitmap copies the rules that no run can
reach as well, which changes no run. It does not look at what it got for the
places, and a loop writes into its bitmap without a check.
-/

namespace HeadersControl

open Segments

variable {ι η ο σ : Type}

/-- `ngx_pcalloc` of the words of a bitmap, which may fail. -/
def allocWords (succeeds : Bool) (n : ℕ) : Option (List Word) :=
  if succeeds then pcallocWords n else none

/-- The outcome of the two allocations of a merge, the bitmap and the pushed places. -/
structure MergeMemory where
  mapped : Bool
  pushed : Bool

section Merge

variable [DecidableEq ι]

def disableMapWith (intTLen : ℕ) (mapped : Bool) (curr prev : List (HeaderVal η ο))
    (prevCnt : ℕ) : Bitmap :=
  curr.foldl (fun bm h =>
    if h.filter.isSome || h.next || h.wildcard then bm
    else prev.foldl (fun bm p =>
      if !p.wildcard && sameName h.key p.key then bitmapSet intTLen bm p.id else bm) bm)
    (bitmapInit intTLen prevCnt (allocWords mapped))

/--
`ngx_http_headers_control_merge_one_array`. The result of the push is ignored: without new places
the rules to copy are written behind the array.
-/
def mergeOneArrayWith (intTLen : ℕ) (mem : MergeMemory) (curr prev : List (HeaderVal η ο))
    (prevCnt : ℕ) : Except Fault (List (HeaderVal η ο)) :=
  let kept := prev.filter fun p =>
    bitmapIsset intTLen (disableMapWith intTLen mem.mapped curr prev prevCnt) p.id ≠ .ok
  if !kept.isEmpty && !mem.pushed then .error .overrun
  else .ok ((curr ++ kept).mapIdx fun i h => { h with id := i })

/-- One half of `ngx_http_headers_control_merge_loc_conf`. -/
def Side.mergeLocConfWith (intTLen : ℕ) (mem : MergeMemory) (s : Side ι η ο) (prev conf : ι) :
    Except Fault (Side ι η ο) :=
  let inherit : Side ι η ο :=
    { s with
      headers := Function.update s.headers conf (s.headers prev)
      cnt := Function.update s.cnt conf (s.cnt prev) }
  match s.headers conf with
  | none => .ok inherit
  | some a =>
      if (s.arrays a).length = 0 then .ok inherit
      else match s.headers prev with
        | none => .ok s
        | some b =>
            if (s.arrays b).length = 0 then .ok s
            else match mergeOneArrayWith intTLen mem (s.arrays a) (s.arrays b) (s.cnt prev) with
              | .error e => .error e
              | .ok merged => .ok
                  { s with
                    arrays := Function.update s.arrays a merged
                    cnt := Function.update s.cnt conf merged.length }

/-- Every location is merged once, whatever the allocations give, as long as nothing is overrun. -/
inductive MergeWith {ηi οi ηo οo : Type} (intTLen : ℕ) (parent : ι → Option ι) :
    Cycle ι ηi οi ηo οo × List ι → Cycle ι ηi οi ηo οo × List ι → Prop
  | merge {c : Cycle ι ηi οi ηo οo} {merged : List ι} {prev conf : ι} {memIn memOut : MergeMemory}
      {input : Side ι ηi οi} {output : Side ι ηo οo} :
      parent conf = some prev → Settled parent merged prev → conf ∉ merged →
      c.output.mergeLocConfWith intTLen memOut prev conf = .ok output →
      c.input.mergeLocConfWith intTLen memIn prev conf = .ok input →
      MergeWith intTLen parent (c, merged) ({ c with input, output }, conf :: merged)

variable {intTLen : ℕ} {mem : MergeMemory} {curr prev : List (HeaderVal η ο)} {s s' : Side ι η ο}

theorem mergeLocConfWith_full (s : Side ι η ο) (p i : ι) :
    s.mergeLocConfWith intTLen ⟨true, true⟩ p i = .ok (s.mergeLocConf intTLen p i) := by
  unfold Side.mergeLocConfWith Side.mergeLocConf mergeOneArrayWith
  simp only [Bool.not_true, Bool.and_false, Bool.false_eq_true, if_false]
  cases s.headers i with
  | none => rfl
  | some a =>
    dsimp only
    split_ifs
    · rfl
    · cases s.headers p with
      | none => rfl
      | some b =>
        dsimp only
        split_ifs
        · rfl
        · rfl

theorem disableMapWith_unmapped (curr prev : List (HeaderVal η ο)) (n : ℕ) :
    disableMapWith intTLen false curr prev n = ⟨none, 0⟩ := by
  have hinner : ∀ (h : HeaderVal η ο) (ps : List (HeaderVal η ο)),
      ps.foldl (fun bm p => if !p.wildcard && sameName h.key p.key then
        bitmapSet intTLen bm p.id else bm) ⟨none, 0⟩ = ⟨none, 0⟩ := by
    intro h ps
    induction ps with
    | nil => rfl
    | cons p ps ih =>
      rw [List.foldl_cons]
      split
      · exact ih
      · exact ih
  unfold disableMapWith
  show curr.foldl _ (⟨none, 0⟩ : Bitmap) = _
  induction curr with
  | nil => rfl
  | cons h curr ih =>
    rw [List.foldl_cons]
    split
    · exact ih
    · rw [hinner]
      exact ih

theorem mergeOneArrayWith_eq_ok {n : ℕ} {merged : List (HeaderVal η ο)}
    (h : mergeOneArrayWith intTLen mem curr prev n = .ok merged) :
    merged = mergeOneArray intTLen curr prev n ∨
      merged = (curr ++ prev).mapIdx fun i h => { h with id := i } := by
  obtain ⟨mapped, pushed⟩ := mem
  unfold mergeOneArrayWith at h
  dsimp only at h
  split_ifs at h
  obtain rfl := Except.ok.inj h
  cases mapped with
  | true => exact Or.inl rfl
  | false =>
    have hall : prev.filter (fun p =>
        bitmapIsset intTLen (disableMapWith intTLen false curr prev n) p.id ≠ .ok) = prev := by
      rw [disableMapWith_unmapped, List.filter_eq_self]
      intro p _
      rfl
    exact Or.inr (by rw [hall])

theorem mergeLocConfWith_total (mem : MergeMemory) (s : Side ι η ο) (p i : ι) :
    (∃ s', s.mergeLocConfWith intTLen mem p i = .ok s') ∨
      mem.pushed = false ∧ s.mergeLocConfWith intTLen mem p i = .error .overrun := by
  unfold Side.mergeLocConfWith
  cases s.headers i with
  | none => exact Or.inl ⟨_, rfl⟩
  | some a =>
    dsimp only
    split_ifs
    · exact Or.inl ⟨_, rfl⟩
    · cases s.headers p with
      | none => exact Or.inl ⟨_, rfl⟩
      | some b =>
        dsimp only
        split_ifs
        · exact Or.inl ⟨_, rfl⟩
        · unfold mergeOneArrayWith
          dsimp only
          split_ifs with hfail
          · rw [Bool.and_eq_true, Bool.not_eq_true'] at hfail
            exact Or.inr ⟨by simpa using hfail.2, rfl⟩
          · exact Or.inl ⟨_, rfl⟩

end Merge

section Tree

/-- Rules that run alike under every semantics that heeds neither ids nor unconditional rules. -/
def Alike (hs hs' : List (HeaderVal η ο)) : Prop :=
  ∀ (σ : Type) (cond : HeaderVal η ο → σ → Option Bool)
    (act : HeaderVal η ο → σ → Except Fault (Rc × σ)), Uniform cond act → Unconditional cond →
    ∀ (names : List (ℕ × Str)) (s : σ),
      reference cond act hs names s = reference cond act hs' names s

theorem Alike.trans {hs hs' hs'' : List (HeaderVal η ο)} (h : Alike hs hs') (h' : Alike hs' hs'') :
    Alike hs hs'' :=
  fun σ cond act hu hun names s => (h σ cond act hu hun names s).trans (h' σ cond act hu hun names s)

theorem Alike.append {hs hs' : List (HeaderVal η ο)} (h : Alike hs hs') (c : List (HeaderVal η ο)) :
    Alike (c ++ hs) (c ++ hs') :=
  fun σ cond act hu hun _ s => reference_append_congr (fun names s => h σ cond act hu hun names s) c s

theorem alike_merged {intTLen n : ℕ} {mem : MergeMemory} {curr prev merged : List (HeaderVal η ο)}
    (hT : 1 ≤ intTLen) (hT' : intTLen ≤ 64) (hids : prev.map HeaderVal.id = List.range prev.length)
    (hn : n = prev.length) (h : mergeOneArrayWith intTLen mem curr prev n = .ok merged) :
    Alike merged (curr ++ prev) := by
  subst hn
  intro σ cond act hu hun names s
  rcases mergeOneArrayWith_eq_ok h with rfl | rfl
  · rw [mergeOneArray_eq hT hT' hids]
    exact (reference_mapIdx hu (fun i => i) _ _).trans
      (reference_append_filter hun (fun _ hh _ => Or.inr hh) _ _)
  · exact reference_mapIdx hu (fun i => i) _ _

variable {settled : ι → Prop} {s s' : Side ι η ο} {i conf : ι} {a : ℕ}
  {l : List (HeaderVal η ο)} [DecidableEq ι]

omit [DecidableEq ι] in
theorem runRules_numbered {intTLen : ℕ} {cond : HeaderVal η ο → σ → Option Bool}
    {act : HeaderVal η ο → σ → Except Fault (Rc × σ)} {r : Rules η ο} (hT : 1 ≤ intTLen)
    (hT' : intTLen ≤ 64) (hu : Uniform cond act) (hn : Numbered r) (st : σ) :
    runRules intTLen (guarded cond act) r st = reference cond act (r.1.getD []) [] st := by
  obtain ⟨_ | arr, cnt⟩ := r
  · rfl
  · obtain ⟨hids, hcnt⟩ := hn
    obtain rfl : cnt = arr.length := hcnt
    exact ruleLoop_eq_reference hT hT' hu (by simpa using hids) (bitmapInit_holds _ _)
      (fun key => by simp) (by simp) st

/-- The array of a location is written again, and its count with it. -/
def Side.rewrite (s : Side ι η ο) (conf : ι) (a : ℕ) (l : List (HeaderVal η ο)) : Side ι η ο :=
  { s with
    arrays := Function.update s.arrays a l
    cnt := Function.update s.cnt conf l.length }

theorem rules_rewrite (h : s.Inv settled) (hconf : ¬ settled conf) (ha : s.headers conf = some a) :
    (s.rewrite conf a l).rules i = if i = conf then (some l, l.length) else s.rules i := by
  unfold Side.rewrite Side.rules
  by_cases hi : i = conf
  · subst hi
    simp [ha]
  · cases hb : s.headers i with
    | none => simp [hi]
    | some b =>
      have hne : b ≠ a := by
        rintro rfl
        exact hconf (h.own conf i b ha hb (Ne.symm hi)).1
      simp [hi, hne]

theorem rewrite_inv (h : s.Inv settled) (hconf : ¬ settled conf) (ha : s.headers conf = some a)
    (hids : l.map HeaderVal.id = List.range l.length) :
    (s.rewrite conf a l).Inv fun i => i = conf ∨ settled i := by
  constructor
  · intro i
    rw [rules_rewrite h hconf ha]
    split
    · exact ⟨hids, rfl⟩
    · exact h.numbered i
  · exact h.created
  · intro i j b hi hj hne
    obtain ⟨hsi, hsj⟩ := h.own i j b hi hj hne
    exact ⟨Or.inr hsi, Or.inr hsj⟩

theorem mergeLocConfWith_cases {intTLen : ℕ} {mem : MergeMemory} {prev : ι}
    (h : s.mergeLocConfWith intTLen mem prev conf = .ok s') :
    s' = s.mergeLocConf intTLen prev conf ∧ (s.own conf = [] ∨ s.own prev = []) ∨
      ∃ a l, s.headers conf = some a ∧ s' = s.rewrite conf a l ∧
        mergeOneArrayWith intTLen mem (s.own conf) (s.own prev) (s.cnt prev) = .ok l := by
  unfold Side.mergeLocConfWith at h
  unfold Side.mergeLocConf Side.own Side.rules
  cases hc : s.headers conf with
  | none =>
    rw [hc] at h
    exact Or.inl ⟨(Except.ok.inj h).symm, Or.inl rfl⟩
  | some a =>
    rw [hc] at h
    dsimp only at h ⊢
    split_ifs at h ⊢ with ha
    · exact Or.inl ⟨(Except.ok.inj h).symm, Or.inl (List.eq_nil_of_length_eq_zero ha)⟩
    · cases hp : s.headers prev with
      | none =>
        rw [hp] at h
        exact Or.inl ⟨(Except.ok.inj h).symm, Or.inr rfl⟩
      | some b =>
        rw [hp] at h
        dsimp only at h ⊢
        split_ifs at h ⊢ with hb
        · exact Or.inl ⟨(Except.ok.inj h).symm, Or.inr (List.eq_nil_of_length_eq_zero hb)⟩
        · cases hm : mergeOneArrayWith intTLen mem (s.arrays a) (s.arrays b) (s.cnt prev) with
          | error e =>
            rw [hm] at h
            cases h
          | ok l =>
            rw [hm] at h
            exact Or.inr ⟨a, l, rfl, (Except.ok.inj h).symm, hm⟩

theorem own_mergeRules {intTLen : ℕ} {curr prev : Rules η ο}
    (h : curr.1.getD [] = [] ∨ prev.1.getD [] = []) :
    (mergeRules intTLen curr prev).1.getD [] = curr.1.getD [] ++ prev.1.getD [] := by
  obtain ⟨_ | _ | ⟨x, xs⟩, n⟩ := curr
  · rfl
  · rfl
  · obtain ⟨_ | _ | ⟨y, ys⟩, m⟩ := prev
    · exact (List.append_nil _).symm
    · exact (List.append_nil _).symm
    · simp at h

/-- A merge changes the child alone, which then has its own rules and those of its parent. -/
theorem mergeLocConfWith_spec {intTLen : ℕ} {mem : MergeMemory} {prev : ι} (hT : 1 ≤ intTLen)
    (hT' : intTLen ≤ 64) (h : s.Inv settled) (hprev : settled prev) (hconf : ¬ settled conf)
    (he : s.mergeLocConfWith intTLen mem prev conf = .ok s') :
    (s'.Inv fun i => i = conf ∨ settled i) ∧ (∀ i, i ≠ conf → s'.rules i = s.rules i) ∧
      Alike (s'.own conf) (s.own conf ++ s.own prev) := by
  rcases mergeLocConfWith_cases he with ⟨rfl, hempty⟩ | ⟨a, l, ha, rfl, hl⟩
  · have hrules : ∀ j, (s.mergeLocConf intTLen prev conf).rules j =
        if j = conf then mergeRules intTLen (s.rules conf) (s.rules prev) else s.rules j :=
      fun _ => Side.rules_mergeLocConf h hprev hconf
    refine ⟨Side.mergeLocConf_inv h hprev hconf, fun i hi => by rw [hrules, if_neg hi], ?_⟩
    have hown : (s.mergeLocConf intTLen prev conf).own conf = s.own conf ++ s.own prev := by
      rw [Side.own, hrules, if_pos rfl]
      exact own_mergeRules hempty
    rw [hown]
    exact fun _ _ _ _ _ _ _ => rfl
  · obtain ⟨hids, hcnt⟩ := h.numbered prev
    have hnew : l.map HeaderVal.id = List.range l.length := by
      rcases mergeOneArrayWith_eq_ok hl with rfl | rfl
      · rw [mergeOneArray, map_id_mapIdx, List.length_mapIdx]
      · rw [map_id_mapIdx, List.length_mapIdx]
    refine ⟨rewrite_inv h hconf ha hnew, fun i hi => by rw [rules_rewrite h hconf ha, if_neg hi], ?_⟩
    have hown : (s.rewrite conf a l).own conf = l := by
      rw [Side.own, rules_rewrite h hconf ha, if_pos rfl]
      rfl
    rw [hown]
    exact alike_merged hT hT' hids hcnt hl

/-- How a side stands during the merge, where allocations may have failed. -/
structure Side.Inherits (parent : ι → Option ι) (s₀ s : Side ι η ο) (merged : List ι) : Prop where
  inv : s.Inv (Settled parent merged)
  settled : ∀ i, Settled parent merged i →
    ∃ path, Lineage parent i path ∧ Alike (s.own i) (path.flatMap s₀.own)
  rest : ∀ i, ¬ Settled parent merged i → s.rules i = s₀.rules i

variable {intTLen : ℕ} {parent : ι → Option ι} {merged path : List ι} {s₀ : Side ι η ο}

omit [DecidableEq ι] in
theorem Side.Inherits.initial (h : s₀.Inv fun _ => False) : s₀.Inherits parent s₀ [] where
  inv := h.mono fun _ => False.elim
  settled := by
    intro i hi
    refine ⟨[i], .root (hi.resolve_right (by simp)), ?_⟩
    rw [List.flatMap_singleton]
    exact fun _ _ _ _ _ _ _ => rfl
  rest := fun _ _ => rfl

theorem Side.Inherits.step {mem : MergeMemory} {prev : ι} (hT : 1 ≤ intTLen) (hT' : intTLen ≤ 64)
    (h : s₀.Inherits parent s merged) (hp : parent conf = some prev)
    (hprev : Settled parent merged prev) (hconf : conf ∉ merged)
    (he : s.mergeLocConfWith intTLen mem prev conf = .ok s') :
    s₀.Inherits parent s' (conf :: merged) := by
  have hopen : ¬ Settled parent merged conf := by
    rintro (hn | hm)
    · rw [hp] at hn
      cases hn
    · exact hconf hm
  obtain ⟨hinv, hother, halike⟩ := mergeLocConfWith_spec hT hT' h.inv hprev hopen he
  constructor
  · exact hinv.mono fun i => settled_cons.mpr
  · intro i hi
    rcases settled_cons.mp hi with rfl | hi
    · obtain ⟨path, hpath, hpre⟩ := h.settled prev hprev
      refine ⟨i :: path, .child hp hpath, ?_⟩
      rw [List.flatMap_cons, ← own_of_rules (h.rest i hopen)]
      exact halike.trans (hpre.append _)
    · by_cases hne : i = conf
      · exact absurd (hne ▸ hi) hopen
      · rw [own_of_rules (hother i hne)]
        exact h.settled i hi
  · intro i hi
    obtain ⟨hne, hi⟩ := not_or.mp (mt settled_cons.mpr hi)
    rw [hother i hne]
    exact h.rest i hi

omit [DecidableEq ι] in
/-- The array of a settled location runs as the reference semantics on its lineage. -/
theorem Side.Inherits.run {cond : HeaderVal η ο → σ → Option Bool}
    {act : HeaderVal η ο → σ → Except Fault (Rc × σ)} (hT : 1 ≤ intTLen) (hT' : intTLen ≤ 64)
    (hu : Uniform cond act) (hun : Unconditional cond) (h : s₀.Inherits parent s merged)
    (hi : Settled parent merged i) (hp : Lineage parent i path) (st : σ) :
    runRules intTLen (guarded cond act) (s.rules i) st =
      reference cond act (path.flatMap s₀.own) [] st := by
  obtain ⟨path', hp', halike⟩ := h.settled i hi
  obtain rfl := hp.unique hp'
  rw [← halike σ cond act hu hun [] st]
  exact runRules_numbered hT hT' hu (h.inv.numbered i) st

end Tree

section Loop

variable {intTLen : ℕ} {cv : ComplexValue → σ → Option Str}
  {handle : HeaderVal η ο → Str → σ → Except Fault (Rc × σ)} {h : HeaderVal η ο}
  {hs done rest : List (HeaderVal η ο)} {names names' : List (ℕ × Str)}
  {log : List (HeaderVal η ο × Str)} {s s' : σ} {res : Except Fault (Rc × σ)}

/-- The rules of a location, where the bitmap of the loop may be missing. -/
def runRulesWith (intTLen : ℕ) (mapped : Bool)
    (exec : HeaderVal η ο → σ → Except Fault (Rc × σ)) (r : Rules η ο) (s : σ) :
    Except Fault (Rc × σ) :=
  match r.1 with
  | none => .ok (.ok, s)
  | some h => ruleLoop intTLen exec [] h (bitmapInit intTLen r.2 (allocWords mapped)) s

theorem runRulesWith_mapped (exec : HeaderVal η ο → σ → Except Fault (Rc × σ)) (r : Rules η ο) :
    runRulesWith intTLen true exec r = runRules intTLen exec r := rfl

theorem lockedBy_unmapped (done : List (HeaderVal η ο)) (h : HeaderVal η ο) :
    lockedBy intTLen ⟨none, 0⟩ done h = false := by
  rw [lockedBy, List.any_eq_false]
  intro p _
  simp [bitmapIsset]

theorem ruleLoop_unmapped (exec : HeaderVal η ο → σ → Except Fault (Rc × σ)) :
    ruleLoop intTLen exec done (h :: hs) ⟨none, 0⟩ s =
      match exec h s with
      | .error e => .error e
      | .ok (.error, s) => .ok (.error, s)
      | .ok (.declined, s) => ruleLoop intTLen exec (done ++ [h]) hs ⟨none, 0⟩ s
      | .ok (.ok, s) =>
          if h.locks then .error .null else ruleLoop intTLen exec (done ++ [h]) hs ⟨none, 0⟩ s := by
  rw [ruleLoop, lockedBy_unmapped, Bool.and_false, if_neg Bool.false_ne_true]
  cases exec h s with
  | error e => rfl
  | ok p =>
    obtain ⟨rc, s₁⟩ := p
    cases rc with
    | error => rfl
    | declined => rfl
    | ok => cases h.locks <;> rfl

theorem Pass.unmapped (hp : Pass cv handle names hs s log names' s') (hn : names = [])
    (done rest : List (HeaderVal η ο)) :
    ruleLoop intTLen (execHeader cv handle) done (hs ++ rest) ⟨none, 0⟩ s =
      if names' = [] then ruleLoop intTLen (execHeader cv handle) (done ++ hs) rest ⟨none, 0⟩ s'
      else .error .null := by
  -- a rule that ran, at the front
  have hrun : ∀ {h : HeaderVal η ο} {hs : List (HeaderVal η ο)} {s s₁ s' : σ}
      {names' : List (ℕ × Str)} {log : List (HeaderVal η ο × Str)} {done : List (HeaderVal η ο)},
      execHeader cv handle h s = .ok (.ok, s₁) → Pass cv handle (h.lock []) hs s₁ log names' s' →
      (h.lock [] = [] → ∀ done, ruleLoop intTLen (execHeader cv handle) done (hs ++ rest)
          ⟨none, 0⟩ s₁ = if names' = [] then
            ruleLoop intTLen (execHeader cv handle) (done ++ hs) rest ⟨none, 0⟩ s'
          else .error .null) →
      ruleLoop intTLen (execHeader cv handle) done (h :: hs ++ rest) ⟨none, 0⟩ s =
        if names' = [] then
          ruleLoop intTLen (execHeader cv handle) (done ++ h :: hs) rest ⟨none, 0⟩ s'
        else .error .null := by
    intro h hs s s₁ s' names' log done he hp ih
    rw [List.cons_append, ruleLoop_unmapped, he]
    dsimp only
    cases hl : h.locks with
    | true =>
      have hkey : nameKey h.key ∈ names' := hp.names_subset (mem_lock hl [])
      rw [if_pos rfl, if_neg (List.ne_nil_of_mem hkey)]
    | false =>
      rw [if_neg Bool.false_ne_true, ih (by simp [HeaderVal.lock, hl]), List.append_assoc]
      rfl
  induction hp generalizing done with
  | nil => rw [if_pos hn, List.nil_append, List.append_nil]
  | locked hl _ _ =>
    subst hn
    cases hl.2
  | skipped _ hc _ ih =>
    rw [List.cons_append, ruleLoop_unmapped]
    simp only [execHeader_eq, hc]
    rw [ih hn, List.append_assoc]
    rfl
  | passed _ hc ho hp ih =>
    subst hn
    exact hrun (by simp [execHeader_eq, hc, action, ho]) hp ih
  | acted _ hc ho hv ha hp ih =>
    subst hn
    refine hrun ?_ hp ih
    rw [execHeader_eq, hc]
    simp only [action, ho, if_false, hv]
    exact ha

/-- Where a run comes to an end: behind the last rule, or at one that stops it. -/
inductive RunEnd (cv : ComplexValue → σ → Option Str)
    (handle : HeaderVal η ο → Str → σ → Except Fault (Rc × σ)) (names : List (ℕ × Str)) (s : σ) :
    List (HeaderVal η ο) → Except Fault (Rc × σ) → Prop
  | through : RunEnd cv handle names s [] (.ok (.ok, s))
  | stopped {h : HeaderVal η ο} {hs : List (HeaderVal η ο)} {res : Except Fault (Rc × σ)} :
      ¬ h.Locked names → execHeader cv handle h s = res →
      (∀ rc s', res = .ok (rc, s') → rc = .error) → RunEnd cv handle names s (h :: hs) res

theorem RunEnd.unmapped (he : RunEnd cv handle names s rest res) (done : List (HeaderVal η ο)) :
    ruleLoop intTLen (execHeader cv handle) done rest ⟨none, 0⟩ s = res := by
  cases he with
  | through => rfl
  | stopped _ he hne =>
    rw [ruleLoop_unmapped, he]
    rcases res with e | ⟨rc, s₁⟩
    · rfl
    · obtain rfl := hne rc s₁ rfl
      rfl

/-- A run with its bitmap and the run without: they part where the first name is locked. -/
theorem run_unmapped (hT : 1 ≤ intTLen) (hT' : intTLen ≤ 64)
    (hu : Uniform (condition cv) (action cv handle))
    (hd : ∀ hv v s s', handle hv v s ≠ .ok (.declined, s')) {r : Rules η ο} (hn : Numbered r)
    (s : σ) : ∃ hs rest log names s',
      r.1.getD [] = hs ++ rest ∧ Pass cv handle [] hs s log names s' ∧
      RunEnd cv handle names s' rest (runRules intTLen (execHeader cv handle) r s) ∧
      runRulesWith intTLen false (execHeader cv handle) r s =
        if names = [] then runRules intTLen (execHeader cv handle) r s else .error .null := by
  have hends : ∃ hs rest log names s', r.1.getD [] = hs ++ rest ∧
      Pass cv handle [] hs s log names s' ∧
      RunEnd cv handle names s' rest (runRules intTLen (execHeader cv handle) r s) := by
    rw [execHeader_eq_guarded, runRules_numbered hT hT' hu hn]
    rcases reference_cases cv handle hd (r.1.getD []) [] s with
      ⟨log, names, s', hok, hp⟩ | ⟨hs, h, rest, log, names, s', hr, hp, hl, he, hne⟩
    · rw [hok]
      exact ⟨_, [], log, names, s', (List.append_nil _).symm, hp, .through⟩
    · exact ⟨hs, h :: rest, log, names, s', hr, hp, .stopped hl he hne⟩
  obtain ⟨hs, rest, log, names, s', hr, hp, hend⟩ := hends
  refine ⟨hs, rest, log, names, s', hr, hp, hend, ?_⟩
  have hloop : runRulesWith intTLen false (execHeader cv handle) r s =
      ruleLoop intTLen (execHeader cv handle) [] (hs ++ rest) ⟨none, 0⟩ s := by
    rw [← hr]
    obtain ⟨_ | arr, cnt⟩ := r <;> rfl
  rw [hloop, hp.unmapped rfl, hend.unmapped]

end Loop

section Cycle

variable {ι ρ : Type} [DecidableEq ι] [DecidableEq ρ] {compiles : Str → Bool} {intTLen : ℕ}
  {parent : ι → Option ι} {c₀ c : Cycle ι InHandler InField OutHandler OutField}
  {merged : List ι} {i : ι} {path : List ι}

theorem inherits_of_run {m : Cycle ι InHandler InField OutHandler OutField × List ι}
    (hT : 1 ≤ intTLen) (hT' : intTLen ≤ 64) (hin : c₀.input.Inv fun _ => False)
    (hout : c₀.output.Inv fun _ => False)
    (h : Relation.ReflTransGen (MergeWith intTLen parent) (c₀, []) m) :
    c₀.input.Inherits parent m.1.input m.2 ∧ c₀.output.Inherits parent m.1.output m.2 := by
  induction h with
  | refl => exact ⟨.initial hin, .initial hout⟩
  | tail _ hs ih =>
    cases hs with
    | merge hp hprev hconf heout hein =>
      exact ⟨ih.1.step hT hT' hp hprev hconf hein, ih.2.step hT hT' hp hprev hconf heout⟩

/--
Whichever allocations of the merges fail, a tree that gets merged runs its rules as if none had
failed: in every settled location both loops run the rules of the lineage. A merge fails only
where it does not get the places for the rules that it copies, and there it overruns the array.
-/
theorem failing_merges (hT : 1 ≤ intTLen) (hT' : intTLen ≤ 64)
    (hparse : Relation.ReflTransGen (Cycle.Directive compiles setHandlersIn setHandlersOut)
      .initial c₀)
    (hmerge : Relation.ReflTransGen (MergeWith intTLen parent) (c₀, []) (c, merged))
    (hi : Settled parent merged i) (hp : Lineage parent i path) :
    (∀ (cv : ComplexValue → World ρ → Option Str) (r : ρ) (w : World ρ),
      runRules intTLen (execInputHeader cv r) (c.input.rules i) w =
        reference (condition cv) (action cv (handleIn r)) (c₀.input.chain path) [] w) ∧
    (∀ (cv : ComplexValue → Response → Option Str) (s : Response),
      runRules intTLen (Response.execOutputHeader cv) (c.output.rules i) s =
        reference (condition cv) (action cv Response.handleOut) (c₀.output.chain path) [] s) ∧
    ∀ (mem : MergeMemory) (prev conf : ι),
      ((∃ s', c.input.mergeLocConfWith intTLen mem prev conf = .ok s') ∨
        mem.pushed = false ∧ c.input.mergeLocConfWith intTLen mem prev conf = .error .overrun) ∧
      ((∃ s', c.output.mergeLocConfWith intTLen mem prev conf = .ok s') ∨
        mem.pushed = false ∧ c.output.mergeLocConfWith intTLen mem prev conf = .error .overrun) := by
  obtain ⟨hin, hout⟩ := inv_of_parsed hparse
  obtain ⟨hmin, hmout⟩ := inherits_of_run hT hT' hin hout hmerge
  refine ⟨fun cv r w => ?_, fun cv s => ?_, fun mem prev conf => ?_⟩
  · have hu : Uniform (condition cv) (action cv (handleIn r)) :=
      uniform_action (fun _ n => handleIn_id n) fun _ _ _ _ => handleIn_ne_declined
    show runRules intTLen (execHeader cv (handleIn r)) _ w = _
    rw [execHeader_eq_guarded]
    exact hmin.run hT hT' hu unconditional_condition hi hp w
  · have hu : Uniform (condition cv) (action cv Response.handleOut) :=
      uniform_action (fun _ n => Response.handleOut_id n) fun _ _ _ _ =>
        Response.handleOut_ne_declined
    show runRules intTLen (execHeader cv Response.handleOut) _ s = _
    rw [execHeader_eq_guarded]
    exact hmout.run hT hT' hu unconditional_condition hi hp s
  · exact ⟨mergeLocConfWith_total mem _ _ _, mergeLocConfWith_total mem _ _ _⟩

/--
A loop that does not get its bitmap ends as the loop with a bitmap does, up to the first rule that
is to lock its name. Where there is one, it writes through a null pointer.
-/
theorem missing_bitmap (hl : Configured compiles intTLen parent c₀ c merged i path) :
    (∀ (cv : ComplexValue → World ρ → Option Str) (r : ρ) (w : World ρ),
      ∃ hs rest log names w', c.input.own i = hs ++ rest ∧
        Pass cv (handleIn r) [] hs w log names w' ∧
        RunEnd cv (handleIn r) names w' rest
          (runRules intTLen (execInputHeader cv r) (c.input.rules i) w) ∧
        runRulesWith intTLen false (execInputHeader cv r) (c.input.rules i) w =
          if names = [] then runRules intTLen (execInputHeader cv r) (c.input.rules i) w
          else .error .null) ∧
    ∀ (cv : ComplexValue → Response → Option Str) (s : Response),
      ∃ hs rest log names s', c.output.own i = hs ++ rest ∧
        Pass cv Response.handleOut [] hs s log names s' ∧
        RunEnd cv Response.handleOut names s' rest
          (runRules intTLen (Response.execOutputHeader cv) (c.output.rules i) s) ∧
        runRulesWith intTLen false (Response.execOutputHeader cv) (c.output.rules i) s =
          if names = [] then runRules intTLen (Response.execOutputHeader cv) (c.output.rules i) s
          else .error .null := by
  obtain ⟨hin, hout⟩ := inv_of_parsed hl.parsed
  obtain ⟨hmin, hmout⟩ := merged_of_run hin hout hl.merge
  constructor
  · intro cv r w
    exact run_unmapped hl.one_le hl.le_width
      (uniform_action (fun _ n => handleIn_id n) fun _ _ _ _ => handleIn_ne_declined)
      (fun _ _ _ _ => handleIn_ne_declined) (hmin.inv.numbered i) w
  · intro cv s
    exact run_unmapped hl.one_le hl.le_width
      (uniform_action (fun _ n => Response.handleOut_id n) fun _ _ _ _ =>
        Response.handleOut_ne_declined)
      (fun _ _ _ _ => Response.handleOut_ne_declined) (hmout.inv.numbered i) s

end Cycle

/-- The rule of the server stays in the location behind `pass a`, and is locked out there. -/
theorem failing_merges_pass :
    ∃ (c : Cycle Bool InHandler InField OutHandler OutField) (input : Side Bool InHandler InField),
      passDirectives.foldlM (readDirective (fun _ => true) setHandlersIn setHandlersOut) .initial =
        .ok c ∧
      c.input.mergeLocConfWith 20 ⟨false, true⟩ true false = .ok input ∧
      (input.own false).map HeaderVal.key = [str "a", str "B", str "A"] ∧
      ∀ w : World Unit, runRules 20 (execInputHeader (fun text _ => some text) ())
          (input.rules false) w =
        reference (condition fun text _ => some text) (action (fun text _ => some text)
          (handleIn ())) (c.input.chain [false, true]) [] w := by
  have hrun : ∃ (c : Cycle Bool InHandler InField OutHandler OutField)
      (input : Side Bool InHandler InField),
      passDirectives.foldlM (readDirective (fun _ => true) setHandlersIn setHandlersOut) .initial =
        .ok c ∧
      c.input.mergeLocConfWith 20 ⟨false, true⟩ true false = .ok input ∧
      (input.own false).map HeaderVal.key = [str "a", str "B", str "A"] :=
    ⟨_, _, rfl, rfl, by decide⟩
  obtain ⟨c, input, hread, hin, hkeys⟩ := hrun
  have hmerge : Relation.ReflTransGen (MergeWith 20 fun i => if i then none else some true) (c, [])
      ({ c with input, output := c.output.mergeLocConf 20 true false }, [false]) :=
    .single (.merge rfl (Or.inl rfl) (by simp) (mergeLocConfWith_full ..) hin)
  exact ⟨c, input, hread, hin, hkeys, (failing_merges (by decide) (by decide)
    (parsed_of_read hread) hmerge (Or.inr (by simp)) (.child rfl (.root rfl))).1 _ ()⟩

/-- In that location `pass a` is the first rule that locks. -/
theorem missing_bitmap_pass :
    ∃ c : Cycle Bool InHandler InField OutHandler OutField,
      passDirectives.foldlM (readDirective (fun _ => true) setHandlersIn setHandlersOut) .initial =
        .ok c ∧
      runRulesWith 20 false (execInputHeader (fun text _ => some text) ())
        ((c.mergeLocConf 20 true false).input.rules false) headerA = .error .null ∧
      ∃ hs rest log names w',
        (c.mergeLocConf 20 true false).input.own false = hs ++ rest ∧
        Pass (fun text _ => some text) (handleIn ()) [] hs headerA log names w' ∧
        RunEnd (fun text _ => some text) (handleIn ()) names w' rest
          (runRules 20 (execInputHeader (fun text _ => some text) ())
            ((c.mergeLocConf 20 true false).input.rules false) headerA) ∧
        runRulesWith 20 false (execInputHeader (fun text _ => some text) ())
            ((c.mergeLocConf 20 true false).input.rules false) headerA =
          if names = [] then runRules 20 (execInputHeader (fun text _ => some text) ())
            ((c.mergeLocConf 20 true false).input.rules false) headerA
          else .error .null := by
  refine ⟨_, rfl, rfl, ?_⟩
  exact (missing_bitmap (configured_child (fun _ => true) passDirectives rfl)).1 _ () _

end HeadersControl
