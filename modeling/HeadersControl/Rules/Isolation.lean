import HeadersControl.Rules.Config
import Mathlib.Tactic.Tauto

/-! # Rule ids and isolation of shared arrays

While the tree is parsed and merged, the ids of an array are its indices and the
stored count is its length. An array that a location shares with its parent is
never written again, since only locations that are not settled are merged into.
-/

namespace HeadersControl

variable {ι η ο ηi οi ηo οo : Type}

/-- Ids are indices and the count is the length, where a null array counts as empty. -/
def Numbered (r : Rules η ο) : Prop :=
  (r.1.getD []).map HeaderVal.id = List.range (r.1.getD []).length ∧ r.2 = (r.1.getD []).length

/--
The invariant of one side. Two locations point to one array only when both are settled; during
parsing none is.
-/
structure Side.Inv (s : Side ι η ο) (settled : ι → Prop) : Prop where
  numbered : ∀ i, Numbered (s.rules i)
  created : ∀ i a, s.headers i = some a → a < s.created
  own : ∀ i j a, s.headers i = some a → s.headers j = some a → i ≠ j → settled i ∧ settled j

theorem numbered_mergeRules {intTLen : ℕ} {curr prev : Rules η ο} (hc : Numbered curr)
    (hp : Numbered prev) : Numbered (mergeRules intTLen curr prev) := by
  obtain ⟨_ | _ | ⟨h, hs⟩, n⟩ := curr
  · exact hp
  · exact hp
  · obtain ⟨_ | _ | ⟨p, ps⟩, m⟩ := prev
    · exact hc
    · exact hc
    · refine ⟨?_, rfl⟩
      show (mergeOneArray ..).map HeaderVal.id = List.range (mergeOneArray ..).length
      rw [mergeOneArray, map_id_mapIdx, List.length_mapIdx]

namespace Side

variable {s : Side ι η ο} {settled : ι → Prop} {i j prev conf : ι} {hv : HeaderVal η ο}
  {intTLen : ℕ}

theorem initial_inv : (initial : Side ι η ο).Inv settled where
  numbered := fun _ => ⟨rfl, rfl⟩
  created := fun _ _ h => by cases h
  own := fun _ _ _ h => by cases h

theorem Inv.mono {settled' : ι → Prop} (h : s.Inv settled) (hs : ∀ i, settled i → settled' i) :
    s.Inv settled' :=
  ⟨h.numbered, h.created, fun i j a hi hj hne =>
    ⟨hs i (h.own i j a hi hj hne).1, hs j (h.own i j a hi hj hne).2⟩⟩

variable [DecidableEq ι]

theorem rules_addRule (h : s.Inv fun _ => False) :
    (s.addRule i hv).rules j = if j = i then (some (s.own i ++ [hv]), s.cnt i + 1)
      else s.rules j := by
  unfold addRule own rules
  cases hi : s.headers i with
  | none =>
    by_cases hj : j = i
    · simp [hj]
    · cases hb : s.headers j with
      | none => simp [hj, hb]
      | some b => simp [hj, hb, (h.created j b hb).ne]
  | some a =>
    by_cases hj : j = i
    · simp [hj, hi]
    · cases hb : s.headers j with
      | none => simp [hj]
      | some b =>
        have hne : b ≠ a := by
          rintro rfl
          exact (h.own i j b hi hb (Ne.symm hj)).1
        simp [hj, hne]

theorem addRule_inv (h : s.Inv fun _ => False) (hid : hv.id = s.cnt i) :
    (s.addRule i hv).Inv fun _ => False := by
  have hn := h.numbered i
  refine ⟨fun j => ?_, fun j a ha => ?_, fun j k a hj hk hne => ?_⟩
  · rw [rules_addRule h]
    split
    · have hcnt : s.cnt i = (s.own i).length := hn.2
      have hids : (s.own i).map HeaderVal.id = List.range (s.own i).length := hn.1
      simp [Numbered, hids, hid, hcnt, List.range_succ]
    · exact h.numbered j
  · unfold addRule at ha ⊢
    cases hi : s.headers i with
    | none =>
      simp only [hi] at ha ⊢
      rcases eq_or_ne j i with rfl | hj
      · simp at ha
        omega
      · rw [Function.update_of_ne hj] at ha
        exact Nat.lt_succ_of_lt (h.created j a ha)
    | some b =>
      simp only [hi] at ha ⊢
      exact h.created j a ha
  · unfold addRule at hj hk
    cases hi : s.headers i with
    | none =>
      simp only [hi] at hj hk
      rcases eq_or_ne j i with rfl | hji
      · rw [Function.update_of_ne (Ne.symm hne)] at hk
        simp at hj
        exact absurd (h.created k a hk) (by omega)
      · rw [Function.update_of_ne hji] at hj
        rcases eq_or_ne k i with rfl | hki
        · simp at hk
          exact absurd (h.created j a hj) (by omega)
        · rw [Function.update_of_ne hki] at hk
          exact h.own j k a hj hk hne
    | some b =>
      simp only [hi] at hj hk
      exact h.own j k a hj hk hne

theorem rules_mergeLocConf (h : s.Inv settled) (hprev : settled prev) (hconf : ¬ settled conf) :
    (s.mergeLocConf intTLen prev conf).rules j =
      if j = conf then mergeRules intTLen (s.rules conf) (s.rules prev) else s.rules j := by
  have hne : prev ≠ conf := by
    rintro rfl
    exact hconf hprev
  unfold mergeLocConf rules
  cases ha : s.headers conf with
  | none => by_cases hj : j = conf <;> simp [hj, mergeRules]
  | some a =>
    cases hc : s.arrays a with
    | nil => by_cases hj : j = conf <;> simp [hj, hc, mergeRules]
    | cons x xs =>
      cases hb : s.headers prev with
      | none => by_cases hj : j = conf <;> simp [hj, ha, hc, mergeRules]
      | some b =>
        cases hd : s.arrays b with
        | nil => by_cases hj : j = conf <;> simp [hj, ha, hc, hd, mergeRules]
        | cons y ys =>
          by_cases hj : j = conf
          · simp [hj, ha, hc, hd, mergeRules]
          · have hother : s.headers j ≠ some a := fun he =>
              hconf (h.own conf j a ha he (Ne.symm hj)).1
            cases he : s.headers j with
            | none => simp [hj, hc, hd, he]
            | some e =>
              have : e ≠ a := by
                rintro rfl
                exact hother he
              simp [hj, hc, hd, he, this]

theorem headers_mergeLocConf (s : Side ι η ο) (intTLen : ℕ) (prev conf : ι) :
    (s.mergeLocConf intTLen prev conf).created = s.created ∧
      ((s.mergeLocConf intTLen prev conf).headers = s.headers ∨
        (s.mergeLocConf intTLen prev conf).headers =
          Function.update s.headers conf (s.headers prev)) := by
  unfold mergeLocConf
  split
  · exact ⟨rfl, Or.inr rfl⟩
  · dsimp only
    split_ifs
    · exact ⟨rfl, Or.inr rfl⟩
    · split
      · exact ⟨rfl, Or.inl rfl⟩
      · split_ifs <;> exact ⟨rfl, Or.inl rfl⟩

theorem mergeLocConf_inv (h : s.Inv settled) (hprev : settled prev) (hconf : ¬ settled conf) :
    (s.mergeLocConf intTLen prev conf).Inv fun i => i = conf ∨ settled i := by
  obtain ⟨hcreated, hheaders⟩ := headers_mergeLocConf s intTLen prev conf
  have hnumbered : ∀ j, Numbered ((s.mergeLocConf intTLen prev conf).rules j) := by
    intro j
    rw [rules_mergeLocConf h hprev hconf]
    split
    · exact numbered_mergeRules (h.numbered conf) (h.numbered prev)
    · exact h.numbered j
  rcases hheaders with he | he
  · refine ⟨hnumbered, fun j a ha => ?_, fun j k a hj hk hne => ?_⟩
    · rw [he] at ha
      exact hcreated ▸ h.created j a ha
    · rw [he] at hj hk
      obtain ⟨hsj, hsk⟩ := h.own j k a hj hk hne
      exact ⟨Or.inr hsj, Or.inr hsk⟩
  · have hown : ∀ j a, Function.update s.headers conf (s.headers prev) j = some a →
        ∃ k, s.headers k = some a ∧ (j = conf ∧ k = prev ∨ k = j) := by
      intro j a ha
      rcases eq_or_ne j conf with rfl | hj
      · exact ⟨prev, by simpa using ha, Or.inl ⟨rfl, rfl⟩⟩
      · exact ⟨j, by rwa [Function.update_of_ne hj] at ha, Or.inr rfl⟩
    refine ⟨hnumbered, fun j a ha => ?_, fun j k a hj hk hne => ?_⟩
    · rw [he] at ha
      obtain ⟨k, hk, -⟩ := hown j a ha
      exact hcreated ▸ h.created k a hk
    · rw [he] at hj hk
      -- a location other than the child that shares the array was settled before
      have hsettled : ∀ x y, Function.update s.headers conf (s.headers prev) x = some a →
          Function.update s.headers conf (s.headers prev) y = some a → x ≠ y →
          x = conf ∨ settled x := by
        intro x y hx hy hxy
        by_contra hcon
        obtain ⟨hxc, hxs⟩ := not_or.mp hcon
        rw [Function.update_of_ne hxc] at hx
        obtain ⟨m, hm, ⟨-, hmp⟩ | rfl⟩ := hown y a hy
        · exact hxs (h.own x m a hx hm (by rintro rfl; exact hxs (hmp ▸ hprev))).1
        · exact hxs (h.own x m a hx hm hxy).1
      exact ⟨hsettled j k hj hk hne, hsettled k j hk hj hne.symm⟩

end Side

section Runs

variable {compiles : Str → Bool} {tableIn : SetHandlers ηi οi} {tableOut : SetHandlers ηo οo}
  {parent : ι → Option ι} {merged : List ι} {intTLen : ℕ} {i p : ι} {path path' : List ι}
  {c c' : Cycle ι ηi οi ηo οo} {s₀ s : Side ι η ο}

theorem Lineage.unique (h : Lineage parent i path) (h' : Lineage parent i path') :
    path = path' := by
  induction h generalizing path' with
  | root hr =>
    cases h' with
    | root => rfl
    | child hc => rw [hr] at hc; cases hc
  | child hc _ ih =>
    cases h' with
    | root hr => rw [hc] at hr; cases hr
    | child hc' h' =>
      obtain rfl := Option.some.inj (hc.symm.trans hc')
      rw [ih h']

theorem Lineage.inherited_cons (h : Lineage parent p path) (i : ι) :
    inherited intTLen s₀ (i :: path) =
      mergeRules intTLen (s₀.rules i) (inherited intTLen s₀ path) := by
  cases h <;> rfl

variable [DecidableEq ι]

/-- How a side stands during the merge of the tree that was parsed as `s₀`. -/
structure Side.Merged (intTLen : ℕ) (parent : ι → Option ι) (s₀ s : Side ι η ο)
    (merged : List ι) : Prop where
  inv : s.Inv (Settled parent merged)
  settled : ∀ i, Settled parent merged i →
    ∃ path, Lineage parent i path ∧ s.rules i = inherited intTLen s₀ path
  rest : ∀ i, ¬ Settled parent merged i → s.rules i = s₀.rules i

omit [DecidableEq ι] in
theorem Side.Merged.initial (h : s₀.Inv fun _ => False) : s₀.Merged intTLen parent s₀ [] where
  inv := h.mono fun _ => False.elim
  settled := fun i hi => ⟨[i], .root (hi.resolve_right (by simp)), rfl⟩
  rest := fun _ _ => rfl

omit [DecidableEq ι] in
theorem settled_cons {conf : ι} :
    Settled parent (conf :: merged) i ↔ i = conf ∨ Settled parent merged i := by
  simp only [Settled, List.mem_cons]
  tauto

theorem Side.Merged.step {prev conf : ι} (h : s₀.Merged intTLen parent s merged)
    (hp : parent conf = some prev) (hprev : Settled parent merged prev) (hconf : conf ∉ merged) :
    s₀.Merged intTLen parent (s.mergeLocConf intTLen prev conf) (conf :: merged) := by
  have hopen : ¬ Settled parent merged conf := by
    rintro (hn | hm)
    · rw [hp] at hn
      cases hn
    · exact hconf hm
  refine ⟨(mergeLocConf_inv h.inv hprev hopen).mono fun i => settled_cons.mpr, fun i hi => ?_,
    fun i hi => ?_⟩
  · rw [rules_mergeLocConf h.inv hprev hopen]
    split
    · subst i
      obtain ⟨path, hpath, he⟩ := h.settled prev hprev
      exact ⟨conf :: path, .child hp hpath, by rw [hpath.inherited_cons, he, h.rest conf hopen]⟩
    · rename_i hne
      exact h.settled i ((settled_cons.mp hi).resolve_left hne)
  · obtain ⟨hne, hi⟩ := not_or.mp (mt settled_cons.mpr hi)
    rw [rules_mergeLocConf h.inv hprev hopen, if_neg hne]
    exact h.rest i hi

theorem inv_of_parsed
    (h : Relation.ReflTransGen (Cycle.Directive compiles tableIn tableOut) .initial c) :
    c.input.Inv (fun _ => False) ∧ c.output.Inv (fun _ => False) := by
  induction h with
  | refl => exact ⟨Side.initial_inv, Side.initial_inv⟩
  | tail _ hd ih =>
    cases hd with
    | input hp => exact ⟨Side.addRule_inv ih.1 (parseDirective_eq_ok hp).1, ih.2⟩
    | output hp => exact ⟨ih.1, Side.addRule_inv ih.2 (parseDirective_eq_ok hp).1⟩

/-- Any run of merges leaves the settled locations with what their lineage gives them. -/
theorem merged_of_run {c₀ : Cycle ι ηi οi ηo οo} (hi : c₀.input.Inv fun _ => False)
    (ho : c₀.output.Inv fun _ => False) {m : Cycle ι ηi οi ηo οo × List ι}
    (h : Relation.ReflTransGen (Merge intTLen parent) (c₀, []) m) :
    c₀.input.Merged intTLen parent m.1.input m.2 ∧
      c₀.output.Merged intTLen parent m.1.output m.2 := by
  induction h with
  | refl => exact ⟨.initial hi, .initial ho⟩
  | tail _ hs ih =>
    cases hs with
    | merge hp hprev hconf => exact ⟨ih.1.step hp hprev hconf, ih.2.step hp hprev hconf⟩

/-- Every rule has a bit of its own in the bitmap that the stored count allocates. -/
structure OwnBits (intTLen : ℕ) (r : Rules η ο) : Prop where
  ids : ∀ arr, r.1 = some arr → arr.map HeaderVal.id = List.range arr.length ∧ r.2 = arr.length
  inside : ∀ arr, r.1 = some arr →
    ∃ words, (bitmapInit intTLen r.2 pcallocWords).bits = some words ∧
      ∀ h ∈ arr, h.id / intTLen < words.length
  distinct : ∀ arr, r.1 = some arr → arr.Pairwise fun h h' =>
    h.id / intTLen ≠ h'.id / intTLen ∨ mask intTLen h.id &&& mask intTLen h'.id = 0

omit [DecidableEq ι] in
theorem Numbered.ownBits {r : Rules η ο} (hT : 1 ≤ intTLen) (hT' : intTLen ≤ 64)
    (h : Numbered r) : OwnBits intTLen r := by
  have hids : ∀ arr, r.1 = some arr →
      arr.map HeaderVal.id = List.range arr.length ∧ r.2 = arr.length := by
    intro arr ha
    simpa [Numbered, ha] using h
  refine ⟨hids, fun arr ha => ⟨_, rfl, fun hv hm => ?_⟩, fun arr ha => ?_⟩
  · rw [List.length_replicate, (hids arr ha).2]
    exact word_lt hT (id_lt (hids arr ha).1 hm)
  · have hnodup : (arr.map HeaderVal.id).Nodup := (hids arr ha).1 ▸ List.nodup_range
    refine (List.pairwise_map.mp hnodup).imp fun {hv hv'} hne => ?_
    by_cases hd : hv.id / intTLen = hv'.id / intTLen
    · refine Or.inr ((mask_and_mask hT hT').mpr fun hm => hne ?_)
      rw [← Nat.div_add_mod hv.id intTLen, hd, hm, Nat.div_add_mod]
    · exact Or.inl hd

/--
At every point of the merge of every accepted tree and on both sides, ids are indices and each
rule has its own bit inside the allocated words, for any partition of words into at most their
width. Merging a child changes no other location, its parent included, and locations that are
merged in two runs are merged alike.
-/
theorem rule_ids_isolated (hT : 1 ≤ intTLen) (hT' : intTLen ≤ 64)
    {c₀ : Cycle ι ηi οi ηo οo}
    (hparse : Relation.ReflTransGen (Cycle.Directive compiles tableIn tableOut) .initial c₀)
    (hmerge : Relation.ReflTransGen (Merge intTLen parent) (c₀, []) (c, merged)) :
    (∀ i, OwnBits intTLen (c.input.rules i) ∧ OwnBits intTLen (c.output.rules i)) ∧
    (∀ prev conf c', parent conf = some prev →
      Merge intTLen parent (c, merged) (c', conf :: merged) →
      prev ≠ conf ∧ ∀ j ≠ conf, c'.input.rules j = c.input.rules j ∧
        c'.output.rules j = c.output.rules j) ∧
    ∀ c' merged', Relation.ReflTransGen (Merge intTLen parent) (c₀, []) (c', merged') →
      ∀ i, Settled parent merged i → Settled parent merged' i →
        c'.input.rules i = c.input.rules i ∧ c'.output.rules i = c.output.rules i := by
  obtain ⟨hin, hout⟩ := inv_of_parsed hparse
  obtain ⟨hi, ho⟩ := merged_of_run hin hout hmerge
  refine ⟨fun i => ⟨(hi.inv.numbered i).ownBits hT hT', (ho.inv.numbered i).ownBits hT hT'⟩,
    fun prev conf c' hp hs => ?_, fun c' merged' hmerge' i hs hs' => ?_⟩
  · generalize hm : conf :: merged = m at hs
    cases hs with
    | @merge _ _ prev' conf' hp' hprev hconf =>
      obtain rfl : conf = conf' := (List.cons.inj hm).1
      obtain rfl : prev = prev' := Option.some.inj (hp.symm.trans hp')
      have hopen : ¬ Settled parent merged conf := not_or.mpr ⟨by simp [hp], hconf⟩
      refine ⟨?_, fun j hj => ⟨?_, ?_⟩⟩
      · rintro rfl
        exact hopen hprev
      · exact (Side.rules_mergeLocConf hi.inv hprev hopen).trans (if_neg hj)
      · exact (Side.rules_mergeLocConf ho.inv hprev hopen).trans (if_neg hj)
  · obtain ⟨hi', ho'⟩ := merged_of_run hin hout hmerge'
    obtain ⟨path, hpath, he⟩ := hi.settled i hs
    obtain ⟨path₁, hpath₁, he₁⟩ := ho.settled i hs
    obtain ⟨path₂, hpath₂, he₂⟩ := hi'.settled i hs'
    obtain ⟨path₃, hpath₃, he₃⟩ := ho'.settled i hs'
    rw [he, he₁, he₂, he₃, hpath.unique hpath₂, hpath₁.unique hpath₃]
    exact ⟨rfl, rfl⟩

end Runs

def plainSet (key : Str) : HeaderVal Unit Unit :=
  ⟨some (str "1" ++ [0]), hashKeyLc key, key, (), none, .set, none, false, false, 0, false⟩

def pairCycle : Cycle Bool Unit Unit Unit Unit :=
  { (Cycle.initial : Cycle Bool Unit Unit Unit Unit) with
    input := (Side.initial.addRule true (plainSet (str "A"))).addRule false (plainSet (str "B"))
    requiresHandler := true }

/-- The merged location has both rules, its own first, each with its own bit. -/
theorem rule_ids_isolated_pair :
    OwnBits 20 ((pairCycle.mergeLocConf 20 true false).input.rules false) ∧
      ((pairCycle.mergeLocConf 20 true false).input.own false).map HeaderVal.key =
        [str "B", str "A"] := by
  have hset : ∀ key ∈ [str "A", str "B"], parseDirective (fun _ => true)
      (⟨[], ()⟩ : SetHandlers Unit Unit) 0 [str "set", key, str "1"] = .ok (plainSet key) := by
    simp only [List.forall_mem_cons]
    exact ⟨rfl, rfl, by simp⟩
  have hparse : Relation.ReflTransGen
      (Cycle.Directive (fun _ => true) (⟨[], ()⟩ : SetHandlers Unit Unit) ⟨[], ()⟩)
      Cycle.initial pairCycle :=
    (Relation.ReflTransGen.single (.input (i := true) (hset (str "A") (by simp)))).tail
      (.input (i := false) (hset (str "B") (by simp)))
  have hmerge : Relation.ReflTransGen (Merge 20 fun i => if i then none else some true)
      (pairCycle, []) (pairCycle.mergeLocConf 20 true false, [false]) :=
    .single (.merge rfl (Or.inl rfl) (by simp))
  exact ⟨((rule_ids_isolated (by decide) (by decide) hparse hmerge).1 false).1, by decide⟩

end HeadersControl
