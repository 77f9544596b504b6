import HeadersControl.Response.CacheControl

/-! # The values of a name in a response

What is sent under a name is a list of values. Where the typed pointers designate
the entries of their names, and every visible entry of such a name, a rule acts on
the values of each name that it matches, and on no others.
-/

namespace HeadersControl

open Segments Segments.Shape Response

def HeaderVal.revalue {η ο : Type} (hv : HeaderVal η ο) (value : Str) (vs : List Str) : List Str :=
  match hv.opcode with
  | .set => if value = [] then [] else [value]
  | .clear => []
  | .add => if value = [] ∨ vs ≠ [] then vs else [value]
  | .rewrite => if value = [] ∨ vs = [] then [] else [value]
  | .append => if value = [] then vs else vs ++ [value]
  | .pass => vs

def HeaderVal.onValues {η ο : Type} (hv : HeaderVal η ο) (value : Str) (values : Str → List Str) :
    Str → List Str :=
  fun name => if hv.matchesName name then hv.revalue value (values name) else values name

def namedValues (name : Str) (es : List (Str × Str)) : List Str :=
  (es.filter fun e => sameName e.1 name).map Prod.snd

section Values

variable {η ο : Type} {hv : HeaderVal η ο} {value name : Str} {es : List (Str × Str)}

theorem namedValues_append (es es' : List (Str × Str)) :
    namedValues name (es ++ es') = namedValues name es ++ namedValues name es' := by
  simp [namedValues]

theorem namedValues_eq_nil :
    namedValues name es = [] ↔ (es.any fun e => sameName e.1 name) = false := by
  simp [namedValues, List.filter_eq_nil_iff]

theorem namedValues_congr {es' : List (Str × Str)} (h : hv.matchesName name = false)
    (hes : es'.filter (fun e => !hv.matchesName e.1) = es.filter fun e => !hv.matchesName e.1) :
    namedValues name es' = namedValues name es := by
  have hfilter : ∀ es : List (Str × Str), (es.filter fun e => sameName e.1 name) =
      (es.filter fun e => !hv.matchesName e.1).filter fun e => sameName e.1 name := by
    intro es
    rw [List.filter_filter]
    apply List.filter_congr
    intro e _
    cases hs : sameName e.1 name with
    | false => rfl
    | true => rw [matchesName_congr hs, h]; rfl
  rw [namedValues, hfilter, hes, ← hfilter, namedValues]

theorem namedValues_keepFirst : namedValues name (keepFirst (sameName · name) value es) =
    if namedValues name es = [] then [] else [value] := by
  induction es with
  | nil => rfl
  | cons e es ih =>
    cases he : sameName e.1 name with
    | true => simp [namedValues, keepFirst, he]
    | false =>
      have hskip : ∀ es : List (Str × Str), namedValues name (e :: es) = namedValues name es :=
        fun es => by simp [namedValues, he]
      rw [keepFirst, if_neg (by simp [he]), hskip, hskip, ih]

theorem namedValues_filter_not :
    namedValues name (es.filter fun e => !sameName e.1 name) = [] := by
  simp [namedValues_eq_nil]

theorem namedValues_operateVisible (hwild : hv.wildcard = true → hv.opcode = .clear)
    (hm : hv.matchesName name = true) :
    namedValues name (hv.operateVisible value es) = hv.revalue value (namedValues name es) := by
  cases hw : hv.wildcard with
  | true =>
    have hgone : namedValues name (es.filter fun e => !hv.matchesName e.1) = [] := by
      rw [namedValues_eq_nil, List.any_eq_false]
      intro e he
      have hmiss := (List.mem_filter.mp he).2
      cases hs : sameName e.1 name with
      | false => simp
      | true => simp [matchesName_congr hs, hm] at hmiss
    simp [HeaderVal.operateVisible, HeaderVal.operate, HeaderVal.revalue, hwild hw, hgone]
  | false =>
    have hname : sameName hv.key name = true := by rwa [matchesName_exact hw, sameName_comm] at hm
    have hfun : hv.matchesName = (sameName · name) := by
      funext n
      rw [matchesName_exact hw, sameName_comm, sameName_congr hname, sameName_comm]
    have hself : ∀ v, namedValues name [(hv.key, v)] = [v] := fun v => by
      simp [namedValues, hname]
    have hany : (es.any fun e => sameName e.1 name) = decide (namedValues name es ≠ []) := by
      rw [Bool.eq_iff_iff, decide_eq_true_eq, ne_eq, namedValues_eq_nil, Bool.not_eq_false]
    unfold HeaderVal.operateVisible HeaderVal.operate HeaderVal.revalue
    rw [hfun, hany]
    by_cases hv₀ : value = [] <;> by_cases hes : namedValues name es = [] <;>
      cases hv.opcode <;>
        simp [hv₀, hes, hself, namedValues_append, namedValues_keepFirst, namedValues_filter_not]

theorem namedValues_operateVisible_other (hm : hv.matchesName name = false) :
    namedValues name (hv.operateVisible value es) = namedValues name es := by
  apply namedValues_congr hm
  unfold HeaderVal.operateVisible
  split
  · rfl
  · exact operate_frame es

end Values

/-- The typed pointers that designate the one visible entry of their name. -/
def OutField.Single (f : OutField) : Prop := f ≠ .cacheControl ∧ f ≠ .etag

instance (f : OutField) : Decidable f.Single := inferInstanceAs (Decidable (_ ∧ _))

namespace Response

structure Tidy (s : Response) : Prop where
  cache : s.CacheChain
  typed : ∀ f h, f.Single → s.ptr f = some h → sameName (s.cell h).key f.nginxName = true
  single : ∀ f, f.Single → ∀ h ∈ s.named f.nginxName, s.ptr f = some h
  location : s.LocationShown

variable {s s' : Response} {hv : OutVal} {value name : Str} {f g : OutField}
  {out : Option OutField} {h : ℕ} {noCreate : Bool}

theorem Tidy.mem (ht : s.Tidy) (hf : f.Single) (hp : s.ptr f = some h) :
    h ∈ s.shape.slots () :=
  (ht.cache.apart f h hf.1 hp).1

section Frame

/-- Entries of the name are written, and entries of the name are added. -/
structure Writes (name : Str) (s s' : Response) : Prop where
  slots : ∃ new, s'.shape.slots () = s.shape.slots () ++ new ∧
    ∀ a ∈ new, sameName (s'.cell a).key name = true
  other : ∀ h ∈ s.shape.slots (), sameName (s.cell h).key name = false → s'.cell h = s.cell h
  same : ∀ h ∈ s.shape.slots (), sameName (s.cell h).key name = true →
    sameName (s'.cell h).key name = true

theorem named_congr {name' : Str} (hn : sameName name name' = true) :
    s.named name = s.named name' := by
  unfold Response.named
  apply List.filter_congr
  intro h _
  rw [sameName_comm, sameName_congr hn, sameName_comm]

theorem sameName_trans_false {a b c : Str} (hab : sameName a b = true)
    (hbc : sameName b c = false) : sameName a c = false := by
  rw [sameName_congr hab, hbc]

theorem Writes.named (hw : Writes name s s') {name' : Str} (hne : sameName name name' = false) :
    s'.named name' = s.named name' ∧ ∀ h ∈ s.named name', s'.cell h = s.cell h := by
  have hmiss : ∀ h, sameName (s.cell h).key name' = true → sameName (s.cell h).key name = false := by
    intro h hn
    rw [← Bool.not_eq_true]
    intro hn'
    rw [sameName_congr hn', hne] at hn
    cases hn
  obtain ⟨new, hslots, hnew⟩ := hw.slots
  constructor
  · rw [Response.named, hslots, List.filter_append, Response.named]
    have hnone : (new.filter fun h => s'.shown h && sameName (s'.cell h).key name') = [] := by
      rw [List.filter_eq_nil_iff]
      intro a ha
      simp [sameName_trans_false (hnew a ha) hne]
    rw [hnone, List.append_nil]
    apply List.filter_congr
    intro h hh
    cases hn : sameName (s.cell h).key name with
    | false => rw [Response.shown, hw.other h hh hn, ← Response.shown]
    | true =>
      rw [sameName_trans_false hn hne, sameName_trans_false (hw.same h hh hn) hne]
      simp
  · intro h hh
    obtain ⟨hm, -, hn⟩ := mem_named.mp hh
    exact hw.other h hm (hmiss h hn)

theorem Writes.valuesOf (hw : Writes name s s') {name' : Str} (hne : sameName name name' = false) :
    s'.valuesOf name' = s.valuesOf name' := by
  obtain ⟨hnamed, hcell⟩ := hw.named hne
  rw [valuesOf_eq, valuesOf_eq, hnamed]
  apply List.map_congr_left
  intro h hh
  rw [hcell h hh]

theorem Tidy.writes (ht : s.Tidy) (hw : Writes name s s') (hcache : s'.CacheChain)
    (hptr : ∀ g, sameName name g.nginxName = false → s'.ptr g = s.ptr g)
    (hself : ∀ g, g.Single → sameName name g.nginxName = true →
      (∀ h, s'.ptr g = some h → sameName (s'.cell h).key g.nginxName = true) ∧
        ∀ h ∈ s'.named g.nginxName, s'.ptr g = some h)
    (hloc : sameName name (str "Location") = true → s'.LocationShown) : s'.Tidy := by
  have hcell : ∀ g h, g.Single → sameName name g.nginxName = false → s.ptr g = some h →
      s'.cell h = s.cell h := by
    intro g h hg hne hp
    refine hw.other h (ht.mem hg hp) ?_
    rw [sameName_congr (ht.typed g h hg hp), sameName_comm, hne]
  refine ⟨hcache, ?_, ?_, ?_⟩
  · intro g h hg hp
    cases hn : sameName name g.nginxName with
    | true => exact (hself g hg hn).1 h hp
    | false =>
      rw [hptr g hn] at hp
      rw [hcell g h hg hn hp]
      exact ht.typed g h hg hp
  · intro g hg h hh
    cases hn : sameName name g.nginxName with
    | true => exact (hself g hg hn).2 h hh
    | false =>
      rw [(hw.named hn).1] at hh
      rw [hptr g hn]
      exact ht.single g hg h hh
  · cases hn : sameName name (str "Location") with
    | true => exact hloc hn
    | false =>
      intro h _ hp hpath
      have hsingle : OutField.Single .location := by decide
      rw [hptr .location hn] at hp
      rw [hcell .location h hsingle hn hp] at hpath
      rw [Response.shown, hcell .location h hsingle hn hp]
      exact ht.location h (ht.mem hsingle hp) hp hpath

end Frame

section Repair

theorem named_repairLocation (ht : s.Tidy) : s.repairLocation.named name = s.named name := by
  unfold Response.named
  rw [shape_repairLocation]
  apply List.filter_congr
  intro h hh
  rw [shown_repairLocation ht.location hh]
  rcases s.cell_repairLocation h with hc | ⟨hp, -, hc⟩
  · rw [hc]
  · have hname := ht.typed .location h (by decide) hp
    rw [hc, sameName_congr hname]
    rfl

theorem valuesOf_repairLocation (ht : s.Tidy) : s.repairLocation.valuesOf = s.valuesOf := by
  funext name
  rw [valuesOf_eq, valuesOf_eq, named_repairLocation ht]
  apply List.map_congr_left
  intro h _
  rw [value_repairLocation]

theorem tidy_repairLocation (ht : s.Tidy) : s.repairLocation.Tidy where
  cache := cacheChain_repairLocation ht.cache
  typed := by
    intro f h hf hp
    rw [ptr_repairLocation] at hp
    have hname := ht.typed f h hf hp
    rcases s.cell_repairLocation h with hc | ⟨hl, -, hc⟩
    · rwa [hc]
    · rw [hc]
      have hloc := ht.typed .location h (by decide) hl
      rwa [sameName_congr hloc] at hname
  single := by
    intro f hf h hh
    rw [ptr_repairLocation]
    rw [named_repairLocation ht] at hh
    exact ht.single f hf h hh
  location := locationShown_repairLocation ht.location

end Repair

section Outcome

theorem Outcome.grows (ho : Outcome hv value out noCreate s s') :
    s.shape.pool.Grows s'.shape.pool := by
  cases ho with
  | unchanged => exact Pool.Grows.refl _
  | swept => exact Pool.Grows.refl _
  | created _ _ hg => simpa using hg

theorem Outcome.writes (hw : hv.wildcard = false) (ho : Outcome hv value out noCreate s s') :
    Writes hv.key s s' := by
  have hmiss : ∀ h, sameName (s.cell h).key hv.key = false → s.hits hv h = false := fun h hn => by
    rw [hits, matchesName_exact hw, hn, Bool.and_false]
  refine ⟨?_, fun h hh hn => (ho.untouched hh (hmiss h hn)).2, ?_⟩
  · cases ho with
    | unchanged => exact ⟨[], (List.append_nil _).symm, by simp⟩
    | swept => exact ⟨[], (List.append_nil _).symm, by simp⟩
    | @created a sh _ _ _ hslots =>
      refine ⟨[a], by simpa using hslots, ?_⟩
      simp [newElt]
  · intro h hh hn
    cases ho with
    | unchanged => exact hn
    | swept => rwa [key_sweep]
    | @created a sh _ _ _ _ ha =>
      have hne : h ≠ a := by
        rintro rfl
        exact ha hh
      simpa [hne] using hn

theorem Outcome.ptr_other (hout : out ≠ some f) (ho : Outcome hv value out noCreate s s') :
    s'.ptr f = s.ptr f := by
  cases ho with
  | unchanged => rfl
  | swept => exact ptr_sweep_of_ne hout
  | created => exact ptr_store_of_ne hout _

theorem named_sweep_subset {keep : Option ℕ}
    (hh : h ∈ (s.sweep hv value keep ((s.shape.slots ()).filter (s.hits hv)) out).named name) :
    h ∈ s.named name := by
  obtain ⟨hm, hsh, hn⟩ := mem_named.mp hh
  rw [key_sweep] at hn
  refine mem_named.mpr ⟨hm, ?_, hn⟩
  cases hit : s.hits hv _ with
  | true => exact decide_eq_true (hits_eq_true hit).1
  | false => rwa [Response.shown, cell_sweep_miss hit] at hsh

theorem Outcome.tidy_wildcard (hw : hv.wildcard = true) (hop : hv.opcode = .clear)
    (ht : s.Tidy) (ho : Outcome hv [] none noCreate s s') : s'.Tidy := by
  have hloc := ho.locationShown (Or.inr ⟨hw, hop⟩) (fun _ => rfl) ht.location
  obtain rfl := ho.of_stop (by simp [hw]) (by simp [hop]) (by simp [hop])
  refine ⟨cacheChain_sweep ht.cache _ _, ?_, ?_, hloc⟩
  · intro f h hf hp
    rw [key_sweep]
    exact ht.typed f h hf hp
  · intro f hf h hh
    exact ht.single f hf h (named_sweep_subset hh)

theorem Outcome.valuesOf_eq (hreg : hv.Regular) (hclear : hv.opcode = .clear → value = [])
    (hpass : hv.opcode ≠ .pass) (hwf : s.shape.WellFormed ())
    (ho : Outcome hv value out noCreate s s') : s'.valuesOf = hv.onValues value s.valuesOf := by
  funext name
  have hwild : hv.wildcard = true → hv.opcode = .clear := fun hw => by
    rcases hreg with ⟨hexact, -⟩ | ⟨-, hop⟩
    · cases hexact.symm.trans hw
    · exact hop
  have hvis : s'.valuesOf name = namedValues name (hv.operateVisible value s.visible) := by
    rw [← ho.visible_eq hreg hclear hpass hwf.nodup_slots]
    rfl
  rw [hvis]
  unfold HeaderVal.onValues
  split
  · exact namedValues_operateVisible hwild ‹_›
  · exact namedValues_operateVisible_other (Bool.eq_false_iff.mpr ‹_›)

end Outcome

section Builtin

theorem single_ne_cacheControl : ∀ f : OutField, f.Single →
    sameName (str "Cache-Control") f.nginxName = false := by
  intro f
  cases f <;> decide

theorem nginxName_inj (h : sameName f.nginxName g.nginxName = true) : f = g := by
  revert h
  cases f <;> cases g <;> decide

theorem matchesName_field (hw : hv.wildcard = false) (hname : sameName hv.key f.nginxName = true) :
    hv.matchesName name = sameName f.nginxName name := by
  rw [matchesName_exact hw, sameName_comm, sameName_congr hname]

variable (ht : s.Tidy) (hf : f.Single) (hw : hv.wildcard = false)
  (hname : sameName hv.key f.nginxName = true) (hhash : hv.hash ≠ 0)
include ht hf hw hname hhash

/-- Where the typed pointer is set, its entry is the only one of the name that can be visible. -/
theorem write_step (hp : s.ptr f = some h) (hop : hv.opcode = .set ∨ hv.opcode = .clear)
    (hclear : hv.opcode = .clear → value = []) {e : TableElt}
    (he : e = if value = [] then { s.cell h with hash := 0, value }
      else { s.cell h with hash := hv.hash, key := hv.key, value }) :
    (s.setCell h e).Tidy ∧ (s.setCell h e).valuesOf = hv.onValues value s.valuesOf := by
  have hm := ht.mem hf hp
  have htyped := ht.typed f h hf hp
  have hkey : sameName e.key f.nginxName = true := by
    rw [he]
    split
    · exact htyped
    · exact hname
  have hval : e.value = value := by
    rw [he]
    split <;> rfl
  have hhid : value = [] → e.hash = 0 := fun hv₀ => by rw [he, if_pos hv₀]
  have hshown : value ≠ [] → e.hash ≠ 0 := fun hv₀ => by
    rw [he, if_neg hv₀]
    exact hhash
  have hwrites : Writes f.nginxName s (s.setCell h e) := by
    refine ⟨⟨[], (List.append_nil _).symm, by simp⟩, fun x _ hn => ?_, fun x _ hn => ?_⟩
    · have hne : x ≠ h := by
        rintro rfl
        rw [htyped] at hn
        cases hn
      simp [hne]
    · by_cases hx : x = h
      · subst hx
        simpa using hkey
      · simpa [hx] using hn
  have hone : ∀ x ∈ s.named f.nginxName, x = h := fun x hx =>
    Option.some.inj ((ht.single f hf x hx).symm.trans hp)
  have hnamed : ∀ x ∈ (s.setCell h e).named f.nginxName, x = h := by
    intro x hx
    by_cases hv₀ : value = []
    · exact hone x ((named_setCell_hidden (hhid hv₀) x).mp hx).2
    · rcases (named_setCell_shown hm (hshown hv₀) hkey x).mp hx with rfl | hx
      · rfl
      · exact hone x hx
  have hcache : (s.setCell h e).CacheChain := by
    have hsp := spares_setCell ht.cache.apart hf.1 hp (e := e) (by
      rw [sameName_congr hkey, sameName_comm]
      exact single_ne_cacheControl f hf)
    exact ⟨ht.cache.wellFormed, hsp.chain ht.cache.chain, hsp.apart⟩
  refine ⟨ht.writes hwrites hcache (fun _ _ => rfl) ?_ ?_, funext fun name => ?_⟩
  · intro g _ hg
    obtain rfl := nginxName_inj hg
    refine ⟨fun x hx => ?_, fun x hx => ?_⟩
    · obtain rfl : h = x := Option.some.inj (hp.symm.trans hx)
      simpa using hkey
    · rw [hnamed x hx]
      exact hp
  · intro hloc x _ hx hpath
    obtain rfl : f = .location := nginxName_inj hloc
    obtain rfl : h = x := Option.some.inj (hp.symm.trans hx)
    have hv₀ : value ≠ [] := by
      rintro rfl
      simp [hval] at hpath
    simpa [Response.shown] using hshown hv₀
  · rw [HeaderVal.onValues, matchesName_field hw hname]
    cases hn : sameName f.nginxName name with
    | false => exact hwrites.valuesOf hn
    | true =>
      rw [if_pos rfl]
      have hname' : ∀ t : Response, t.named name = t.named f.nginxName := fun t =>
        (named_congr hn).symm
      by_cases hv₀ : value = []
      · have hrevalue : hv.revalue value (s.valuesOf name) = [] := by
          rcases hop with hop | hop <;> simp [HeaderVal.revalue, hop, hv₀]
        rw [hrevalue, valuesOf_eq_nil, hname', List.eq_nil_iff_forall_not_mem]
        intro x hx
        obtain ⟨hne, hx⟩ := (named_setCell_hidden (hhid hv₀) x).mp hx
        exact hne (hone x hx)
      · have hset : hv.opcode = .set := hop.resolve_right fun hc => hv₀ (hclear hc)
        have hrevalue : hv.revalue value (s.valuesOf name) = [value] := by
          simp [HeaderVal.revalue, hset, hv₀]
        have hiff := valuesOf_setCell_iff ht.cache.wellFormed hm (hshown hv₀)
          ((sameName_congr hkey name).trans hn)
        rw [hrevalue, ← hval, hiff, hname']
        exact hone

theorem create_step (hp : s.ptr f = none) (hop : hv.opcode = .set ∨ hv.opcode = .clear)
    (hclear : hv.opcode = .clear → value = [])
    (ho : Outcome hv value (some f) false s.repairLocation s') :
    s'.Tidy ∧ s'.valuesOf = hv.onValues value s.valuesOf := by
  have ht₀ := tidy_repairLocation ht
  have hreg : hv.Regular := Or.inl ⟨hw, hhash⟩
  have hpass : hv.opcode ≠ .pass := by rcases hop with hop | hop <;> simp [hop]
  have hvalues : s'.valuesOf = hv.onValues value s.valuesOf := by
    rw [ho.valuesOf_eq hreg hclear hpass ht₀.cache.wellFormed, valuesOf_repairLocation ht]
  refine ⟨?_, hvalues⟩
  have hother : hv.matchesName (str "Cache-Control") = false := by
    rw [matchesName_field hw hname, sameName_comm]
    exact single_ne_cacheControl f hf
  have hout : some f ≠ some OutField.cacheControl := fun hc => hf.1 (Option.some.inj hc)
  have hsp := ho.spares hother hout ht₀.cache.apart
  have hcache : s'.CacheChain :=
    ⟨ho.wellFormed ht₀.cache.wellFormed, hsp.chain ht₀.cache.chain, hsp.apart⟩
  have hnone : s.repairLocation.named f.nginxName = [] := by
    rw [List.eq_nil_iff_forall_not_mem]
    intro x hx
    have hx := ht₀.single f hf x hx
    rw [ptr_repairLocation, hp] at hx
    cases hx
  have hno : (s.repairLocation.shape.slots ()).any (s.repairLocation.hits hv) = false := by
    rw [← Bool.not_eq_true, any_hits hw, named_congr hname, hnone]
    simp
  have hnew : ∃ a, s'.ptr f = some a ∧ s'.cell a = newElt hv value ∧
      ∀ x ∈ s'.named f.nginxName, x = a := by
    cases ho with
    | unchanged hu =>
      rcases hu with ⟨-, hany⟩ | ⟨-, -, hre | ⟨hstop, -⟩⟩
      · cases hno.symm.trans hany
      · rcases hop with hop | hop <;> cases hop.symm.trans hre
      · simp [hw] at hstop
    | swept _ _ hany => cases hno.symm.trans hany
    | @created a sh _ _ _ hslots ha =>
      refine ⟨a, by simp [store, setPtr], by simp, fun x hx => ?_⟩
      by_contra hne
      obtain ⟨hm, hsh, hn⟩ := mem_named.mp hx
      have hold : x ∈ s.repairLocation.named f.nginxName := by
        refine mem_named.mpr ⟨?_, ?_, ?_⟩
        · simpa [hslots, hne] using hm
        · simpa [Response.shown, hne] using hsh
        · simpa [hne] using hn
      rw [hnone] at hold
      cases hold
  obtain ⟨a, hptr, hcell, hnamed⟩ := hnew
  refine ht₀.writes (ho.writes hw) hcache (fun g hg => ho.ptr_other ?_) ?_ ?_
  · rintro ⟨⟩
    rw [hname] at hg
    cases hg
  · intro g _ hg
    rw [sameName_congr hname] at hg
    obtain rfl := nginxName_inj hg
    refine ⟨fun x hx => ?_, fun x hx => ?_⟩
    · obtain rfl : a = x := Option.some.inj (hptr.symm.trans hx)
      rw [hcell]
      exact hname
    · rw [hnamed x hx]
      exact hptr
  · intro hloc x _ hx hpath
    rw [sameName_congr hname] at hloc
    obtain rfl : f = .location := nginxName_inj hloc
    obtain rfl : a = x := Option.some.inj (hptr.symm.trans hx)
    rw [hcell] at hpath
    have hv₀ : value ≠ [] := by
      rintro rfl
      simp [newElt] at hpath
    simpa [Response.shown, hcell, newElt, hv₀] using hhash

end Builtin

end Response

end HeadersControl
