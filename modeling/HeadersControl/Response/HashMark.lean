import HeadersControl.Response.Presence

/-! # The hash as a mark

The helper writes the hash of the name of the rule into the entry that it sets,
and takes an entry whose hash is 0 for a deleted one. A name whose hash is 0
makes an entry that no later scan finds.
-/

namespace HeadersControl

open Segments Segments.Shape

theorem HeaderVal.Parsed.matchesName_congr {η ο : Type} {handlers : SetHandlers η ο}
    {hv hv' : HeaderVal η ο} (hp : hv.Parsed handlers) (hp' : hv'.Parsed handlers)
    (hkey : hv'.key = hv.key) : hv'.matchesName = hv.matchesName := by
  funext name
  simp only [HeaderVal.matchesName, hp.wildcard, hp'.wildcard, hkey]

namespace Response

variable {s s' : Response} {hv hv' : OutVal} {value : Str} {h : ℕ}

/-- The typed `Location` entry is in the list, under that name once the helper repaired it. -/
def LocationTyped (s : Response) : Prop :=
  ∀ h, s.ptr .location = some h →
    h ∈ s.shape.slots () ∧ sameName (s.repairLocation.cell h).key (str "Location") = true

def LocationKey (s : Response) : Prop :=
  ∀ h, s.ptr .location = some h →
    h ∈ s.shape.slots () ∧ sameName (s.cell h).key (str "Location") = true

theorem location_of_offset (hp : hv.Parsed setHandlersOut) (hoff : hv.offset = some .location) :
    sameName hv.key (str "Location") = true ∧ hv.wildcard = false := by
  have hbuiltin : hv.handler ≠ .setHeader := by
    rcases hp.cases with ⟨e, he, -, -, hhandler, -⟩ | ⟨-, -, ho⟩
    · rw [hhandler]
      exact builtin_entry e he
    · cases ho.symm.trans hoff
  obtain ⟨-, -, -, -, -, hw, -, -⟩ := hp.of_entry hbuiltin
  exact ⟨nginxName_of_offset hp hoff (by decide), hw⟩

structure Written (hv : OutVal) (value : Str) (s' : Response) (a : ℕ) : Prop where
  mem : a ∈ s'.shape.slots ()
  value : (s'.cell a).value = value
  hash : (s'.cell a).hash = hv.hash
  name : hv.matchesName (s'.cell a).key = true
  rest : ∀ b ∈ s'.shape.slots (), b ≠ a → s'.hits hv b = false

theorem Outcome.written {out : Option OutField} (hop : hv.opcode = .set) (hv₀ : value ≠ [])
    (ho : Outcome hv value out false s s') : ∃ a, Written hv value s' a := by
  cases ho with
  | unchanged hu =>
    rcases hu with ⟨hadd, -⟩ | ⟨-, -, hre | ⟨-, hnil⟩⟩
    · exact absurd (hop.symm.trans hadd) (by decide)
    · exact absurd (hop.symm.trans hre) (by decide)
    · exact absurd hnil hv₀
  | swept _ _ hany =>
    rw [if_neg hv₀]
    cases hfind : (s.shape.slots ()).find? (s.hits hv) with
    | none =>
      rw [List.any_eq_true] at hany
      obtain ⟨b, hb, hit⟩ := hany
      exact absurd hit (List.find?_eq_none.mp hfind b hb)
    | some a =>
      have hm := List.mem_of_find?_eq_some hfind
      have hit : s.hits hv a = true := List.find?_some hfind
      have hcell := cell_sweep_hit value out (some a) hm hit
      refine ⟨a, hm, ?_, ?_, ?_, fun b hb hne => ?_⟩
      rotate_right
      · rw [shape_sweep] at hb
        cases hb' : s.hits hv b with
        | true =>
          have hdead := cell_sweep_hit value out (some a) hb hb'
          simp [hits, Response.shown, hdead, mark, Ne.symm hne, TableElt.hide]
        | false => rw [hits, Response.shown, cell_sweep_miss hb', ← Response.shown, ← hits, hb']
      · simp [hcell, mark, TableElt.assign]
      · simp [hcell, mark, TableElt.assign]
      · rw [hcell, key_mark]
        exact (hits_eq_true hit).2
  | @created a sh hc _ _ hslots ha =>
    obtain ⟨hno, -⟩ := hc.resolve_left (by simp [hop])
    refine ⟨a, by simp [hslots], by simp [newElt], by simp [newElt, hv₀], ?_, fun b hb hne => ?_⟩
    · simp [newElt, hv.matchesName_self]
    · have hb' : b ∈ s.shape.slots () := by simpa [hslots, hne] using hb
      have hmiss : s.hits hv b = false := by
        rw [List.any_eq_false] at hno
        simpa using hno b hb'
      simpa [hits, Response.shown, hne] using hmiss

theorem Outcome.locationKey {out : Option OutField}
    (hout : out = some .location → sameName hv.key (str "Location") = true ∧ hv.wildcard = false)
    (hl : s.LocationKey) (ho : Outcome hv value out false s s') : s'.LocationKey := by
  intro h hptr
  cases ho with
  | unchanged => exact hl h hptr
  | swept =>
    rw [shape_sweep, key_sweep]
    by_cases hloc : out = some .location
    · subst hloc
      obtain ⟨hname, hw⟩ := hout rfl
      cases hlast : ((s.shape.slots ()).filter (s.hits hv)).getLast? with
      | none =>
        simp only [sweep, hlast] at hptr
        exact hl h hptr
      | some a =>
        obtain rfl : a = h := by simpa [sweep, hlast] using hptr
        obtain ⟨hm, hit⟩ := List.mem_filter.mp (List.mem_of_getLast? hlast)
        have hkey := (hits_eq_true hit).2
        rw [matchesName_exact hw] at hkey
        exact ⟨hm, (sameName_congr hkey _).trans hname⟩
    · rw [ptr_sweep_of_ne hloc] at hptr
      exact hl h hptr
  | @created a sh _ _ _ hslots ha =>
    rw [shape_store, cell_store, shape_setCell, shape_setShape, cell_setCell, cell_setShape, hslots]
    by_cases hloc : out = some .location
    · subst hloc
      obtain rfl : a = h := by simpa [store, setPtr] using hptr
      exact ⟨by simp, by simpa [newElt] using (hout rfl).1⟩
    · rw [ptr_store_of_ne hloc] at hptr
      obtain ⟨hm, hname⟩ := hl h hptr
      have hne : h ≠ a := by
        rintro rfl
        exact ha hm
      exact ⟨by simp [hm], by simpa [hne] using hname⟩

/-- A second scan finds the entry unless its hash is 0, also where it repairs `Location` first. -/
theorem Written.hits {a : ℕ} (hw : Written hv value s' a) (hl : s'.LocationKey)
    (hhash : hv.hash ≠ 0) : s'.repairLocation.hits hv a = true := by
  rw [Response.hits, Response.shown, Bool.and_eq_true, decide_eq_true_iff]
  rcases s'.cell_repairLocation a with hc | ⟨hptr, -, hc⟩
  · rw [hc, hw.hash]
    exact ⟨hhash, hw.name⟩
  · rw [hc, ← HeadersControl.matchesName_congr (hl a hptr).2]
    exact ⟨locationHash_ne_zero, hw.name⟩

theorem Outcome.slots_eq {out : Option OutField} {a : ℕ} (hop : hv.opcode = .set)
    (ha : a ∈ s.shape.slots ()) (hit : s.hits hv a = true)
    (ho : Outcome hv value out false s s') : s'.shape.slots () = s.shape.slots () := by
  cases ho with
  | unchanged => rfl
  | swept => rfl
  | created hc =>
    obtain ⟨hno, -⟩ := hc.resolve_left (by simp [hop])
    rw [List.any_eq_false] at hno
    exact absurd hit (hno a ha)

/-- A second `set` of the name pushes no entry. -/
def NoDuplicate (key : Str) (s : Response) : Prop :=
  ∀ (hv : OutVal) (value : Str) (s' : Response), hv.Parsed setHandlersOut → hv.key = key →
    hv.opcode = .set → setHeaderHelper hv value hv.offset false s = .ok (.ok, s') →
    s'.shape.slots () = s.shape.slots ()

/--
After `set` with a value one entry carries it, and no other visible entry matches the name. This
entry has a hash other than 0, is found by a second scan and keeps a second `set` from making a
duplicate exactly when the hash of the name is not 0.
-/
theorem set_entry_marked (s : Response) (hv : OutVal) (value : Str) (hwf : s.shape.WellFormed ())
    (hl : s.LocationTyped) (hp : hv.Parsed setHandlersOut) (hop : hv.opcode = .set)
    (hv₀ : value ≠ []) :
    ∃ rc s', setHeaderHelper hv value hv.offset false s = .ok (rc, s') ∧
      (s.shape.pool.Reliable → rc = .ok) ∧
      (rc = .ok → ∃ a, Written hv value s' a ∧
        ((s'.cell a).hash ≠ 0 ∧ s'.repairLocation.hits hv a = true ∧ NoDuplicate hv.key s' ↔
          hashKeyLc hv.key ≠ 0)) := by
  obtain ⟨rc, s', hrun, hrel, ho⟩ := setHeaderHelper_run hv value hv.offset false hwf
  refine ⟨rc, s', hrun, hrel, fun hrc => ?_⟩
  have hl₀ : s.repairLocation.LocationKey := by
    intro h hptr
    rw [ptr_repairLocation] at hptr
    simpa using hl h hptr
  obtain ⟨a, ha⟩ := (ho hrc).written hop hv₀
  have hl' := (ho hrc).locationKey (location_of_offset hp) hl₀
  have hwf' := (ho hrc).wellFormed (by simpa using hwf)
  refine ⟨a, ha, ?_⟩
  rw [ha.hash, hp.hash]
  constructor
  · rintro ⟨hhash, -⟩
    exact hhash
  · intro hhash
    have hit := ha.hits hl' (hp.hash ▸ hhash)
    refine ⟨hhash, hit, fun hv' value' s'' hp' hkey hop' hrun' => ?_⟩
    obtain ⟨rc', s₂, hrun₂, -, ho₂⟩ := setHeaderHelper_run hv' value' hv'.offset false hwf'
    obtain ⟨rfl, rfl⟩ := Prod.mk.inj (Except.ok.inj (hrun₂.symm.trans hrun'))
    rw [Response.hits, ← hp.matchesName_congr hp' hkey, ← Response.hits] at hit
    exact ((ho₂ rfl).slots_eq hop' (by simpa using ha.mem) hit).trans (by simp)

def bareResponse : Response := .ofElts [] 4 fun _ => none

/-- `set X-A v` on such a response. -/
theorem set_entry_marked_plain : ∃ (hv : OutVal) (s' : Response),
    parseDirective (fun _ => true) setHandlersOut 0 [str "set", str "X-A", str "v"] = .ok hv ∧
    setHeaderHelper hv (str "v") none false bareResponse = .ok (.ok, s') ∧
    ∃ a, (s'.cell a).value = str "v" ∧ (s'.cell a).hash ≠ 0 := by
  have hp := (parseDirective_eq_ok (rfl : parseDirective (fun _ => true) setHandlersOut 0
    [str "set", str "X-A", str "v"] = .ok _)).2
  obtain ⟨rc, s', hrun, hrel, hset⟩ := set_entry_marked bareResponse _ (str "v")
    (single_wellFormed (by decide) (by decide)) nofun hp rfl (by decide)
  have hrc : rc = .ok := hrel fun _ => rfl
  subst hrc
  obtain ⟨a, ha, hiff⟩ := hset rfl
  exact ⟨_, s', rfl, hrun, a, ha.value, (hiff.mpr (by decide)).1⟩

/-- The hash of this name is 0: its entry is hidden, and setting it twice makes two entries. -/
theorem set_entry_marked_zero : ∃ (hv : OutVal) (s' s'' : Response) (a : ℕ),
    bareResponse.shape.WellFormed () ∧ bareResponse.LocationTyped ∧
    parseDirective (fun _ => true) setHandlersOut 0 [str "set", str "X-bwbdrzmwonzhk", str "v"] =
      .ok hv ∧
    setHeaderHelper hv (str "v") none false bareResponse = .ok (.ok, s') ∧
    Written hv (str "v") s' a ∧ (s'.cell a).hash = 0 ∧ s'.hits hv a = false ∧
    setHeaderHelper hv (str "v") none false s' = .ok (.ok, s'') ∧
    s'.shape.slots () = [a] ∧ (s''.shape.slots ()).length = 2 :=
  ⟨⟨some (str "v" ++ [0]), hashKeyLc (str "X-bwbdrzmwonzhk"), str "X-bwbdrzmwonzhk", .setHeader,
      none, .set, none, false, false, 0, false⟩, _, _, 0,
    single_wellFormed (by decide) (by decide), nofun, rfl, rfl,
    ⟨by decide, by decide, by decide, by decide, by decide⟩, by decide, by decide, rfl, by decide,
    by decide⟩

end Response

end HeadersControl
