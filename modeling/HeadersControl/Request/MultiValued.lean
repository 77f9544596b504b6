import HeadersControl.Request.Coherence

/-! # Chains of multi-valued request headers

The handler of `Cookie` and `X-Forwarded-For` drops the chain of the field, runs
the helper with its local variable as output header, and links the entry in that
variable. The helper removes or merges all entries of the name, so the chain that
results has one entry at most, but it returns `NGX_OK` without storing an entry
where `add` finds one and where `rewrite` finds none.
-/

namespace HeadersControl

open Segments Segments.Shape

variable {ρ : Type} [DecidableEq ρ]

/-- The chain of a field lists exactly the entries of its name, in order, and ends. -/
def World.ChainListed (w : World ρ) (r : ρ) (f : InField) : Prop :=
  Chained w.cell ((w.headersIn r).ptr f)
    ((w.shape.slots r).filter fun s => sameName (w.cell s).key f.name)

/-- The local variable is not used unassigned, and `NGX_OK` leaves the chain listed. -/
def ChainKept (r : ρ) (f : InField) (res : Except Fault (Rc × Frame ρ)) : Prop :=
  res ≠ .error .unset ∧ ∀ fr, res = .ok (.ok, fr) → fr.w.ChainListed r f

def Frame.dropChain (fr : Frame ρ) (r : ρ) (f : InField) : Frame ρ :=
  { w := if (fr.w.headersIn r).ptr f ≠ none then fr.w.setPtr r f none else fr.w, h := none }

def Frame.linkHead (fr : Frame ρ) (r : ρ) (f : InField) (a : ℕ) : Frame ρ :=
  { fr with
    w := (fr.w.setPtr r f (some a)).setList fr.w.shape
      (Function.update fr.w.cell a { fr.w.cell a with next := none }) }

variable {r : ρ} {f : InField} {hv : InVal} {value : Str} {fr fr' : Frame ρ}

@[simp] theorem shape_dropChain : (fr.dropChain r f).w.shape = fr.w.shape := by
  unfold Frame.dropChain
  split <;> rfl

@[simp] theorem cell_dropChain : (fr.dropChain r f).w.cell = fr.w.cell := by
  unfold Frame.dropChain
  split <;> rfl

@[simp] theorem ancestors_dropChain : (fr.dropChain r f).w.ancestors = fr.w.ancestors := by
  unfold Frame.dropChain
  split <;> rfl

theorem ptr_dropChain : ((fr.dropChain r f).w.headersIn r).ptr f = none := by
  unfold Frame.dropChain
  split
  · simp [World.setPtr, World.setHeadersIn]
  · rename_i h
    exact not_not.mp h

omit [DecidableEq ρ] in
theorem not_bad_request (hwf : fr.w.shape.WellFormed r) (hstatus : fr.w.status r ≠ 400) :
    ¬ (fr.w.status r = 400 ∨ (fr.w.shape.header r).last = none) := by
  obtain ⟨fin, hfin⟩ := hwf.last_eq
  simp [hstatus, hfin]

theorem dropChain_eq : (if (fr.w.headersIn r).ptr f ≠ none then
    ({ fr with w := fr.w.setPtr r f none, h := none } : Frame ρ) else { fr with h := none }) =
      fr.dropChain r f := by
  unfold Frame.dropChain
  split <;> rfl

theorem hit_dropChain : hv.Hit value (fr.dropChain r f).w r ↔ hv.Hit value fr.w r := by
  simp [HeaderVal.Hit]

theorem setBuiltinMultiHeader_of_error (hwf : fr.w.shape.WellFormed r)
    (hstatus : fr.w.status r ≠ 400) (hoff : hv.offset = some f)
    (he : setHeaderHelper r hv value .localVar (fr.dropChain r f) = .ok (.error, fr')) :
    setBuiltinMultiHeader r hv value fr = .ok (.error, fr') := by
  unfold setBuiltinMultiHeader
  rw [if_neg (not_bad_request hwf hstatus), hoff]
  dsimp only
  rw [dropChain_eq, he]

theorem setBuiltinMultiHeader_of_helper (hwf : fr.w.shape.WellFormed r)
    (hstatus : fr.w.status r ≠ 400) (hoff : hv.offset = some f)
    (he : setHeaderHelper r hv value .localVar (fr.dropChain r f) = .ok (.ok, fr'))
    (hptr : (fr'.w.headersIn r).ptr f = none) :
    setBuiltinMultiHeader r hv value fr =
      if value = [] then .ok (.ok, fr')
      else match fr'.h with
        | none => .error .unset
        | some none => .error .null
        | some (some a) => .ok (.ok, fr'.linkHead r f a) := by
  unfold setBuiltinMultiHeader
  rw [if_neg (not_bad_request hwf hstatus), hoff]
  dsimp only
  rw [dropChain_eq, he]
  dsimp only
  rw [hptr]
  rfl

theorem setBuiltinMultiHeader_inv (hwf : fr.w.shape.WellFormed r) (hoff : hv.offset = some f)
    (he : setBuiltinMultiHeader r hv value fr = .ok (.ok, fr')) :
    fr.w.status r = 400 ∧ fr' = fr ∨
    fr.w.status r ≠ 400 ∧ ∃ fr₁,
      setHeaderHelper r hv value .localVar (fr.dropChain r f) = .ok (.ok, fr₁) ∧
      (value = [] ∧ fr' = fr₁ ∨
        value ≠ [] ∧ ∃ a, fr₁.h = some (some a) ∧ fr' = fr₁.linkHead r f a) := by
  by_cases hstatus : fr.w.status r = 400
  · rw [setBuiltinMultiHeader, if_pos (Or.inl hstatus)] at he
    cases he
    exact Or.inl ⟨hstatus, rfl⟩
  have hwf₀ : (fr.dropChain r f).w.shape.WellFormed r := by simpa using hwf
  refine Or.inr ⟨hstatus, ?_⟩
  rcases setHeaderHelper_cases hv value .localVar _ hwf₀ with
    ⟨fr₁, he₁, -, -⟩ | ⟨fr₁, he₁, ho⟩
  · rw [setBuiltinMultiHeader_of_error hwf hstatus hoff he₁] at he
    cases he
  · have hptr : (fr₁.w.headersIn r).ptr f = none := (ho.ptr_other (by simp)).trans ptr_dropChain
    rw [setBuiltinMultiHeader_of_helper hwf hstatus hoff he₁ hptr] at he
    refine ⟨fr₁, he₁, ?_⟩
    split_ifs at he with hv₀
    · cases he
      exact Or.inl ⟨hv₀, rfl⟩
    · cases hh : fr₁.h with
      | none => simp [hh] at he
      | some x =>
        cases x with
        | none => simp [hh] at he
        | some a =>
          rw [hh] at he
          cases he
          exact Or.inr ⟨hv₀, a, rfl, rfl⟩

theorem filter_keep_find {l : List ℕ} {a : ℕ} {p : ℕ → Bool} (hn : l.Nodup)
    (h : l.find? p = some a) : (l.filter fun x => !p x || x = a).filter p = [a] := by
  obtain ⟨hp, as, bs, rfl, hno⟩ := List.find?_eq_some_iff_append.mp h
  obtain ⟨-, hn, hdis⟩ := List.nodup_append.mp hn
  have ha : a ∉ bs := (List.nodup_cons.mp hn).1
  have has : as.filter (fun x => p x && (!p x || decide (x = a))) = [] :=
    List.filter_eq_nil_iff.mpr fun x hx => by simp [by simpa using hno x hx]
  have hbs : bs.filter (fun x => p x && (!p x || decide (x = a))) = [] :=
    List.filter_eq_nil_iff.mpr fun x hx => by
      have hxa : x ≠ a := by
        rintro rfl
        exact ha hx
      simp [hxa]
  rw [List.filter_filter, List.filter_append, List.filter_cons_of_pos (by simp [hp]), has, hbs,
    List.nil_append]

section Outcome

variable (hw : hv.wildcard = false) (hname : sameName hv.key f.name = true)
include hw hname

theorem hits_field (value name : Str) : hv.hits value name = sameName name f.name := by
  rw [hits_exact _ hw, sameName_comm, sameName_congr hname, sameName_comm]

omit [DecidableEq ρ] in
theorem hit_iff_first {w : World ρ} : hv.Hit value w r ↔ w.first r f.name ≠ none := by
  rw [World.first, ne_eq, List.find?_eq_none]
  simp only [HeaderVal.Hit, hits_field hw hname]
  push Not
  rfl

omit [DecidableEq ρ] in
theorem chainListed_nil {w : World ρ} (hptr : (w.headersIn r).ptr f = none)
    (hno : ¬ hv.Hit value w r) : w.ChainListed r f := by
  have hnil : ((w.shape.slots r).filter fun s => sameName (w.cell s).key f.name) = [] :=
    List.filter_eq_nil_iff.mpr fun s hs hit => hno ⟨s, hs, by rwa [hits_field hw hname]⟩
  rw [World.ChainListed, hnil, hptr]
  rfl

omit [DecidableEq ρ] in
theorem not_chainListed {w : World ρ} (hptr : (w.headersIn r).ptr f = none)
    (hit : hv.Hit value w r) : ¬ w.ChainListed r f := by
  obtain ⟨s, hs, hm⟩ := hit
  rw [hits_field hw hname] at hm
  rw [World.ChainListed, hptr]
  intro hc
  cases hl : (w.shape.slots r).filter fun s => sameName (w.cell s).key f.name with
  | nil => exact absurd (List.filter_eq_nil_iff.mp hl s hs) (by simp [hm])
  | cons x xs =>
    rw [hl] at hc
    cases hc.1

end Outcome

theorem chainListed_linkHead {a : ℕ}
    (ha : (fr.w.shape.slots r).filter (fun s => sameName (fr.w.cell s).key f.name) = [a]) :
    (fr.linkHead r f a).w.ChainListed r f := by
  have hkey : ∀ s, (Function.update fr.w.cell a { fr.w.cell a with next := none } s).key =
      (fr.w.cell s).key := fun s => by
    by_cases hs : s = a <;> simp [hs]
  have hslots : ((fr.linkHead r f a).w.shape.slots r).filter
      (fun s => sameName ((fr.linkHead r f a).w.cell s).key f.name) = [a] := by
    rw [← ha]
    exact List.filter_congr fun s _ => by rw [← hkey s]; rfl
  rw [World.ChainListed, hslots]
  constructor
  · simp [Frame.linkHead, World.setList, World.setPtr, World.setHeadersIn]
  · simp [Frame.linkHead, World.setList, Chained]

theorem Outcome.only_entry (hw : hv.wildcard = false) (hname : sameName hv.key f.name = true)
    (hwf : fr.w.shape.WellFormed r) (happ : hv.opcode ≠ .append) (hv₀ : value ≠ [])
    (hu : ¬ (hv.opcode = .add ∧ hv.Hit value fr.w r))
    (hr : ¬ (hv.opcode = .rewrite ∧ ¬ hv.Hit value fr.w r))
    (ho : Outcome r hv value .localVar fr fr') :
    ∃ a, fr'.h = some (some a) ∧
      (fr'.w.shape.slots r).filter (fun s => sameName (fr'.w.cell s).key f.name) = [a] := by
  simp only [← hits_field hw hname value]
  cases ho with
  | unchanged hc =>
    rcases hc with hc | ⟨-, hno, hnil | hre⟩
    · exact absurd hc hu
    · exact absurd hnil hv₀
    · exact absurd ⟨hre, hno⟩ hr
  | cleared _ _ hnil => exact absurd hnil hv₀
  | @kept a sh cell _ _ _ hfind hk =>
    have hkey : ∀ s, (cell s).key = (fr.w.cell s).key := fun s => by
      rw [hk.key]
      by_cases hs : s = a <;> simp [hs]
    refine ⟨a, rfl, ?_⟩
    simp only [Frame.shape_setList, Frame.cell_setList, hk.slots, hkey]
    exact filter_keep_find hwf.nodup_slots hfind
  | @created s sh hc hwf' _ hslots hs =>
    obtain ⟨hno, -, -⟩ := hc.resolve_left happ
    refine ⟨s, by rw [Frame.local_propagate]; rfl, ?_⟩
    have hold : (fr.w.shape.slots r).filter (fun x =>
        hv.hits value (Function.update fr.w.cell s (newElt hv value) x).key) = [] := by
      apply List.filter_eq_nil_iff.mpr
      intro x hx hit
      rw [Function.update_of_ne (by rintro rfl; exact hs hx)] at hit
      exact hno ⟨x, hx, hit⟩
    have hnew : hv.hits value (newElt hv value).key = true := by
      rw [hits_exact _ hw, newElt, sameName_refl]
    rw [(Frame.keep_propagate (by simpa using hwf')).2, Frame.cell_propagate]
    simp [hslots, hold, hnew]

theorem Outcome.no_entry (happ : hv.opcode ≠ .append)
    (hv₀ : value = []) (hu : ¬ (hv.opcode = .add ∧ hv.Hit value fr.w r))
    (ho : Outcome r hv value .localVar fr fr') : ¬ hv.Hit value fr'.w r := by
  cases ho with
  | unchanged hc =>
    rcases hc with hc | ⟨-, hno, -⟩
    · exact absurd hc hu
    · exact hno
  | cleared _ _ _ _ hk =>
    rintro ⟨s, hs, hit⟩
    simp only [Frame.shape_setList, Frame.cell_setList, hk.slots, hk.key] at hs hit
    simpa [hit] using (List.mem_filter.mp hs).2
  | kept _ _ hne => exact absurd hv₀ hne
  | created hc => exact absurd hv₀ (hc.resolve_left happ).2.1

/-- The runs that link an entry nobody stored, or drop a chain that is still there. -/
def BreaksChain (hv : InVal) (value : Str) (w : World ρ) (r : ρ) (f : InField) : Prop :=
  hv.opcode = .add ∧ w.first r f.name ≠ none ∨
    hv.opcode = .rewrite ∧ w.first r f.name = none ∧ value ≠ []

theorem not_chainKept (hw : hv.wildcard = false) (hname : sameName hv.key f.name = true)
    (hoff : hv.offset = some f) (hwf : fr.w.shape.WellFormed r) (hstatus : fr.w.status r ≠ 400)
    (hb : BreaksChain hv value fr.w r f) :
    ¬ ChainKept r f (setBuiltinMultiHeader r hv value fr) := by
  have hfirst : fr.w.first r f.name ≠ none ↔ hv.Hit value fr.w r :=
    (hit_iff_first hw hname).symm
  have hwf₀ : (fr.dropChain r f).w.shape.WellFormed r := by simpa using hwf
  have hrun : setHeaderHelper r hv value .localVar (fr.dropChain r f) =
      .ok (.ok, fr.dropChain r f) := by
    rcases hb with ⟨hadd, hf⟩ | ⟨hre, hf, -⟩
    · exact setHeaderHelper_add hwf₀ hadd (hit_dropChain.mpr (hfirst.mp hf))
    · have hno : ¬ hv.Hit value (fr.dropChain r f).w r := fun hit =>
        hfirst.mpr (hit_dropChain.mp hit) hf
      rw [setHeaderHelper_no_hit hwf₀ (by simp [hre]) hno, if_pos (Or.inr hre)]
  have he := setBuiltinMultiHeader_of_helper hwf hstatus hoff hrun ptr_dropChain
  rintro ⟨hunset, hlisted⟩
  by_cases hv₀ : value = []
  · rcases hb with ⟨-, hf⟩ | ⟨-, -, hne⟩
    · rw [if_pos hv₀] at he
      exact not_chainListed hw hname ptr_dropChain (hit_dropChain.mpr (hfirst.mp hf)) (hlisted _ he)
    · exact hne hv₀
  · rw [if_neg hv₀] at he
    exact hunset he

theorem chainKept (fr : Frame ρ) (value : Str) (hw : hv.wildcard = false)
    (happ : hv.opcode ≠ .append)
    (hname : sameName hv.key f.name = true) (hoff : hv.offset = some f)
    (hwf : fr.w.shape.WellFormed r) (hstatus : fr.w.status r ≠ 400)
    (hb : ¬ BreaksChain hv value fr.w r f) :
    ∃ rc fr', setBuiltinMultiHeader r hv value fr = .ok (rc, fr') ∧
      (rc = .ok → fr'.w.ChainListed r f) := by
  have hfirst : fr.w.first r f.name ≠ none ↔ hv.Hit value (fr.dropChain r f).w r :=
    (hit_dropChain.trans (hit_iff_first hw hname)).symm
  have hwf₀ : (fr.dropChain r f).w.shape.WellFormed r := by simpa using hwf
  rcases setHeaderHelper_cases hv value .localVar _ hwf₀ with
    ⟨fr₁, he, -, -⟩ | ⟨fr₁, he, ho⟩
  · exact ⟨.error, fr₁, setBuiltinMultiHeader_of_error hwf hstatus hoff he, nofun⟩
  · have hptr : (fr₁.w.headersIn r).ptr f = none := (ho.ptr_other (by simp)).trans ptr_dropChain
    have hu : ¬ (hv.opcode = .add ∧ hv.Hit value (fr.dropChain r f).w r) := fun hc =>
      hb (Or.inl ⟨hc.1, hfirst.mpr hc.2⟩)
    rw [setBuiltinMultiHeader_of_helper hwf hstatus hoff he hptr]
    by_cases hv₀ : value = []
    · exact ⟨.ok, fr₁, if_pos hv₀, fun _ => chainListed_nil hw hname hptr (ho.no_entry happ hv₀ hu)⟩
    · have hr : ¬ (hv.opcode = .rewrite ∧ ¬ hv.Hit value (fr.dropChain r f).w r) := fun hc =>
        hb (Or.inr ⟨hc.1, not_not.mp (mt hfirst.mp hc.2), hv₀⟩)
      obtain ⟨a, ha, honly⟩ := ho.only_entry hw hname hwf₀ happ hv₀ hu hr
      rw [if_neg hv₀, ha]
      exact ⟨.ok, _, rfl, fun _ => chainListed_linkHead honly⟩

/--
The handler of a multi-valued header uses its local variable only assigned and leaves the chain
listed exactly where the rule neither adds to a present header nor rewrites an absent one with a
value, and there it returns without a fault.
-/
theorem multi_valued_chain (w : World ρ) (r : ρ) (hv : InVal) (f : InField) (value : Str)
    (hwf : w.shape.WellFormed r) (hstatus : w.status r ≠ 400) (hp : hv.Parsed setHandlersIn)
    (hmulti : hv.handler = .setBuiltinMultiHeader) (hoff : hv.offset = some f) :
    (ChainKept r f (setBuiltinMultiHeader r hv value ⟨w, none⟩) ↔ ¬ BreaksChain hv value w r f) ∧
      (¬ BreaksChain hv value w r f →
        ∃ rc fr, setBuiltinMultiHeader r hv value ⟨w, none⟩ = .ok (rc, fr)) := by
  rcases hp.field_or_custom with ⟨g, hname, -, hoff', happ⟩ | ⟨-, hcustom⟩
  · obtain rfl : g = f := Option.some.inj (hoff'.symm.trans hoff)
    have hw := hp.exact_of_field hname
    have hkept := chainKept ⟨w, none⟩ value hw happ hname hoff hwf hstatus
    constructor
    · constructor
      · intro hc hb
        exact not_chainKept hw hname hoff hwf hstatus hb hc
      · intro hb
        obtain ⟨rc, fr, he, hlisted⟩ := hkept hb
        rw [he]
        refine ⟨nofun, fun fr' he' => ?_⟩
        obtain ⟨rfl, rfl⟩ := Prod.mk.inj (Except.ok.inj he')
        exact hlisted rfl
    · intro hb
      obtain ⟨rc, fr, he, -⟩ := hkept hb
      exact ⟨rc, fr, he⟩
  · rw [hmulti] at hcustom
    cases hcustom

def oneCookie : World Unit :=
  .ofEntries [(str "A", str "1"), (str "Cookie", str "a=b")] 4 fun f =>
    if f = .cookie then some 1 else none

/-- `set Cookie c=d` writes the entry and links it again. -/
theorem multi_valued_chain_set : ∃ hv : InVal,
    parseDirective (fun _ => true) setHandlersIn 0 [str "set", str "Cookie", str "c=d"] = .ok hv ∧
      ChainKept () .cookie (setBuiltinMultiHeader () hv (str "c=d") ⟨oneCookie, none⟩) := by
  refine ⟨_, rfl, ?_⟩
  have hp := (parseDirective_eq_ok (rfl : parseDirective (fun _ => true) setHandlersIn 0
    [str "set", str "Cookie", str "c=d"] = .ok _)).2
  refine (multi_valued_chain oneCookie () _ .cookie (str "c=d")
    (single_wellFormed (by decide) (by decide)) (by decide) hp rfl rfl).1.mpr ?_
  rintro (⟨h, -⟩ | ⟨h, -⟩) <;> cases h

/-- `add Cookie c=d` on that request drops its chain and uses the local variable unassigned. -/
theorem multi_valued_chain_add : oneCookie.shape.WellFormed () ∧ oneCookie.status () ≠ 400 ∧
    oneCookie.ChainListed () .cookie ∧ ∃ hv : InVal, parseDirective (fun _ => true) setHandlersIn 0
        [str "add", str "Cookie", str "c=d"] = .ok hv ∧
      setBuiltinMultiHeader () hv (str "c=d") ⟨oneCookie, none⟩ = .error .unset ∧
      ¬ ChainKept () .cookie (setBuiltinMultiHeader () hv (str "c=d") ⟨oneCookie, none⟩) := by
  have hrun : ∃ hv : InVal, parseDirective (fun _ => true) setHandlersIn 0
        [str "add", str "Cookie", str "c=d"] = .ok hv ∧
      setBuiltinMultiHeader () hv (str "c=d") ⟨oneCookie, none⟩ = .error .unset := ⟨_, rfl, by rfl⟩
  obtain ⟨hv, hparse, he⟩ := hrun
  exact ⟨single_wellFormed (by decide) (by decide), by decide, ⟨rfl, rfl⟩, hv, hparse, he,
    fun h => h.1 he⟩

end HeadersControl
