import HeadersControl.Request.Derived
import HeadersControl.Request.MultiValued

/-! # Propagation from a subrequest

A handler that creates an entry in the list of a subrequest hands it to all
ancestors by copying `headers_in`. The copy of the list is in order where it has
a part behind the embedded one, as `last` then points to a part that is shared.
The copied pointers are those of the moment of creation, when the field of a
multi-valued header has not been written yet.
-/

namespace HeadersControl

open Segments Segments.Shape

variable {ρ η ο : Type} [DecidableEq ρ]

/-- The entry `s` is in the list of `p` and in its typed field, and `last` is the final part. -/
structure World.Shares (w : World ρ) (p : ρ) (f : InField) (s : ℕ) : Prop where
  listed : s ∈ w.shape.slots p
  typed : (w.headersIn p).ptr f = some s
  last : (w.shape.header p).last = (w.shape.chain p).getLast?

/-- The subrequest got an entry of that name and value, and all its ancestors share it. -/
def Usable (w w' : World ρ) (r : ρ) (f : InField) (value : Str) : Prop :=
  ∃ s, s ∉ w.shape.slots r ∧ s ∈ w'.shape.slots r ∧ sameName (w'.cell s).key f.name = true ∧
    (w'.cell s).value = value ∧ ∀ p ∈ w.ancestors r, w'.Shares p f s

def InField.Accepts (f : InField) (value : Str) (pool : Pool) : Prop :=
  match f.handler with
  | .setHostHeader => (validateHost value pool false).1 = .ok
  | .setContentLengthHeader => atosz value ≠ none
  | _ => True

/-- `create` has put the entry `s` at the end of the list of `r` and copied `headers_in`. -/
structure Spread (r : ρ) (hv : HeaderVal η ο) (value : Str) (out : OutRef) (s : ℕ)
    (fr fr' : Frame ρ) : Prop where
  fresh : s ∉ fr.w.shape.slots r
  slots : fr'.w.shape.slots r = fr.w.shape.slots r ++ [s]
  cell : fr'.w.cell s = newElt hv value
  own : fr'.w.headersIn r = (fr.store r out (some s)).w.headersIn r
  stored : fr'.h = (fr.store r out (some s)).h
  copied : ∀ p ∈ fr.w.ancestors r, fr'.w.headersIn p = fr'.w.headersIn r
  last : ∀ p ∈ fr.w.ancestors r,
    (fr'.w.shape.header p).last = (fr'.w.shape.chain p).getLast? ↔ fr.w.shape.Spills r
  several : fr.w.shape.Spills r → ∀ p ∈ fr.w.ancestors r,
    fr'.w.shape.WellFormed p ∧ fr'.w.shape.slots p = fr'.w.shape.slots r

variable {r : ρ} {f : InField} {value : Str} {fr fr' fr₁ : Frame ρ} {s : ℕ}

theorem create_spread (hv : HeaderVal η ο) (value : Str) (out : OutRef)
    (hwf : fr.w.shape.WellFormed r)
    (hout : out ≠ .null) :
    (∃ fr', create r hv value out fr = .ok (.error, fr') ∧ ¬ fr.w.shape.pool.Reliable) ∨
    ∃ s fr', create r hv value out fr = .ok (.ok, fr') ∧ Spread r hv value out s fr fr' := by
  obtain ⟨fin, hfin⟩ := hwf.last_eq
  have hlast : (fr.w.shape.header r).last ≠ none := by simp [hfin]
  rcases push_spec hwf with ⟨q, hp, -, hf⟩ | ⟨s, sh, hp, hg, hwf', hslots, hs⟩
  · exact Or.inl ⟨fr.setList (fr.w.shape.setPool q) fr.w.cell, by simp [create, hlast, hp], hf⟩
  rcases create_of_push hv value out hlast hp with
    ⟨fr', he, hf, -⟩ | ⟨q, hq, he⟩
  · exact Or.inl ⟨fr', he, fun hr => hf (hg.reliable.mpr hr)⟩
  refine Or.inr ⟨s, _, he, ?_⟩
  set fr₁ := (fr.setList (sh.setPool q) (Function.update fr.w.cell s (newElt hv value))).store
    r out (some s) with hfr₁
  have hshape : fr₁.w.shape = sh.setPool q := by simp [hfr₁]
  have hwf₁ : fr₁.w.shape.WellFormed r := hshape ▸ hwf'.setPool hq
  have hmany : 2 ≤ (fr₁.w.shape.chain r).length ↔ fr.w.shape.Spills r := by
    rw [hshape, hwf'.chain_setPool hq]
    exact several_of_push hwf hp
  have hanc : fr₁.w.ancestors = fr.w.ancestors := by simp [hfr₁]
  have heq : fr₁.propagate r out = { fr₁ with w := fr₁.w.propagate r (fr.w.ancestors r) } := by
    rw [Frame.propagate, if_neg hout, hanc]
  have hkeep : (fr₁.propagate r out).w.shape.WellFormed r ∧
      (fr₁.propagate r out).w.shape.slots r = fr₁.w.shape.slots r := Frame.keep_propagate hwf₁
  have hown : (fr₁.propagate r out).w.headersIn r = fr₁.w.headersIn r := Frame.headersIn_propagate
  have hcopy : ∀ p ∈ fr.w.ancestors r,
      fr₁.w.shape.Copied (fr₁.propagate r out).w.shape r p := fun p hp => by
    rw [heq]
    exact copied_propagate hp
  have hne : ∀ p ∈ fr.w.ancestors r, p ≠ r := by
    rintro p hp rfl
    exact fr.w.not_ancestor p hp
  exact {
    fresh := hs
    slots := by rw [hkeep.2, hshape, hwf'.slots_setPool hq, hslots]
    cell := by rw [Frame.cell_propagate]; simp [hfr₁]
    own := by rw [hown, hfr₁, Frame.store_setList, Frame.headersIn_setList]
    stored := by rw [Frame.local_propagate, hfr₁, Frame.store_setList]; rfl
    copied := fun p hp => by
      rw [hown, heq]
      exact (headersIn_propagate p).trans (if_pos hp)
    last := fun p hp => (hwf₁.last_copy_iff (hcopy p hp) (hne p hp)).trans hmany
    several := fun hsp p hp =>
      have h2 := hmany.mpr hsp
      ⟨hwf₁.copy (hcopy p hp) h2, (hwf₁.slots_copy (hcopy p hp) h2).trans hkeep.2.symm⟩ }

variable {hv : InVal}

/-- The fields that are derived from the value are set, and memory may have been used. -/
structure Prepared (r : ρ) (fr fr₁ : Frame ρ) : Prop where
  shape : ∃ pool, fr.w.shape.pool.Grows pool ∧ fr₁.w.shape = fr.w.shape.setPool pool
  cell : fr₁.w.cell = fr.w.cell
  ancestors : fr₁.w.ancestors = fr.w.ancestors
  status : fr₁.w.status = fr.w.status
  ptr : (fr₁.w.headersIn r).ptr = (fr.w.headersIn r).ptr

omit [DecidableEq ρ] in
theorem Prepared.refl : Prepared r fr fr :=
  ⟨⟨fr.w.shape.pool, Pool.Grows.refl _, rfl⟩, rfl, rfl, rfl, rfl⟩

theorem Prepared.modifyIn {g : HeadersIn → HeadersIn} (h : Prepared r fr fr₁)
    (hg : ∀ x, (g x).ptr = x.ptr) : Prepared r fr (fr₁.modifyIn r g) where
  shape := h.shape
  cell := h.cell
  ancestors := h.ancestors
  status := h.status
  ptr := by simp [Frame.modifyIn, World.setHeadersIn, hg, h.ptr]

theorem derived_modifyIn (fr : Frame ρ) (r : ρ) (g : HeadersIn → HeadersIn) :
    (fr.modifyIn r g).w.derived r =
      { fr.w.derived r with
        server := (g (fr.w.headersIn r)).server
        contentLengthN := (g (fr.w.headersIn r)).contentLengthN
        connectionType := (g (fr.w.headersIn r)).connectionType
        keepAliveN := (g (fr.w.headersIn r)).keepAliveN
        browser := (g (fr.w.headersIn r)).browser } := by
  simp [World.derived, Frame.modifyIn, World.setHeadersIn]

theorem runHandlerIn_single (r : ρ) (fr : Frame ρ) (hhandler : hv.handler = f.handler)
    (hsingle : f.handler ≠ .setBuiltinMultiHeader) (hv₀ : value ≠ []) :
    (∃ fr', runHandlerIn r hv value fr = .ok (.error, fr') ∧
      ¬ f.Accepts value fr.w.shape.pool) ∨
    ∃ fr₁, Prepared r fr fr₁ ∧ fr₁.w.shape.nextSlot r = fr.w.shape.nextSlot r ∧
      Derives f value (fr.w.derived r) (fr₁.w.derived r) ∧
      runHandlerIn r hv value fr = setBuiltinHeader r hv value fr₁ := by
  unfold runHandlerIn InField.Accepts Derives
  rw [hhandler]
  cases hf : f.handler with
  | setHeader => cases f <;> cases hf
  | setBuiltinMultiHeader => exact absurd hf hsingle
  | setBuiltinHeader => exact Or.inr ⟨fr, .refl, rfl, rfl, rfl⟩
  | setHostHeader =>
    have h : Prepared r fr (fr.setList (fr.w.shape.setPool
        (validateHost value fr.w.shape.pool false).2.2) fr.w.cell) :=
      ⟨⟨_, validateHost_grows _ _ _, rfl⟩, rfl, rfl, rfl, rfl⟩
    have hslot := nextSlot_setPool (l := r) (validateHost_brk value fr.w.shape.pool false)
    dsimp only [setHostHeader]
    rw [if_pos hv₀]
    split_ifs with hrc
    · exact Or.inl ⟨_, rfl, hrc⟩
    · rw [not_not] at hrc
      obtain ⟨host, hform⟩ := validateHost_accepts_iff.mp (by rw [hrc]; simp)
      refine Or.inr ⟨_, ?_, ?_, ⟨host, hform, ?_⟩, rfl⟩
      · exact h.modifyIn fun _ => rfl
      · exact hslot
      · rw [derived_modifyIn, (validateHost_of_form _ _ hform).2.2 hrc]
        rfl
  | setConnectionHeader =>
    have h : Prepared r fr (fr.modifyIn r (connected value)) := Prepared.refl.modifyIn fun _ => rfl
    dsimp only
    rw [setConnectionHeader_eq]
    refine Or.inr ⟨_, ?_, ?_, ?_, rfl⟩
    · exact ⟨h.shape, h.cell, h.ancestors, h.status, h.ptr⟩
    · rfl
    · simp [World.derived, Frame.modifyIn, World.setHeadersIn, connected]
  | setUserAgentHeader =>
    refine Or.inr ⟨_, ?_, ?_, ?_, rfl⟩
    · exact Prepared.refl.modifyIn fun _ => rfl
    · rfl
    · rw [derived_modifyIn, if_neg hv₀]
      rfl
  | setContentLengthHeader =>
    dsimp only [setContentLengthHeader]
    rw [if_neg hv₀]
    cases hlen : atosz value with
    | none => exact Or.inl ⟨fr, rfl, by simp⟩
    | some len =>
      refine Or.inr ⟨_, ?_, ?_, ⟨len, rfl, ?_⟩, rfl⟩
      · exact Prepared.refl.modifyIn fun _ => rfl
      · rfl
      · rw [derived_modifyIn]
        rfl

omit [DecidableEq ρ] in
theorem Prepared.wellFormed (h : Prepared r fr fr₁) (hwf : fr.w.shape.WellFormed r) :
    fr₁.w.shape.WellFormed r := by
  obtain ⟨pool, hg, hshape⟩ := h.shape
  rw [hshape]
  exact hwf.setPool hg

omit [DecidableEq ρ] in
theorem Prepared.slots (h : Prepared r fr fr₁) (hwf : fr.w.shape.WellFormed r) :
    fr₁.w.shape.slots r = fr.w.shape.slots r := by
  obtain ⟨pool, hg, hshape⟩ := h.shape
  rw [hshape, hwf.slots_setPool hg]

omit [DecidableEq ρ] in
theorem Prepared.hit_iff (h : Prepared r fr fr₁) (hwf : fr.w.shape.WellFormed r) :
    hv.Hit value fr₁.w r ↔ hv.Hit value fr.w r := by
  rw [HeaderVal.Hit, HeaderVal.Hit, h.slots hwf, h.cell]

theorem setHeaderHelper_absent (out : OutRef) (hwf : fr.w.shape.WellFormed r)
    (hset : hv.opcode = .set) (hv₀ : value ≠ []) (hno : ¬ hv.Hit value fr.w r) :
    setHeaderHelper r hv value out fr = create r hv value out fr := by
  rw [setHeaderHelper_no_hit hwf (by simp [hset]) hno, if_neg (by simp [hv₀, hset])]

theorem setBuiltinHeader_absent (hwf : fr.w.shape.WellFormed r) (hset : hv.opcode = .set)
    (hoff : hv.offset = some f) (hptr : (fr.w.headersIn r).ptr f = none) (hv₀ : value ≠ [])
    (hno : ¬ hv.Hit value fr.w r) :
    setBuiltinHeader r hv value fr = create r hv value (.field f) fr := by
  unfold setBuiltinHeader
  rw [hoff]
  dsimp only
  rw [hptr]
  exact setHeaderHelper_absent _ hwf hset hv₀ hno

/-- Given the address of the typed field, `create` serves the ancestors where the list spills. -/
theorem Spread.usable_iff (hpre : Prepared r fr fr₁) (hwf : fr.w.shape.WellFormed r)
    (hanc : fr.w.ancestors r ≠ []) (hname : sameName hv.key f.name = true)
    (hs : Spread r hv value (.field f) s fr₁ fr') :
    Usable fr.w fr'.w r f value ↔ fr.w.shape.Spills r := by
  obtain ⟨fresh, slots, cell, own, -, copied, last, several⟩ := hs
  obtain ⟨pool, hg, hshape⟩ := hpre.shape
  have hsp : fr₁.w.shape.Spills r ↔ fr.w.shape.Spills r := by rw [hshape, spills_setPool hwf hg]
  rw [hpre.slots hwf] at fresh slots
  rw [hpre.ancestors, hsp] at several
  rw [hpre.ancestors] at copied last
  constructor
  · rintro ⟨x, -, -, -, -, hall⟩
    obtain ⟨p, hp⟩ := List.exists_mem_of_ne_nil _ hanc
    exact hsp.mp ((last p hp).mp (hall p hp).last)
  · intro h
    have hmem : s ∈ fr'.w.shape.slots r := by simp [slots]
    refine ⟨s, fresh, hmem, by rw [cell]; exact hname, by rw [cell]; rfl, fun p hp => ?_⟩
    exact {
      listed := by rw [(several h p hp).2]; exact hmem
      typed := by rw [copied p hp, own, Frame.ptr_store_self]
      last := (last p hp).mpr (hsp.mpr h) }

theorem headersIn_linkHead {p : ρ} {a : ℕ} (h : p ≠ r) :
    (fr.linkHead r f a).w.headersIn p = fr.w.headersIn p :=
  Function.update_of_ne h _ _

/-- The handler of a multi-valued field links the entry after it has been handed on. -/
theorem setBuiltinMultiHeader_not_usable (fr : Frame ρ) (hwf : fr.w.shape.WellFormed r)
    (hanc : fr.w.ancestors r ≠ []) (hset : hv.opcode = .set) (hoff : hv.offset = some f)
    (hv₀ : value ≠ []) (hno : ¬ hv.Hit value fr.w r) :
    ∃ rc fr', setBuiltinMultiHeader r hv value fr = .ok (rc, fr') ∧
      (fr.w.shape.pool.Reliable → rc = .ok) ∧ (rc = .ok → ¬ Usable fr.w fr'.w r f value) := by
  by_cases hstatus : fr.w.status r = 400
  · refine ⟨.ok, fr, if_pos (Or.inl hstatus), fun _ => rfl, fun _ => ?_⟩
    rintro ⟨x, hx, hx', -⟩
    exact hx hx'
  have hwf₀ : (fr.dropChain r f).w.shape.WellFormed r := by simpa using hwf
  have hhelper := setHeaderHelper_absent .localVar hwf₀ hset hv₀ (mt hit_dropChain.mp hno)
  rcases create_spread hv value .localVar hwf₀ (by simp) with
    ⟨fr', he, hf⟩ | ⟨s, fr', he, hs⟩
  · refine ⟨.error, fr', setBuiltinMultiHeader_of_error hwf hstatus hoff (hhelper.trans he),
      fun hr => absurd (by simpa using hr) hf, nofun⟩
  · have hptr : (fr'.w.headersIn r).ptr f = none := by
      rw [hs.own]
      exact ptr_dropChain
    have hrun := setBuiltinMultiHeader_of_helper hwf hstatus hoff (hhelper.trans he) hptr
    rw [if_neg hv₀, hs.stored] at hrun
    refine ⟨.ok, _, hrun, fun _ => rfl, fun _ => ?_⟩
    rintro ⟨x, -, -, -, -, hall⟩
    obtain ⟨p, hp⟩ := List.exists_mem_of_ne_nil _ hanc
    have hne : p ≠ r := by
      rintro rfl
      exact fr.w.not_ancestor p hp
    have htyped := (hall p hp).typed
    rw [headersIn_linkHead hne, hs.copied p (by simpa using hp), hptr] at htyped
    cases htyped

/--
`set` with a value creates an absent header in a subrequest. Where it returns `NGX_OK`, the
ancestors share the entry exactly if the field is single-valued and the list of the subrequest
spills, and then their lists are well-formed.
-/
theorem ancestors_usable (w : World ρ) (r : ρ) (hv : InVal) (f : InField) (value : Str)
    (hwf : w.shape.WellFormed r) (hanc : w.ancestors r ≠ []) (hp : hv.Parsed setHandlersIn)
    (hset : hv.opcode = .set) (hoff : hv.offset = some f) (habs : w.first r f.name = none)
    (hptr : (w.headersIn r).ptr f = none) (hv₀ : value ≠ []) :
    ∃ rc w', handleIn r hv value w = .ok (rc, w') ∧
      (w.shape.pool.Reliable → f.Accepts value w.shape.pool → rc = .ok) ∧
      (rc = .ok → (Usable w w' r f value ↔
          f.handler ≠ .setBuiltinMultiHeader ∧ w.shape.Spills r) ∧
        (f.handler ≠ .setBuiltinMultiHeader → w.shape.Spills r →
          ∀ p ∈ w.ancestors r, w'.shape.WellFormed p)) := by
  obtain ⟨hname, hhandler⟩ : sameName hv.key f.name = true ∧ hv.handler = f.handler := by
    rcases hp.cases with ⟨e, he, -, hname, hhandler, hoff'⟩ | ⟨-, -, hoff'⟩
    · obtain ⟨g, -, rfl⟩ := List.mem_map.mp he
      obtain rfl : g = f := Option.some.inj (hoff'.symm.trans hoff)
      exact ⟨hname, hhandler⟩
    · rw [hoff] at hoff'
      cases hoff'
  have hno : ¬ hv.Hit value w r := fun hit =>
    (hit_iff_first (hp.exact_of_field hname) hname).mp hit habs
  by_cases hmulti : f.handler = .setBuiltinMultiHeader
  · obtain ⟨rc, fr', he, hrc, hu⟩ := setBuiltinMultiHeader_not_usable ⟨w, none⟩ hwf hanc
      hset hoff hv₀ hno
    refine ⟨rc, fr'.w, ?_, fun hr _ => hrc hr, fun hok => ?_⟩
    · rw [handleIn, runHandlerIn, hhandler, hmulti]
      dsimp only
      rw [he]
      rfl
    · exact ⟨iff_of_false (hu hok) fun h => h.1 hmulti, fun h => absurd hmulti h⟩
  rcases runHandlerIn_single r ⟨w, none⟩ hhandler hmulti hv₀ with
    ⟨fr', he, hrej⟩ | ⟨fr₁, hpre, -, -, he⟩
  · exact ⟨.error, fr'.w, by rw [handleIn, he]; rfl, fun _ ha => absurd ha hrej, by simp⟩
  have hwf₁ := hpre.wellFormed hwf
  rw [setBuiltinHeader_absent hwf₁ hset hoff (by rw [hpre.ptr]; exact hptr) hv₀
    (mt (hpre.hit_iff hwf).mp hno)] at he
  obtain ⟨pool, hg, hshape⟩ := hpre.shape
  rcases create_spread hv value (.field f) hwf₁ (by simp) with
    ⟨fr', he', hf⟩ | ⟨s, fr', he', hs⟩
  · refine ⟨.error, fr'.w, by rw [handleIn, he, he']; rfl, fun hr _ => absurd ?_ hf, by simp⟩
    rw [hshape]
    exact hg.reliable.mpr hr
  · refine ⟨.ok, fr'.w, by rw [handleIn, he, he']; rfl, fun _ _ => rfl, fun _ => ⟨?_, ?_⟩⟩
    · rw [and_iff_right hmulti]
      exact hs.usable_iff hpre hwf hanc hname
    · intro _ hsp p hp
      have hsp₁ : fr₁.w.shape.Spills r := by
        rw [hshape]
        exact (spills_setPool hwf hg).mpr hsp
      exact (hs.several hsp₁ p (by rw [hpre.ancestors]; exact hp)).1

def subrequest (sh : Shape Bool) : World Bool where
  shape := sh
  cell _ := ⟨hashKeyLc (str "A"), str "A", str "1", str "a", none⟩
  headersIn _ := ⟨fun _ => none, [], -1, .unknown, -1, noBrowser⟩
  status _ := 0
  keepalive _ := true
  ancestors r := if r then [] else [true]
  not_ancestor := by decide

def twoParts : Shape Bool where
  header _ := ⟨some (.node 0), ⟨0, 2, some (.node 0)⟩, 2⟩
  node _ := ⟨2, 1, none⟩
  pool := ⟨[(0, 2), (2, 2)], 4, 1, fun _ => false, 0, by decide⟩

theorem twoParts_wellFormed (l : Bool) : twoParts.WellFormed l :=
  ⟨[.inline l], .node 0, {
    head := rfl
    linked := ⟨rfl, trivial⟩
    ends := rfl
    allocated := by simp [twoParts]
    last := rfl
    filled := by simp [twoParts, part]
    filled_last := Or.inr (by simp [twoParts, part])
    nalloc_pos := by simp [twoParts]
    room := by simp [twoParts, part]
    inside := by simp [twoParts, part, Pool.Inside]
    inside_last := by simp [twoParts, part, Pool.Inside]
    disjoint := by cases l <;> decide }⟩

/-- `set Referer x` reaches the parent, as the list has two parts. -/
theorem ancestors_usable_referer : ∃ hv : InVal,
    parseDirective (fun _ => true) setHandlersIn 0 [str "set", str "Referer", str "x"] = .ok hv ∧
      ∃ w', handleIn false hv (str "x") (subrequest twoParts) = .ok (.ok, w') ∧
        Usable (subrequest twoParts) w' false .referer (str "x") := by
  refine ⟨_, rfl, ?_⟩
  have hp := (parseDirective_eq_ok (rfl : parseDirective (fun _ => true) setHandlersIn 0
    [str "set", str "Referer", str "x"] = .ok _)).2
  obtain ⟨rc, w', he, hrc, hu⟩ := ancestors_usable (subrequest twoParts) false _ .referer (str "x")
    (twoParts_wellFormed false) (by decide) hp rfl rfl (by decide) rfl (by decide)
  obtain rfl := hrc (fun _ => rfl) trivial
  exact ⟨w', he, (hu rfl).1.mpr ⟨by decide, by decide⟩⟩

/--
`set Cookie a=b` on that list leaves the chain of the parent empty, and `set Referer x` on a list
with one part leaves the parent with a `last` that points into the subrequest.
-/
theorem ancestors_usable_cookie :
    ((subrequest twoParts).shape.WellFormed false ∧
      (subrequest twoParts).first false InField.cookie.name = none ∧ ∃ hv : InVal,
      parseDirective (fun _ => true) setHandlersIn 0
        [str "set", str "Cookie", str "a=b"] = .ok hv ∧
      ∃ w', handleIn false hv (str "a=b") (subrequest twoParts) = .ok (.ok, w') ∧
        ¬ Usable (subrequest twoParts) w' false .cookie (str "a=b")) ∧
    (subrequest (.single 1 20)).shape.WellFormed false ∧
      (subrequest (.single 1 20)).first false InField.referer.name = none ∧ ∃ hv : InVal,
      parseDirective (fun _ => true) setHandlersIn 0
        [str "set", str "Referer", str "x"] = .ok hv ∧
      ∃ w', handleIn false hv (str "x") (subrequest (.single 1 20)) = .ok (.ok, w') ∧
        ¬ Usable (subrequest (.single 1 20)) w' false .referer (str "x") := by
  refine ⟨⟨twoParts_wellFormed false, by decide, _, rfl, _, rfl, ?_⟩,
    single_wellFormed (by decide) (by decide), by decide, _, rfl, _, rfl, ?_⟩
  · rintro ⟨s, -, -, -, -, hall⟩
    have htyped : none = some s := (hall true (by decide)).typed
    cases htyped
  · rintro ⟨s, -, -, -, -, hall⟩
    have hlast : some (PartPtr.inline false) = some (.inline true) := (hall true (by decide)).last
    cases hlast

end HeadersControl
