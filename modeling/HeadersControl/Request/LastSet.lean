import HeadersControl.Request.Labels
import HeadersControl.Segments.Put

/-! # The last `set` of a request header

A `set` puts its value under the name of the rule, points the typed field at the
entry, and computes the fields that are derived from the value. A later `set` hides
all of this, but for the fields that the handler of `Connection` changes with
`close` only.
-/

namespace HeadersControl

open Segments Segments.Shape

variable {ρ : Type} [DecidableEq ρ] {r : ρ} {hv : InVal} {f : InField} {value : Str} {out : OutRef}
  {fr fr' fr₁ : Frame ρ} {w w' w₁ w₂ : World ρ} {a : ℕ}

def HeaderVal.write (hv : InVal) (value : Str) (e : TableElt) : TableElt :=
  match hv.handler with
  | .setHeader => { e with value }
  | .setBuiltinMultiHeader => { e with value, next := none }
  | _ => { e with hash := hv.hash, value }

/-- Whether the handler takes other entries of the name out, which the typed pointers bypass. -/
def HeaderVal.merges (hv : InVal) : Bool :=
  hv.handler = .setHeader || hv.handler = .setBuiltinMultiHeader

def HeaderVal.pointTo (hv : InVal) (a : ℕ) (ptr : InField → Option ℕ) : InField → Option ℕ :=
  match hv.offset with
  | none => ptr
  | some f => Function.update ptr f (some a)

/-- How a rule changes the derived fields for a value. -/
def HeaderVal.Derives (hv : InVal) (value : Str) (d d' : Derived) : Prop :=
  match hv.offset with
  | none => d' = d
  | some f => HeadersControl.Derives f value d d'

def HeaderVal.Accepts (hv : InVal) (value : Str) (pool : Pool) : Prop :=
  ∀ f, hv.offset = some f → f.Accepts value pool

/-- What `set` does with a value, in the entry `a`. -/
structure SetStep (r : ρ) (hv : InVal) (value : Str) (a : ℕ) (w w' : World ρ) : Prop where
  put : Put (fun e => sameName e.key hv.key) hv.merges (hv.write value) (newElt hv value)
    (w.shape.nextSlot r) (w.shape.slots r) w.cell (w'.shape.slots r) w'.cell a
  ptr : (w'.headersIn r).ptr = hv.pointTo a (w.headersIn r).ptr
  derived : hv.Derives value (w.derived r) (w'.derived r)
  grows : w.shape.pool.Grows w'.shape.pool
  status : w'.status = w.status

theorem status_propagate {as : List ρ} : (w.propagate r as).status = w.status := by
  induction as generalizing w r with
  | nil => rfl
  | cons p as ih => exact ih (w := w.copyHeadersIn r p) (r := p)

theorem derived_dropChain : (fr.dropChain r f).w.derived r = fr.w.derived r := by
  unfold Frame.dropChain
  split
  · simp [World.derived, World.setPtr, World.setHeadersIn]
  · rfl

theorem derived_linkHead : (fr.linkHead r f a).w.derived r = fr.w.derived r := by
  simp [World.derived, Frame.linkHead, World.setList, World.setPtr, World.setHeadersIn]

theorem Frame.status_store (x : Option ℕ) : (fr.store r out x).w.status = fr.w.status := by
  cases out <;> rfl

theorem create_inv (hwf : fr.w.shape.WellFormed r)
    (he : create r hv value out fr = .ok (.ok, fr')) :
    ∃ sh : Shape ρ, sh.WellFormed r ∧ fr.w.shape.pool.Grows sh.pool ∧
      fr.w.shape.nextSlot r ∉ fr.w.shape.slots r ∧
      sh.slots r = fr.w.shape.slots r ++ [fr.w.shape.nextSlot r] ∧
      fr' = ((fr.setList sh (Function.update fr.w.cell (fr.w.shape.nextSlot r)
        (newElt hv value))).store r out (some (fr.w.shape.nextSlot r))).propagate r out := by
  obtain ⟨fin, hfin⟩ := hwf.last_eq
  have hlast : (fr.w.shape.header r).last ≠ none := by simp [hfin]
  rcases push_spec hwf with ⟨q, hp, -, -⟩ | ⟨s, sh, hp, hg, hwf', hslots, hs⟩
  · simp [create, hlast, hp] at he
  · obtain rfl := push_nextSlot hwf hp
    rcases create_of_push hv value out hlast hp with ⟨_, he', -⟩ | ⟨q, hq, he'⟩
    · cases he'.symm.trans he
    · cases he'.symm.trans he
      exact ⟨sh.setPool q, hwf'.setPool hq, hg.trans hq, hs,
        by rw [hwf'.slots_setPool hq, hslots], rfl⟩

/-- What the helper does for `set` with a value, where it is given `out`. -/
structure HelperSet (r : ρ) (hv : InVal) (value : Str) (out : OutRef) (a : ℕ) (fr fr' : Frame ρ) :
    Prop where
  put : Put (fun e => sameName e.key hv.key) true (fun e => { e with value }) (newElt hv value)
    (fr.w.shape.nextSlot r) (fr.w.shape.slots r) fr.w.cell (fr'.w.shape.slots r) fr'.w.cell a
  own : fr'.w.headersIn r = (fr.store r out (some a)).w.headersIn r
  stored : fr'.h = (fr.store r out (some a)).h
  grows : fr.w.shape.pool.Grows fr'.w.shape.pool
  status : fr'.w.status = fr.w.status

theorem setHeaderHelper_set (hw : hv.wildcard = false) (hop : hv.opcode = .set) (hv₀ : value ≠ [])
    (hwf : fr.w.shape.WellFormed r)
    (he : setHeaderHelper r hv value out fr = .ok (.ok, fr')) :
    ∃ a, HelperSet r hv value out a fr fr' := by
  by_cases hit : hv.Hit value fr.w r
  · cases Outcome.of_run hwf he with
    | unchanged hu =>
      rcases hu with ⟨hadd, -⟩ | ⟨-, hno, -⟩
      · cases hop.symm.trans hadd
      · exact absurd hit hno
    | cleared _ _ hnil => exact absurd hnil hv₀
    | created hc => exact absurd hit (hc.resolve_left (by simp [hop])).1
    | @kept a sh cell _ _ _ hfind hk =>
      simp only [hits_exact value hw] at hfind hk
      refine ⟨a, .written hfind (by simpa using hk.slots) fun s hs => ?_, rfl, rfl, hk.grows, ?_⟩
      · have hs' : s ∈ sh.slots r := hs
        rw [hk.slots] at hs'
        rw [Frame.cell_setList, hk.same s (List.mem_filter.mp hs').2]
        by_cases hsa : s = a
        · rw [hsa, Function.update_self, if_pos rfl]
        · rw [Function.update_of_ne hsa, if_neg hsa]
      · exact Frame.status_store _
  · rw [setHeaderHelper_absent out hwf hop hv₀ hit] at he
    obtain ⟨sh, hwf', hg, hs, hslots, rfl⟩ := create_inv hwf he
    have hnone : ((fr.w.shape.slots r).find? fun s =>
        sameName (fr.w.cell s).key hv.key) = none := by
      rw [List.find?_eq_none]
      intro s hs hname
      exact hit ⟨s, hs, by rwa [hits_exact value hw]⟩
    set fr₁ := (fr.setList sh (Function.update fr.w.cell (fr.w.shape.nextSlot r)
      (newElt hv value))).store r out (some (fr.w.shape.nextSlot r)) with hfr₁
    have hwf₁ : fr₁.w.shape.WellFormed r := by simpa [hfr₁] using hwf'
    obtain ⟨-, hkeep⟩ : (fr₁.propagate r out).w.shape.WellFormed r ∧
        (fr₁.propagate r out).w.shape.slots r = fr₁.w.shape.slots r := Frame.keep_propagate hwf₁
    refine ⟨_, .created hnone hs ?_ fun s hs' => ?_, ?_, ?_, ?_, ?_⟩
    · rw [hkeep]
      simpa [hfr₁] using hslots
    · rw [Frame.cell_propagate]
      simp [hfr₁, Function.update_apply]
    · rw [Frame.headersIn_propagate, hfr₁, Frame.store_setList]
      rfl
    · rw [Frame.local_propagate, hfr₁, Frame.store_setList]
      rfl
    · have hpool : (fr₁.propagate r out).w.shape.pool = fr₁.w.shape.pool := by
        unfold Frame.propagate
        split
        · rfl
        · exact propagate_eq.2.2.1
      rw [hpool]
      simpa [hfr₁] using hg
    · have hstatus : (fr₁.propagate r out).w.status = fr₁.w.status := by
        unfold Frame.propagate
        split
        · rfl
        · exact status_propagate
      rw [hstatus, hfr₁, Frame.status_store]
      rfl

section Step

variable (hw : hv.wildcard = false) (hop : hv.opcode = .set) (hv₀ : value ≠ [])
include hw hop hv₀

theorem setHeader_step (hhandler : hv.handler = .setHeader) (hoff : hv.offset = none)
    (hwf : fr.w.shape.WellFormed r) (he : setHeader r hv value fr = .ok (.ok, fr')) :
    ∃ a, SetStep r hv value a fr.w fr'.w := by
  obtain ⟨a, h⟩ := setHeaderHelper_set hw hop hv₀ hwf he
  have hd := (Outcome.of_run hwf he).derived
  refine ⟨a, ?_, ?_, ?_, h.grows, h.status⟩
  · have hwrite : hv.write value = fun e => { e with value } := by
      funext e
      rw [HeaderVal.write, hhandler]
    have hmerges : hv.merges = true := by simp [HeaderVal.merges, hhandler]
    rw [hwrite, hmerges]
    exact h.put
  · rw [h.own, HeaderVal.pointTo, hoff]
    rfl
  · rw [HeaderVal.Derives, hoff]
    exact hd

omit hw in
theorem setBuiltinHeader_step (h : fr.w.InStep r) (hsingle : f.handler ≠ .setBuiltinMultiHeader)
    (hw : hv.wildcard = false) (hname : sameName hv.key f.name = true)
    (hoff : hv.offset = some f) (he : setBuiltinHeader r hv value fr = .ok (.ok, fr')) :
    ∃ a, Put (fun e => sameName e.key hv.key) false (fun e => { e with hash := hv.hash, value })
        (newElt hv value) (fr.w.shape.nextSlot r) (fr.w.shape.slots r) fr.w.cell
        (fr'.w.shape.slots r) fr'.w.cell a ∧
      (fr'.w.headersIn r).ptr = Function.update (fr.w.headersIn r).ptr f (some a) ∧
      fr.w.shape.pool.Grows fr'.w.shape.pool ∧ fr'.w.status = fr.w.status := by
  have hfirst : (fr.w.headersIn r).ptr f = fr.w.first r hv.key :=
    (h.coherent f hsingle).trans (first_congr hname).symm
  unfold setBuiltinHeader at he
  rw [hoff] at he
  dsimp only at he
  cases hptr : (fr.w.headersIn r).ptr f with
  | none =>
    rw [hptr] at he hfirst
    obtain ⟨a, hs⟩ := setHeaderHelper_set hw hop hv₀ h.wellFormed he
    refine ⟨a, ?_, ?_, hs.grows, hs.status⟩
    · -- There is no entry to write.
      cases hs.put with
      | written hsome => cases hfirst.trans hsome
      | created hnone hn hl hcell => exact .created hnone hn hl hcell
    · rw [hs.own]
      simp [Frame.store, World.setPtr, World.setHeadersIn]
  | some a =>
    simp only [hptr, hop, hv₀, reduceCtorEq, if_false] at he
    cases he
    rw [hptr] at hfirst
    refine ⟨a, .written hfirst.symm (by simp) fun s _ => ?_, ?_, Pool.Grows.refl _, rfl⟩
    · simp [Function.update_apply]
    · rw [← hptr, Function.update_eq_self]
      rfl

omit hw in
theorem runHandlerIn_step (h : fr.w.InStep r) (hsingle : f.handler ≠ .setBuiltinMultiHeader)
    (hw : hv.wildcard = false) (hname : sameName hv.key f.name = true)
    (hhandler : hv.handler = f.handler) (hoff : hv.offset = some f)
    (he : runHandlerIn r hv value fr = .ok (.ok, fr')) : ∃ a, SetStep r hv value a fr.w fr'.w := by
  have hwf := h.wellFormed
  rcases runHandlerIn_single r fr hhandler hsingle hv₀ with
    ⟨_, he', -⟩ | ⟨fr₁, hpre, hslot, hder, he'⟩
  · cases he'.symm.trans he
  have he₁ := he'.symm.trans he
  have h₁ : fr₁.w.InStep r := h.congr (hpre.wellFormed hwf) (hpre.slots hwf)
    (fun s => by rw [hpre.cell]) hpre.ptr
  obtain ⟨a, hput, hptr, hg, hstatus⟩ :=
    setBuiltinHeader_step hop hv₀ h₁ hsingle hw hname hoff he₁
  obtain ⟨pool, hpool, hshape⟩ := hpre.shape
  have hwrite : hv.write value = fun e => { e with hash := hv.hash, value } := by
    funext e
    unfold HeaderVal.write
    rw [hhandler]
    cases hf : f.handler with
    | setHeader => cases f <;> cases hf
    | setBuiltinMultiHeader => exact absurd hf hsingle
    | _ => rfl
  have hmerges : hv.merges = false := by
    have hgeneric : f.handler ≠ .setHeader := by cases f <;> decide
    simp [HeaderVal.merges, hhandler, hsingle, hgeneric]
  refine ⟨a, ?_, ?_, ?_, ?_, hstatus.trans hpre.status⟩
  · rw [hwrite, hmerges, ← hslot, ← hpre.slots hwf, ← hpre.cell]
    exact hput
  · rw [hptr, hpre.ptr, HeaderVal.pointTo, hoff]
  · rw [HeaderVal.Derives, hoff, setBuiltinHeader_derived h₁.wellFormed he₁]
    exact hder
  · rw [hshape] at hg
    exact hpool.trans hg

theorem setBuiltinMultiHeader_step (hwf : fr.w.shape.WellFormed r)
    (hmulti : f.handler = .setBuiltinMultiHeader) (hhandler : hv.handler = f.handler)
    (hoff : hv.offset = some f) (he : setBuiltinMultiHeader r hv value fr = .ok (.ok, fr')) :
    fr.w.status r = 400 ∧ fr' = fr ∨
      fr.w.status r ≠ 400 ∧ ∃ a, SetStep r hv value a fr.w fr'.w := by
  rcases setBuiltinMultiHeader_inv hwf hoff he with hbad | ⟨hstatus, fr₁, he₁, hfr⟩
  · exact Or.inl hbad
  refine Or.inr ⟨hstatus, ?_⟩
  have hwf₀ : (fr.dropChain r f).w.shape.WellFormed r := by simpa using hwf
  obtain ⟨a, h⟩ := setHeaderHelper_set hw hop hv₀ hwf₀ he₁
  obtain ⟨-, a', ha', rfl⟩ := hfr.resolve_left fun hc => hv₀ hc.1
  obtain rfl : a' = a := Option.some.inj (Option.some.inj (ha'.symm.trans h.stored))
  have hd := (Outcome.of_run hwf₀ he₁).derived
  have hcell : ∀ s, (fr₁.linkHead r f a').w.cell s =
      if s = a' then { fr₁.w.cell a' with next := none } else fr₁.w.cell s := by
    intro s
    simp [Frame.linkHead, World.setList, World.setPtr, World.setHeadersIn, Function.update_apply]
  have hput := h.put.modify (g := fun e => { e with next := none }) fun s _ => hcell s
  rw [shape_dropChain, cell_dropChain] at hput
  have hwrite : hv.write value = fun e => { e with value, next := none } := by
    funext e
    rw [HeaderVal.write, hhandler, hmulti]
  have hmerges : hv.merges = true := by simp [HeaderVal.merges, hhandler, hmulti]
  refine ⟨a', ?_, ?_, ?_, ?_, ?_⟩
  · rw [hwrite, hmerges]
    exact hput
  · rw [HeaderVal.pointTo, hoff]
    have hown : fr₁.w.headersIn r = (fr.dropChain r f).w.headersIn r := h.own
    simp only [Frame.linkHead, World.setList, World.setPtr, World.setHeadersIn,
      Function.update_self, hown]
    funext g
    by_cases hg : g = f
    · simp [hg]
    · rw [Function.update_of_ne hg, Function.update_of_ne hg, ptr_dropChain_other hg]
  · simp only [HeaderVal.Derives, hoff, HeadersControl.Derives, hmulti]
    rw [derived_linkHead, hd, derived_dropChain]
  · have hg := h.grows
    rw [shape_dropChain] at hg
    exact hg
  · exact h.status.trans status_dropChain

theorem setBuiltinMultiHeader_returns (fr : Frame ρ) (hwf : fr.w.shape.WellFormed r)
    (hoff : hv.offset = some f) :
    ∃ rc fr', setBuiltinMultiHeader r hv value fr = .ok (rc, fr') ∧
      (fr.w.shape.pool.Reliable → rc = .ok) := by
  by_cases hstatus : fr.w.status r = 400
  · exact ⟨.ok, fr, by rw [setBuiltinMultiHeader, if_pos (Or.inl hstatus)], fun _ => rfl⟩
  have hwf₀ : (fr.dropChain r f).w.shape.WellFormed r := by simpa using hwf
  rcases setHeaderHelper_cases hv value .localVar _ hwf₀ with
    ⟨fr₁, he₁, -, hf⟩ | ⟨fr₁, he₁, ho⟩
  · refine ⟨.error, fr₁, setBuiltinMultiHeader_of_error hwf hstatus hoff he₁, fun hr => ?_⟩
    exact absurd (by simpa using hr) hf
  · obtain ⟨a, h⟩ := setHeaderHelper_set hw hop hv₀ hwf₀ he₁
    have hptr : (fr₁.w.headersIn r).ptr f = none := (ho.ptr_other (by simp)).trans ptr_dropChain
    refine ⟨.ok, fr₁.linkHead r f a, ?_, fun _ => rfl⟩
    rw [setBuiltinMultiHeader_of_helper hwf hstatus hoff he₁ hptr, if_neg hv₀, h.stored]
    rfl

omit hw in
theorem setBuiltinHeader_returns (fr : Frame ρ) (hwf : fr.w.shape.WellFormed r)
    (hoff : hv.offset = some f) :
    ∃ rc fr', setBuiltinHeader r hv value fr = .ok (rc, fr') ∧
      (fr.w.shape.pool.Reliable → rc = .ok) := by
  unfold setBuiltinHeader
  rw [hoff]
  dsimp only
  cases hptr : (fr.w.headersIn r).ptr f with
  | none =>
    obtain ⟨rc, fr', he, hrel, -⟩ := setHeaderHelper_run hv value (.field f) fr hwf
    exact ⟨rc, fr', he, hrel⟩
  | some a =>
    simp only [hop, hv₀, reduceCtorEq, if_false]
    exact ⟨.ok, _, rfl, fun _ => rfl⟩

theorem handleIn_returns (w : World ρ) (hwf : w.shape.WellFormed r)
    (hp : hv.Parsed setHandlersIn) :
    ∃ rc w', handleIn r hv value w = .ok (rc, w') ∧
      (w.shape.pool.Reliable → hv.Accepts value w.shape.pool → rc = .ok) := by
  have hlift : (∃ rc fr', runHandlerIn r hv value ⟨w, none⟩ = .ok (rc, fr') ∧
      (w.shape.pool.Reliable → hv.Accepts value w.shape.pool → rc = .ok)) →
      ∃ rc w', handleIn r hv value w = .ok (rc, w') ∧
        (w.shape.pool.Reliable → hv.Accepts value w.shape.pool → rc = .ok) := by
    rintro ⟨rc, fr', he, hrc⟩
    exact ⟨rc, fr'.w, by rw [handleIn, he]; rfl, hrc⟩
  apply hlift
  rcases hp.field_or_custom with ⟨f, hname, hhandler, hoff, -⟩ | ⟨-, hhandler⟩
  · by_cases hmulti : f.handler = .setBuiltinMultiHeader
    · obtain ⟨rc, fr', he, hrel⟩ := setBuiltinMultiHeader_returns hw hop hv₀ ⟨w, none⟩ hwf hoff
      refine ⟨rc, fr', ?_, fun hr _ => hrel hr⟩
      rw [runHandlerIn, hhandler, hmulti]
      exact he
    · rcases runHandlerIn_single r ⟨w, none⟩ hhandler hmulti hv₀ with
        ⟨fr', he, hrej⟩ | ⟨fr₁, hpre, -, -, he⟩
      · exact ⟨.error, fr', he, fun _ hacc => absurd (hacc f hoff) hrej⟩
      · obtain ⟨rc, fr', he', hrel⟩ :=
          setBuiltinHeader_returns hop hv₀ fr₁ (hpre.wellFormed hwf) hoff
        refine ⟨rc, fr', he.trans he', fun hr _ => hrel ?_⟩
        obtain ⟨pool, hg, hshape⟩ := hpre.shape
        rw [hshape]
        exact hg.reliable.mpr hr
  · obtain ⟨rc, fr', he, hrel, -⟩ := setHeaderHelper_run hv value .null ⟨w, none⟩ hwf
    refine ⟨rc, fr', ?_, fun hr _ => hrel hr⟩
    rw [runHandlerIn, hhandler]
    exact he

omit hw in
theorem handleIn_step (h : w.InStep r) (hp : hv.Parsed setHandlersIn) (hw : hv.wildcard = false)
    (he : handleIn r hv value w = .ok (.ok, w')) :
    (hv.handler = .setBuiltinMultiHeader ∧ w.status r = 400) ∧ w' = w ∨
      ¬ (hv.handler = .setBuiltinMultiHeader ∧ w.status r = 400) ∧
        ∃ a, SetStep r hv value a w w' := by
  obtain ⟨fr, hrun, rfl⟩ := handleIn_eq_ok he
  rcases hp.cases with ⟨e, hmem, -, hname, hhandler, hoff⟩ | ⟨-, hhandler, hoff⟩
  · obtain ⟨f, -, rfl⟩ := List.mem_map.mp hmem
    by_cases hmulti : f.handler = .setBuiltinMultiHeader
    · have hm : hv.handler = .setBuiltinMultiHeader := hhandler.trans hmulti
      rw [runHandlerIn, hm] at hrun
      rcases setBuiltinMultiHeader_step hw hop hv₀ h.wellFormed hmulti hhandler hoff hrun with
        ⟨hstatus, rfl⟩ | ⟨hstatus, hstep⟩
      · exact Or.inl ⟨⟨hm, hstatus⟩, rfl⟩
      · exact Or.inr ⟨fun hc => hstatus hc.2, hstep⟩
    · have hm : hv.handler ≠ .setBuiltinMultiHeader := by rwa [hhandler]
      exact Or.inr ⟨fun hc => hm hc.1,
        runHandlerIn_step hop hv₀ (by exact h) hmulti hw hname hhandler hoff hrun⟩
  · have hm : hv.handler = .setHeader := hhandler
    rw [runHandlerIn, hm] at hrun
    refine Or.inr ⟨fun hc => ?_, setHeader_step hw hop hv₀ hm hoff (by exact h.wellFormed)
      hrun⟩
    cases hm.symm.trans hc.1

end Step

structure SameState (r : ρ) (w w' : World ρ) : Prop where
  slots : w.shape.slots r = w'.shape.slots r
  cell : ∀ s ∈ w'.shape.slots r, w.cell s = w'.cell s
  ptr : (w.headersIn r).ptr = (w'.headersIn r).ptr
  derived : w.derived r = w'.derived r

section TwoSets

variable {hvA hvB : InVal} {a b : Str} {i j k : ℕ} {d d₁ d₂ d' : Derived}

/-- A `close` that the second value does not repeat, on a connection that was kept alive. -/
def StaysClosed (hvA : InVal) (a b : Str) (d : Derived) : Prop :=
  hvA.offset = some .connection ∧ connectionOf a = .close ∧ connectionOf b ≠ .close ∧
    ¬ (d.keepAliveN = -1 ∧ d.keepalive = false)

/-- The derived fields of the second value hide those of the first one, but for `close`. -/
theorem derives_last (hoff : hvA.offset = hvB.offset) (h₁ : hvA.Derives a d d₁)
    (h₂ : hvB.Derives b d₁ d₂) (h : hvB.Derives b d d') :
    d₂ = d' ↔ ¬ StaysClosed hvA a b d := by
  unfold HeaderVal.Derives at h₁ h₂ h
  unfold StaysClosed
  rw [← hoff] at h₂ h
  cases ho : hvA.offset with
  | none =>
    rw [ho] at h₁ h₂ h
    simp [h₁, h₂, h]
  | some f =>
    simp only [ho, HeadersControl.Derives] at h₁ h₂ h
    cases hf : f.handler with
    | setHostHeader =>
      simp only [hf] at h₁ h₂ h
      obtain ⟨_, _, rfl⟩ := h₁
      obtain ⟨host, hform, rfl⟩ := h₂
      obtain ⟨host', hform', rfl⟩ := h
      have hne : f ≠ .connection := by
        rintro rfl
        cases hf
      simp [hform.unique hform', hne]
    | setContentLengthHeader =>
      simp only [hf] at h₁ h₂ h
      obtain ⟨_, _, rfl⟩ := h₁
      obtain ⟨len, hlen, rfl⟩ := h₂
      obtain ⟨len', hlen', rfl⟩ := h
      obtain rfl := Option.some.inj (hlen.symm.trans hlen')
      have hne : f ≠ .connection := by
        rintro rfl
        cases hf
      simp [hne]
    | setConnectionHeader =>
      simp only [hf] at h₁ h₂ h
      subst h₁ h₂ h
      have hconn : f = .connection := by cases f <;> first | rfl | cases hf
      by_cases ha : connectionOf a = .close
      · by_cases hb : connectionOf b = .close
        · simp [hb]
        · constructor
          · rintro heq ⟨-, -, -, hopen⟩
            simp only [ha, hb, if_true, if_false, Derived.mk.injEq, true_and] at heq
            exact hopen ⟨heq.1.symm, heq.2.symm⟩
          · intro hclosed
            obtain ⟨hn, hk⟩ := not_not.mp fun hopen => hclosed ⟨by rw [hconn], ha, hb, hopen⟩
            simp [ha, hb, hn, hk]
      · simp [ha]
    | _ =>
      simp only [hf] at h₁ h₂ h
      have hne : f ≠ .connection := by
        rintro rfl
        cases hf
      simp [h₁, h₂, h, hne]

theorem InField.Accepts.reliable {pool pool' : Pool} (h : f.Accepts value pool)
    (hr : pool'.Reliable) : f.Accepts value pool' := by
  unfold InField.Accepts at h ⊢
  cases hf : f.handler with
  | setHostHeader =>
    simp only [hf] at h ⊢
    obtain ⟨host, hform⟩ := validateHost_accepts_iff.mp (by rw [h]; simp)
    exact (validateHost_of_form pool' false hform).2.1 hr
  | setContentLengthHeader =>
    simp only [hf] at h ⊢
    exact h
  | _ => trivial

variable (hpA : hvA.Parsed setHandlersIn) (hpB : hvB.Parsed setHandlersIn)
  (hkey : hvA.key = hvB.key) (hwA : hvA.wildcard = false) (hwB : hvB.wildcard = false)
  (hopA : hvA.opcode = .set) (hopB : hvB.opcode = .set) (ha : a ≠ []) (hb : b ≠ [])
include hpA hpB hkey hwA hwB hopA hopB ha hb

theorem last_set_iff (h : w.InStep r) (he₁ : handleIn r hvA a w = .ok (.ok, w₁))
    (he₂ : handleIn r hvB b w₁ = .ok (.ok, w₂)) (he' : handleIn r hvB b w = .ok (.ok, w')) :
    SameState r w₂ w' ↔ ¬ StaysClosed hvA a b (w.derived r) := by
  have hhandler : hvA.handler = hvB.handler := by rw [hpA.handler, hpB.handler, hkey]
  have hoff : hvA.offset = hvB.offset := by rw [hpA.offset, hpB.offset, hkey]
  have hhash : hvA.hash = hvB.hash := by rw [hpA.hash, hpB.hash, hkey]
  rcases handleIn_step hopA ha h hpA hwA he₁ with ⟨⟨hmulti, -⟩, rfl⟩ | ⟨hgood, i, h₁⟩
  · -- A bad request is left alone by both runs.
    obtain ⟨-, rfl⟩ := Prod.mk.inj (Except.ok.inj (he₂.symm.trans he'))
    refine iff_of_true ⟨rfl, fun _ _ => rfl, rfl, rfl⟩ ?_
    rintro ⟨hconn, -⟩
    rcases hpA.cases with ⟨e, hmem, -, -, hh, ho⟩ | ⟨-, -, hnone⟩
    · obtain ⟨f, -, rfl⟩ := List.mem_map.mp hmem
      obtain rfl : f = .connection := Option.some.inj (ho.symm.trans hconn)
      cases hh.symm.trans hmulti
    · cases hnone.symm.trans hconn
  · have hin₁ := handleIn_inStep h hpA hwA he₁
    have hgood' : ¬ (hvB.handler = .setBuiltinMultiHeader ∧ w.status r = 400) := by
      rwa [← hhandler]
    obtain ⟨-, j, h₂⟩ := (handleIn_step hopB hb hin₁ hpB hwB he₂).resolve_left fun hc =>
      hgood' (by rw [← h₁.status]; exact hc.1)
    obtain ⟨-, k, h'⟩ := (handleIn_step hopB hb h hpB hwB he').resolve_left fun hc => hgood' hc.1
    have hput := h₁.put
    have hmerges : hvA.merges = hvB.merges := by simp only [HeaderVal.merges, hhandler]
    rw [hkey, hmerges] at hput
    have hwrite : ∀ e, hvB.write b (hvA.write a e) = hvB.write b e := fun e => by
      unfold HeaderVal.write
      rw [hhandler]
      cases hvB.handler <;> rfl
    have hname : ∀ e, sameName (hvA.write a e).key hvB.key = sameName e.key hvB.key := fun e => by
      unfold HeaderVal.write
      cases hvA.handler <;> rfl
    have hmake : hvB.write b (newElt hvA a) = newElt hvB b := by
      unfold HeaderVal.write newElt
      simp only [ha, hb, if_false, hkey, hhash]
      cases hvB.handler <;> rfl
    have hnew : sameName (newElt hvA a).key hvB.key = true := by simp [newElt, hkey]
    obtain ⟨rfl, hslots, hcell⟩ := hput.last h₂.put h'.put hname hnew hwrite hmake
    rw [← derives_last hoff h₁.derived h₂.derived h'.derived]
    constructor
    · intro hs
      exact hs.derived
    · intro hd
      refine ⟨hslots, hcell, ?_, hd⟩
      rw [h₂.ptr, h₁.ptr, h'.ptr]
      unfold HeaderVal.pointTo
      rw [hoff]
      cases hvB.offset with
      | none => rfl
      | some f => simp

end TwoSets

/--
For every request with coherent typed pointers, and both rules `set` of the same name: where all
three runs return `NGX_OK`, the second value after the first one leaves the same request as the
second value alone, exactly if a `close` of the first value does not stay. With a reliable
allocator the runs return `NGX_OK` for the values that the handler accepts.
-/
theorem last_set_wins (w : World ρ) (r : ρ) (hvA hvB : InVal) (a b : Str)
    (hwf : w.shape.WellFormed r) (hc : w.Coherent r) (hpA : hvA.Parsed setHandlersIn)
    (hpB : hvB.Parsed setHandlersIn) (hkey : hvA.key = hvB.key) (hw : hvA.wildcard = false)
    (hopA : hvA.opcode = .set) (hopB : hvB.opcode = .set) (ha : a ≠ []) (hb : b ≠ []) :
    (w.shape.pool.Reliable → hvA.Accepts a w.shape.pool → hvB.Accepts b w.shape.pool →
      ∃ w₁ w₂ w', handleIn r hvA a w = .ok (.ok, w₁) ∧ handleIn r hvB b w₁ = .ok (.ok, w₂) ∧
        handleIn r hvB b w = .ok (.ok, w')) ∧
    ∀ w₁ w₂ w', handleIn r hvA a w = .ok (.ok, w₁) → handleIn r hvB b w₁ = .ok (.ok, w₂) →
      handleIn r hvB b w = .ok (.ok, w') →
      (SameState r w₂ w' ↔ ¬ StaysClosed hvA a b (w.derived r)) := by
  have hin : w.InStep r := ⟨hwf, hc⟩
  have hwB : hvB.wildcard = false := by rw [hpB.wildcard, ← hkey, ← hpA.wildcard, hw]
  refine ⟨fun hr hacc hacc' => ?_, fun w₁ w₂ w' he₁ he₂ he' =>
    last_set_iff hpA hpB hkey hw hwB hopA hopB ha hb hin he₁ he₂ he'⟩
  obtain ⟨rc, w₁, he₁, hrc⟩ := handleIn_returns hw hopA ha w hwf hpA
  obtain rfl := hrc hr hacc
  have hr₁ : w₁.shape.pool.Reliable := by
    rcases handleIn_step hopA ha hin hpA hw he₁ with ⟨-, rfl⟩ | ⟨-, i, h₁⟩
    · exact hr
    · exact h₁.grows.reliable.mpr hr
  have hwf₁ := (handleIn_inStep hin hpA hw he₁).wellFormed
  obtain ⟨rc, w₂, he₂, hrc⟩ := handleIn_returns hwB hopB hb w₁ hwf₁ hpB
  obtain rfl := hrc hr₁ fun f hf => (hacc' f hf).reliable hr₁
  obtain ⟨rc, w', he', hrc⟩ := handleIn_returns hwB hopB hb w hwf hpB
  obtain rfl := hrc hr hacc'
  exact ⟨w₁, w₂, w', he₁, he₂, he'⟩

/-- `set -n Host a` and `set Host b` on a request with two `Host` entries. -/
theorem last_set_wins_host : ∃ (hvA hvB : InVal) (w₁ w₂ w' : World Unit),
    parseDirective (fun _ => true) setHandlersIn 0
      [str "set", str "-n", str "Host", str "a.example"] = .ok hvA ∧
    parseDirective (fun _ => true) setHandlersIn 1
      [str "set", str "Host", str "b.example:80"] = .ok hvB ∧
    handleIn () hvA (str "a.example") twoHosts = .ok (.ok, w₁) ∧
    handleIn () hvB (str "b.example:80") w₁ = .ok (.ok, w₂) ∧
    handleIn () hvB (str "b.example:80") twoHosts = .ok (.ok, w') ∧ SameState () w₂ w' := by
  have hpA := (parseDirective_eq_ok (rfl : parseDirective (fun _ => true) setHandlersIn 0
    [str "set", str "-n", str "Host", str "a.example"] = .ok _)).2
  have hpB := (parseDirective_eq_ok (rfl : parseDirective (fun _ => true) setHandlersIn 1
    [str "set", str "Host", str "b.example:80"] = .ok _)).2
  obtain ⟨-, hlast⟩ := last_set_wins twoHosts () _ _ (str "a.example") (str "b.example:80")
    (single_wellFormed (by decide) (by decide)) (fun f _ => by cases f <;> decide) hpA hpB rfl rfl
    rfl rfl (by decide) (by decide)
  refine ⟨_, _, _, _, _, rfl, rfl, rfl, rfl, rfl, (hlast _ _ _ rfl rfl rfl).mpr ?_⟩
  rintro ⟨hconn, -⟩
  exact absurd hconn (by decide)

def keptAlive : World Unit :=
  .ofEntries [(str "Connection", str "keep-alive")] 4 fun f =>
    if f = .connection then some 0 else none

/--
`set -n Connection close` before `set Connection keep-alive` turns keep-alive off for good, where
the second rule alone leaves it on.
-/
theorem last_set_wins_close : keptAlive.shape.WellFormed () ∧ keptAlive.Coherent () ∧
    ∃ (hvA hvB : InVal) (w₁ w₂ w' : World Unit),
      parseDirective (fun _ => true) setHandlersIn 0
        [str "set", str "-n", str "Connection", str "close"] = .ok hvA ∧
      parseDirective (fun _ => true) setHandlersIn 1
        [str "set", str "Connection", str "keep-alive"] = .ok hvB ∧
      handleIn () hvA (str "close") keptAlive = .ok (.ok, w₁) ∧
      handleIn () hvB (str "keep-alive") w₁ = .ok (.ok, w₂) ∧
      handleIn () hvB (str "keep-alive") keptAlive = .ok (.ok, w') ∧
      w₂.keepalive () = false ∧ w'.keepalive () = true ∧
      (w₂.headersIn ()).connectionType = .keepAlive ∧ ¬ SameState () w₂ w' := by
  refine ⟨single_wellFormed (by decide) (by decide), fun f _ => by cases f <;> decide,
    _, _, _, _, _, rfl, rfl, rfl, rfl, rfl, by decide, by decide, by decide, fun h => ?_⟩
  exact absurd (congrArg Derived.keepalive h.derived) (by decide)

end HeadersControl
