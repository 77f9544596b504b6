import HeadersControl.Request.MultiValued
import HeadersControl.Request.NoOps
import HeadersControl.Request.Operators

/-! # Wildcard rules on requests

A wildcard rule `clear` takes the entries that it matches out of the list, and knows
nothing of the typed pointers to them. The exact rules `clear` for the same names
also reset the pointers and the fields that are derived from the values.
-/

namespace HeadersControl

open Segments Segments.Shape

variable {ρ : Type} [DecidableEq ρ] {r : ρ} {hv : InVal} {f : InField} {n : Str} {names : List Str}
  {out : OutRef} {fr fr' : Frame ρ} {w w' w₁ w₂ : World ρ}

def exactClear (name : Str) : InVal where
  value := none
  hash := hashKeyLc name
  key := name
  handler := (setHandlersIn.find name).elim setHandlersIn.generic SetHeader.handler
  offset := (setHandlersIn.find name).bind SetHeader.offset
  opcode := .clear
  filter := none
  negative := false
  next := false
  id := 0
  wildcard := false

theorem custom_of_find (h : setHandlersIn.find n = none) (f : InField) :
    sameName n f.name = false := by
  simpa using List.find?_eq_none.mp h ⟨f.name, some f, f.handler⟩ (List.mem_map_of_mem f.mem_all)

theorem exactClear_cases (n : Str) :
    (∃ f : InField, sameName n f.name = true ∧ (exactClear n).handler = f.handler ∧
      (exactClear n).offset = some f) ∨
    (∀ f : InField, sameName n f.name = false) ∧ (exactClear n).handler = .setHeader := by
  unfold exactClear
  cases hf : setHandlersIn.find n with
  | none => exact Or.inr ⟨custom_of_find hf, rfl⟩
  | some e =>
    obtain ⟨f, -, rfl⟩ := List.mem_map.mp (List.mem_of_find?_eq_some hf)
    exact Or.inl ⟨f, by simpa using List.find?_some hf, rfl, rfl⟩

def clearNames (r : ρ) : List Str → World ρ → Except Fault (Rc × World ρ)
  | [], w => .ok (.ok, w)
  | n :: names, w => do
      let (rc, w) ← handleIn r (exactClear n) [] w
      if rc = .error then pure (.error, w) else clearNames r names w

/-- A typed pointer designates an entry of its name in the list. -/
def World.Backed (w : World ρ) (r : ρ) : Prop :=
  ∀ f h, (w.headersIn r).ptr f = some h →
    h ∈ w.shape.slots r ∧ sameName (w.cell h).key f.name = true

omit [DecidableEq ρ] in
theorem World.Coherent.backed (hc : w.Coherent r)
    (hchain : ∀ f : InField, f.handler = .setBuiltinMultiHeader → w.ChainListed r f) :
    w.Backed r := by
  intro f h hptr
  by_cases hf : f.handler = .setBuiltinMultiHeader
  · have hl := hchain f hf
    unfold ChainListed at hl
    cases hs : (w.shape.slots r).filter fun s => sameName (w.cell s).key f.name with
    | nil =>
      rw [hs] at hl
      cases hptr.symm.trans hl
    | cons x xs =>
      rw [hs] at hl
      obtain rfl := Option.some.inj (hptr.symm.trans hl.1)
      exact List.mem_filter.mp (hs ▸ List.mem_cons_self)
  · have hfirst : w.first r f.name = some h := (hc f hf).symm.trans hptr
    exact ⟨List.mem_of_find?_eq_some hfirst, by simpa using List.find?_some hfirst⟩

structure Cleaned (r : ρ) (p : Str → Bool) (w w' : World ρ) : Prop where
  wellFormed : w'.shape.WellFormed r
  grows : w.shape.pool.Grows w'.shape.pool
  slots : w'.shape.slots r = (w.shape.slots r).filter fun s => !p (w.cell s).key
  cell : ∀ s ∈ w'.shape.slots r, w'.cell s = w.cell s
  status : w'.status = w.status

namespace Cleaned

variable {p q : Str → Bool}

omit [DecidableEq ρ]

theorem entries (h : Cleaned r p w w') :
    w'.entries r = (w.entries r).filter fun e => !p e.1 := by
  unfold World.entries
  rw [List.filter_map, h.slots]
  apply List.map_congr_left
  intro s hs
  rw [h.cell s (h.slots ▸ hs)]

theorem trans (h : Cleaned r p w w₁) (h' : Cleaned r q w₁ w₂) :
    Cleaned r (fun k => p k || q k) w w₂ := by
  have hslots : w₂.shape.slots r = (w₁.shape.slots r).filter fun s => !q (w.cell s).key := by
    rw [h'.slots]
    exact List.filter_congr fun s hs => by rw [h.cell s hs]
  refine ⟨h'.wellFormed, h.grows.trans h'.grows, ?_, fun s hs => ?_, h'.status.trans h.status⟩
  · rw [hslots, h.slots, List.filter_filter]
    exact List.filter_congr fun s _ => by rw [Bool.not_or, Bool.and_comm]
  · rw [h'.cell s hs, h.cell s]
    rw [hslots] at hs
    exact (List.mem_filter.mp hs).1

theorem congr (h : Cleaned r p w w')
    (hpq : ∀ s ∈ w.shape.slots r, p (w.cell s).key = q (w.cell s).key) : Cleaned r q w w' where
  wellFormed := h.wellFormed
  grows := h.grows
  slots := h.slots.trans (List.filter_congr fun s hs => by rw [hpq s hs])
  cell := h.cell
  status := h.status

theorem backed (h : Cleaned r p w w') (hb : w.Backed r)
    (hptr : ∀ f a, (w'.headersIn r).ptr f = some a →
      (w.headersIn r).ptr f = some a ∧ p (w.cell a).key = false) : w'.Backed r := by
  intro f a hfa
  obtain ⟨hold, hkeep⟩ := hptr f a hfa
  obtain ⟨ha, hname⟩ := hb f a hold
  have hmem : a ∈ w'.shape.slots r := by
    rw [h.slots]
    exact List.mem_filter.mpr ⟨ha, by simp [hkeep]⟩
  exact ⟨hmem, by rw [h.cell a hmem]; exact hname⟩

end Cleaned

/-- What an exact rule `clear` does: the typed pointer of the name is reset with them. -/
structure ClearStep (r : ρ) (n : Str) (w w' : World ρ) : Prop
    extends Cleaned r (fun k => sameName k n) w w' where
  ptr : ∀ g : InField, (w'.headersIn r).ptr g =
    if sameName n g.name = true then none else (w.headersIn r).ptr g
  custom : (∀ g : InField, sameName n g.name = false) → w'.headersIn r = w.headersIn r

def Blocked (r : ρ) (n : Str) (w : World ρ) : Prop :=
  w.status r = 400 ∧ ∃ f : InField, sameName n f.name = true ∧ f.handler = .setBuiltinMultiHeader

section Helper

theorem Outcome.of_clear (hop : hv.opcode = .clear) (ho : Outcome r hv [] out fr fr') :
    ¬ hv.Hit [] fr.w r ∧ fr' = fr ∨
    hv.Hit [] fr.w r ∧ ∃ sh cell, fr' = (fr.store r out none).setList sh cell ∧
      Kept r fr.w.shape fr.w.cell (fun s => !hv.hits [] (fr.w.cell s).key) sh cell := by
  cases ho with
  | unchanged hu =>
    rcases hu with ⟨hadd, -⟩ | ⟨-, hno, -⟩
    · cases hop.symm.trans hadd
    · exact Or.inl ⟨hno, rfl⟩
  | cleared _ _ _ hit hk => exact Or.inr ⟨hit, _, _, rfl, hk⟩
  | kept _ _ hne => exact absurd rfl hne
  | created hc =>
    rcases hc with happ | ⟨-, hne, -⟩
    · cases hop.symm.trans happ
    · exact absurd rfl hne

theorem Outcome.cleaned (hop : hv.opcode = .clear) (hwf : fr.w.shape.WellFormed r)
    (ho : Outcome r hv [] out fr fr') : Cleaned r hv.matchesName fr.w fr'.w := by
  rcases ho.of_clear hop with ⟨hno, rfl⟩ | ⟨-, sh, cell, rfl, hk⟩
  · have hnone : ∀ s ∈ fr'.w.shape.slots r, (!hv.matchesName (fr'.w.cell s).key) = true := by
      intro s hs
      rw [Bool.not_eq_true', ← Bool.not_eq_true]
      intro hm
      exact hno ⟨s, hs, by rwa [hits_eq fun _ => rfl]⟩
    exact ⟨hwf, Pool.Grows.refl _, (List.filter_eq_self.mpr hnone).symm, fun _ _ => rfl, rfl⟩
  · simp only [hits_eq fun _ => rfl] at hk
    refine ⟨hk.wellFormed, hk.grows, hk.slots, fun s hs => ?_, by cases out <;> rfl⟩
    have hs' : s ∈ sh.slots r := hs
    rw [hk.slots] at hs'
    exact hk.same s (List.mem_filter.mp hs').2

theorem Outcome.cleaned_exact (hw : hv.wildcard = false) (hop : hv.opcode = .clear)
    (hwf : fr.w.shape.WellFormed r) (ho : Outcome r hv [] out fr fr') :
    Cleaned r (fun k => sameName k hv.key) fr.w fr'.w :=
  (ho.cleaned hop hwf).congr fun _ _ => matchesName_exact hw _

theorem Outcome.headersIn_of_clear (hop : hv.opcode = .clear)
    (ho : Outcome r hv [] .null fr fr') : fr'.w.headersIn = fr.w.headersIn := by
  rcases ho.of_clear hop with ⟨-, rfl⟩ | ⟨-, sh, cell, rfl, -⟩
  · rfl
  · rfl

theorem Outcome.ptr_of_hit (hop : hv.opcode = .clear) (hit : hv.Hit [] fr.w r)
    (ho : Outcome r hv [] (.field f) fr fr') : (fr'.w.headersIn r).ptr f = none := by
  rcases ho.of_clear hop with ⟨hno, -⟩ | ⟨-, sh, cell, rfl, -⟩
  · exact absurd hit hno
  · exact fr.ptr_store_self r none f

end Helper

section Step

theorem setHeader_clearStep (fr : Frame ρ) (hw : hv.wildcard = false) (hop : hv.opcode = .clear)
    (hwf : fr.w.shape.WellFormed r) (hname : ∀ f : InField, sameName hv.key f.name = false) :
    ∃ rc fr', setHeader r hv [] fr = .ok (rc, fr') ∧ (fr.w.shape.pool.Reliable → rc = .ok) ∧
      (rc = .ok → ClearStep r hv.key fr.w fr'.w) := by
  unfold setHeader
  obtain ⟨rc, fr', he, hrel, hok⟩ := setHeaderHelper_run hv [] .null fr hwf
  refine ⟨rc, fr', he, hrel, fun hrc => ?_⟩
  have ho := hok hrc
  have hhead := ho.headersIn_of_clear hop
  refine ⟨ho.cleaned_exact hw hop hwf, fun g => ?_, fun _ => ?_⟩
  · rw [hhead, if_neg (by simp [hname g])]
  · rw [hhead]

omit [DecidableEq ρ] in
theorem named_iff (hname : sameName n f.name = true) (g : InField) :
    sameName n g.name = true ↔ g = f := by
  constructor
  · intro hg
    by_contra hne
    rw [sameName_congr hname, sameName_ne (Ne.symm hne)] at hg
    cases hg
  · rintro rfl
    exact hname

theorem Outcome.clearStep_field (hw : hv.wildcard = false) (hop : hv.opcode = .clear)
    (hwf : fr.w.shape.WellFormed r) (hname : sameName hv.key f.name = true)
    (hnull : ¬ hv.Hit [] fr.w r → (fr.w.headersIn r).ptr f = none)
    (ho : Outcome r hv [] (.field f) fr fr') : ClearStep r hv.key fr.w fr'.w := by
  refine ⟨ho.cleaned_exact hw hop hwf, fun g => ?_, fun hno => by simp [hno f] at hname⟩
  simp only [named_iff hname]
  by_cases hg : g = f
  · subst hg
    rw [if_pos rfl]
    by_cases hit : hv.Hit [] fr.w r
    · exact ho.ptr_of_hit hop hit
    · rcases ho.of_clear hop with ⟨-, rfl⟩ | ⟨hit', -⟩
      · exact hnull hit
      · exact absurd hit' hit
  · rw [if_neg hg, ho.ptr_other (by simpa using Ne.symm hg)]

omit [DecidableEq ρ] in
theorem ClearStep.of_setCell {a : ℕ} {e : TableElt} (hkey : e.key = (fr.w.cell a).key)
    (ha : sameName (fr.w.cell a).key n = true)
    (hs : ClearStep r n (fr.setList fr.w.shape (Function.update fr.w.cell a e)).w w') :
    ClearStep r n fr.w w' := by
  have hkeys : ∀ s, (Function.update fr.w.cell a e s).key = (fr.w.cell s).key := fun s => by
    by_cases hsa : s = a <;> simp [hsa, hkey]
  have hslots : w'.shape.slots r = (fr.w.shape.slots r).filter
      fun s => !sameName (fr.w.cell s).key n := by
    rw [hs.slots]
    simp only [Frame.shape_setList, Frame.cell_setList, hkeys]
  refine ⟨⟨hs.wellFormed, hs.grows, hslots, fun s hmem => ?_, hs.status⟩, hs.ptr, hs.custom⟩
  rw [hs.cell s hmem, Frame.cell_setList, Function.update_of_ne]
  rintro rfl
  rw [hslots, List.mem_filter, ha] at hmem
  cases hmem.2

/-- The handler of a single-valued field, given the address of its pointer. -/
theorem setBuiltinHeader_clearStep (fr : Frame ρ) (hw : hv.wildcard = false)
    (hop : hv.opcode = .clear) (hwf : fr.w.shape.WellFormed r) (hb : fr.w.Backed r)
    (hname : sameName hv.key f.name = true) (hoff : hv.offset = some f) :
    ∃ rc fr', setBuiltinHeader r hv [] fr = .ok (rc, fr') ∧
      (fr.w.shape.pool.Reliable → rc = .ok) ∧ (rc = .ok → ClearStep r hv.key fr.w fr'.w) := by
  unfold setBuiltinHeader
  rw [hoff]
  dsimp only
  cases hptr : (fr.w.headersIn r).ptr f with
  | none =>
    dsimp only
    obtain ⟨rc, fr', he, hrel, hok⟩ := setHeaderHelper_run hv [] (.field f) fr hwf
    exact ⟨rc, fr', he, hrel, fun hrc =>
      (hok hrc).clearStep_field hw hop hwf hname fun _ => hptr⟩
  | some a =>
    obtain ⟨ha, hnamed⟩ := hb f a hptr
    have hkey : sameName (fr.w.cell a).key hv.key = true := by
      rw [sameName_comm, sameName_congr hname, sameName_comm]
      exact hnamed
    dsimp only
    rw [if_neg (by simp [hop]), if_neg (by simp [hop]), if_pos rfl]
    set fr₁ := fr.setList fr.w.shape
      (Function.update fr.w.cell a { fr.w.cell a with hash := 0, value := [] }) with hfr₁
    have hit : hv.Hit [] fr₁.w r := ⟨a, ha, by rw [hits_exact _ hw]; simpa [hfr₁] using hkey⟩
    obtain ⟨rc, fr', he, hrel, hok⟩ := setHeaderHelper_run hv [] (.field f) fr₁ hwf
    refine ⟨rc, fr', he, hrel, fun hrc => ?_⟩
    have hstep : ClearStep r hv.key fr₁.w fr'.w :=
      (hok hrc).clearStep_field hw hop hwf hname fun hno => absurd hit hno
    have hsame : ({ fr.w.cell a with hash := 0, value := [] } : TableElt).key =
        (fr.w.cell a).key := rfl
    exact hstep.of_setCell hsame hkey

theorem status_dropChain : (fr.dropChain r f).w.status = fr.w.status := by
  unfold Frame.dropChain
  split <;> rfl

theorem ptr_dropChain_other {g : InField} (hg : g ≠ f) :
    ((fr.dropChain r f).w.headersIn r).ptr g = (fr.w.headersIn r).ptr g := by
  unfold Frame.dropChain
  split
  · simp [World.setPtr, World.setHeadersIn, hg]
  · rfl

theorem setBuiltinMultiHeader_clearStep (fr : Frame ρ) (hw : hv.wildcard = false)
    (hop : hv.opcode = .clear) (hwf : fr.w.shape.WellFormed r)
    (hname : sameName hv.key f.name = true) (hoff : hv.offset = some f)
    (hstatus : fr.w.status r ≠ 400) :
    ∃ rc fr', setBuiltinMultiHeader r hv [] fr = .ok (rc, fr') ∧
      (fr.w.shape.pool.Reliable → rc = .ok) ∧ (rc = .ok → ClearStep r hv.key fr.w fr'.w) := by
  have hwf₀ : (fr.dropChain r f).w.shape.WellFormed r := by simpa using hwf
  rcases setHeaderHelper_cases hv [] .localVar (fr.dropChain r f) hwf₀ with
    ⟨fr', he, -, hf⟩ | ⟨fr', he, ho⟩
  · exact ⟨.error, fr', setBuiltinMultiHeader_of_error hwf hstatus hoff he,
      fun hr => absurd (by simpa using hr) hf, fun hc => by cases hc⟩
  · have hptr : ∀ g, (fr'.w.headersIn r).ptr g = ((fr.dropChain r f).w.headersIn r).ptr g :=
      fun g => ho.ptr_other (by simp)
    have hrun := setBuiltinMultiHeader_of_helper hwf hstatus hoff he ((hptr f).trans ptr_dropChain)
    have hc := ho.cleaned_exact hw hop hwf₀
    rw [if_pos rfl] at hrun
    refine ⟨.ok, fr', hrun, fun _ => rfl, fun _ => ⟨⟨hc.wellFormed, ?_, ?_, ?_, ?_⟩, fun g => ?_,
      fun hno => by simp [hno f] at hname⟩⟩
    · simpa using hc.grows
    · simpa using hc.slots
    · simpa using hc.cell
    · rw [hc.status, status_dropChain]
    · simp only [named_iff hname]
      by_cases hg : g = f
      · rw [if_pos hg, hptr, hg, ptr_dropChain]
      · rw [if_neg hg, hptr, ptr_dropChain_other hg]

theorem runHandlerIn_nil (fr : Frame ρ) (hhandler : hv.handler = f.handler)
    (hsingle : f.handler ≠ .setBuiltinMultiHeader) :
    ∃ g : HeadersIn → HeadersIn, (∀ x, (g x).ptr = x.ptr) ∧
      runHandlerIn r hv [] fr = setBuiltinHeader r hv [] (fr.modifyIn r g) := by
  have hid : fr.modifyIn r id = fr := by simp [Frame.modifyIn, World.setHeadersIn]
  unfold runHandlerIn
  rw [hhandler]
  cases hf : f.handler with
  | setHeader => cases f <;> cases hf
  | setBuiltinMultiHeader => exact absurd hf hsingle
  | setBuiltinHeader => exact ⟨id, fun _ => rfl, by rw [hid]⟩
  | setHostHeader => exact ⟨fun h => { h with server := [] }, fun _ => rfl, rfl⟩
  | setConnectionHeader =>
    exact ⟨fun h => { h with connectionType := .unknown }, fun _ => rfl, rfl⟩
  | setUserAgentHeader => exact ⟨fun h => { h with browser := noBrowser }, fun _ => rfl, rfl⟩
  | setContentLengthHeader =>
    exact ⟨fun h => { h with contentLengthN := -1 }, fun _ => rfl, rfl⟩

theorem ClearStep.of_modifyIn {g : HeadersIn → HeadersIn} (hg : ∀ x, (g x).ptr = x.ptr)
    (hname : sameName n f.name = true) (hs : ClearStep r n (fr.modifyIn r g).w w') :
    ClearStep r n fr.w w' := by
  refine ⟨⟨hs.wellFormed, hs.grows, hs.slots, hs.cell, hs.status⟩, fun x => ?_, fun hno => ?_⟩
  · rw [hs.ptr]
    simp [Frame.modifyIn, World.setHeadersIn, hg]
  · rw [hno f] at hname
    cases hname

theorem exactClear_step (hwf : w.shape.WellFormed r) (hb : w.Backed r) :
    (Blocked r n w ∧ handleIn r (exactClear n) [] w = .ok (.ok, w)) ∨
    ¬ Blocked r n w ∧ ∃ rc w', handleIn r (exactClear n) [] w = .ok (rc, w') ∧
      (w.shape.pool.Reliable → rc = .ok) ∧ (rc = .ok → ClearStep r n w w') := by
  have hlift : (∃ rc fr', runHandlerIn r (exactClear n) [] ⟨w, none⟩ = .ok (rc, fr') ∧
      (w.shape.pool.Reliable → rc = .ok) ∧ (rc = .ok → ClearStep r n w fr'.w)) →
      ∃ rc w', handleIn r (exactClear n) [] w = .ok (rc, w') ∧
        (w.shape.pool.Reliable → rc = .ok) ∧ (rc = .ok → ClearStep r n w w') := by
    rintro ⟨rc, fr', he, hrc, hstep⟩
    exact ⟨rc, fr'.w, by rw [handleIn, he]; rfl, hrc, hstep⟩
  rcases exactClear_cases n with ⟨f, hname, hhandler, hoff⟩ | ⟨hname, hhandler⟩
  · by_cases hmulti : f.handler = .setBuiltinMultiHeader
    · have hrun : runHandlerIn r (exactClear n) [] ⟨w, none⟩ =
          setBuiltinMultiHeader r (exactClear n) [] ⟨w, none⟩ := by
        unfold runHandlerIn
        rw [hhandler, hmulti]
      by_cases hstatus : w.status r = 400
      · refine Or.inl ⟨⟨hstatus, f, hname, hmulti⟩, ?_⟩
        rw [handleIn, hrun, setBuiltinMultiHeader, if_pos (Or.inl hstatus)]
        rfl
      · refine Or.inr ⟨fun h => hstatus h.1, hlift ?_⟩
        rw [hrun]
        exact setBuiltinMultiHeader_clearStep ⟨w, none⟩ rfl rfl hwf hname hoff hstatus
    · refine Or.inr ⟨?_, hlift ?_⟩
      · rintro ⟨-, g, hg, hgm⟩
        rw [(named_iff hname g).mp hg] at hgm
        exact hmulti hgm
      · obtain ⟨g, hg, hrun⟩ := runHandlerIn_nil (r := r) ⟨w, none⟩ hhandler hmulti
        have hb' : (Frame.modifyIn ⟨w, none⟩ r g).w.Backed r := by
          simpa [World.Backed, Frame.modifyIn, World.setHeadersIn, hg] using hb
        obtain ⟨rc, fr', he, hrc, hstep⟩ :=
          setBuiltinHeader_clearStep _ rfl rfl hwf hb' hname hoff
        exact ⟨rc, fr', hrun.trans he, hrc, fun h => (hstep h).of_modifyIn hg hname⟩
  · have hrun : runHandlerIn r (exactClear n) [] ⟨w, none⟩ =
        setHeader r (exactClear n) [] ⟨w, none⟩ := by
      unfold runHandlerIn
      rw [hhandler]
    refine Or.inr ⟨?_, hlift ?_⟩
    · rintro ⟨-, g, hg, -⟩
      rw [hname g] at hg
      cases hg
    · rw [hrun]
      exact setHeader_clearStep ⟨w, none⟩ rfl rfl hwf hname

end Step

section Run

inductive ClearRun (r : ρ) : List Str → World ρ → World ρ → Prop
  | nil (w : World ρ) : ClearRun r [] w w
  | blocked {n : Str} {names : List Str} {w w' : World ρ} :
      Blocked r n w → ClearRun r names w w' → ClearRun r (n :: names) w w'
  | step {n : Str} {names : List Str} {w w₁ w' : World ρ} :
      ¬ Blocked r n w → ClearStep r n w w₁ → ClearRun r names w₁ w' →
      ClearRun r (n :: names) w w'

omit [DecidableEq ρ] in
theorem ClearStep.backed (hs : ClearStep r n w w') (hb : w.Backed r) : w'.Backed r := by
  refine hs.toCleaned.backed hb fun f a hfa => ?_
  rw [hs.ptr] at hfa
  split at hfa
  · cases hfa
  · rename_i hne
    refine ⟨hfa, ?_⟩
    rw [sameName_congr (hb f a hfa).2, sameName_comm]
    exact Bool.eq_false_iff.mpr hne

theorem clearNames_run (names : List Str) (hwf : w.shape.WellFormed r) (hb : w.Backed r) :
    ∃ rc w', clearNames r names w = .ok (rc, w') ∧ (w.shape.pool.Reliable → rc = .ok) ∧
      (rc = .ok → ClearRun r names w w') := by
  induction names generalizing w with
  | nil => exact ⟨.ok, w, rfl, fun _ => rfl, fun _ => .nil w⟩
  | cons n names ih =>
    rcases exactClear_step hwf hb with ⟨hblock, he⟩ | ⟨hfree, rc, w₁, he, hrel, hok⟩
    · obtain ⟨rc, w', he', hrel, hok⟩ := ih hwf hb
      refine ⟨rc, w', ?_, hrel, fun h => .blocked hblock (hok h)⟩
      rw [clearNames, he]
      exact he'
    · cases rc with
      | declined => exact absurd he handleIn_ne_declined
      | error =>
        refine ⟨.error, w₁, ?_, hrel, nofun⟩
        rw [clearNames, he]
        rfl
      | ok =>
        have hs := hok rfl
        obtain ⟨rc, w', he', hrel', hok'⟩ := ih hs.wellFormed (hs.backed hb)
        refine ⟨rc, w', ?_, fun hr => hrel' (hs.grows.reliable.mpr hr), fun h =>
          .step hfree hs (hok' h)⟩
        rw [clearNames, he]
        exact he'

omit [DecidableEq ρ] in
theorem ClearRun.custom (hr : ClearRun r names w w') (hwf : w.shape.WellFormed r)
    (hnames : ∀ n ∈ names, ∀ f : InField, sameName n f.name = false) :
    Cleaned r (fun k => names.any fun n => sameName k n) w w' ∧
      w'.headersIn r = w.headersIn r := by
  induction hr with
  | nil w =>
    exact ⟨⟨hwf, Pool.Grows.refl _, by simp, fun _ _ => rfl, rfl⟩, rfl⟩
  | blocked hb =>
    obtain ⟨-, f, hf, -⟩ := hb
    rw [hnames _ List.mem_cons_self f] at hf
    cases hf
  | step _ hs _ ih =>
    obtain ⟨hc, hhead⟩ := ih hs.wellFormed fun n hn => hnames n (List.mem_cons_of_mem _ hn)
    refine ⟨?_, hhead.trans (hs.custom (hnames _ List.mem_cons_self))⟩
    simpa only [List.any_cons] using hs.toCleaned.trans hc

omit [DecidableEq ρ] in
theorem ClearRun.ptr_none (hr : ClearRun r names w w')
    (hptr : (w.headersIn r).ptr f = none) : (w'.headersIn r).ptr f = none := by
  induction hr with
  | nil => exact hptr
  | blocked _ _ ih => exact ih hptr
  | step _ hs _ ih =>
    apply ih
    rw [hs.ptr, hptr, ite_self]

omit [DecidableEq ρ] in
theorem ClearRun.ptr_of_named (hr : ClearRun r names w w') (hn : n ∈ names)
    (hname : sameName n f.name = true)
    (hfree : ¬ (w.status r = 400 ∧ f.handler = .setBuiltinMultiHeader)) :
    (w'.headersIn r).ptr f = none := by
  induction hr with
  | nil => cases hn
  | blocked hb _ ih =>
    rcases List.mem_cons.mp hn with rfl | hn
    · obtain ⟨hstatus, g, hg, hmulti⟩ := hb
      rw [(named_iff hname g).mp hg] at hmulti
      exact absurd ⟨hstatus, hmulti⟩ hfree
    · exact ih hn hfree
  | step _ hs hrest ih =>
    rcases List.mem_cons.mp hn with rfl | hn
    · exact hrest.ptr_none (by rw [hs.ptr, if_pos hname])
    · exact ih hn (by rwa [hs.status])

omit [DecidableEq ρ] in
theorem ClearRun.entry_of_blocked {e : Str × Str} (hr : ClearRun r names w w')
    (hstatus : w.status r = 400) (hmulti : f.handler = .setBuiltinMultiHeader)
    (hname : sameName e.1 f.name = true) (he : e ∈ w.entries r) : e ∈ w'.entries r := by
  induction hr with
  | nil => exact he
  | blocked _ _ ih => exact ih hstatus he
  | @step n _ _ _ _ hfree hs _ ih =>
    refine ih (by rw [hs.status, hstatus]) ?_
    rw [hs.toCleaned.entries, List.mem_filter, Bool.not_eq_true', ← Bool.not_eq_true]
    refine ⟨he, fun hen => hfree ⟨hstatus, f, ?_, hmulti⟩⟩
    rw [← sameName_congr hen]
    exact hname

end Run

section Wildcard

theorem wildcard_step (hwf : w.shape.WellFormed r) (hp : hv.Parsed setHandlersIn)
    (hop : hv.opcode = .clear) (hw : hv.wildcard = true) :
    ∃ rc w', handleIn r hv [] w = .ok (rc, w') ∧ (w.shape.pool.Reliable → rc = .ok) ∧
      (rc = .ok → Cleaned r hv.matchesName w w' ∧ w'.headersIn = w.headersIn) := by
  have hgen : hv.handler = .setHeader := by
    rcases hp.field_or_custom with ⟨f, hname, -⟩ | ⟨-, hhandler⟩
    · cases hw.symm.trans (hp.exact_of_field hname)
    · exact hhandler
  have hrun : runHandlerIn r hv [] ⟨w, none⟩ = setHeaderHelper r hv [] .null ⟨w, none⟩ := by
    unfold runHandlerIn
    rw [hgen]
    rfl
  unfold handleIn
  rw [hrun]
  obtain ⟨rc, fr', he, hrel, hok⟩ := setHeaderHelper_run hv [] .null ⟨w, none⟩ hwf
  refine ⟨rc, fr'.w, by rw [he]; rfl, hrel, fun hrc => ?_⟩
  exact ⟨(hok hrc).cleaned hop hwf, (hok hrc).headersIn_of_clear hop⟩

end Wildcard

structure Covers (hv : InVal) (es : List (Str × Str)) (names : List Str) : Prop where
  mem : ∀ n ∈ names, ∃ e ∈ es, hv.matchesName e.1 = true ∧ e.1 = n
  all : ∀ e ∈ es, hv.matchesName e.1 = true → ∃ n ∈ names, sameName e.1 n = true

def Agree (r : ρ) (w w' : World ρ) : Prop :=
  w.entries r = w'.entries r ∧ w.headersIn r = w'.headersIn r

omit [DecidableEq ρ] in
theorem agree_of_custom (hwf : w.shape.WellFormed r) (hb : w.Backed r)
    (hcov : Covers hv (w.entries r) names) (hc : Cleaned r hv.matchesName w w₁)
    (hhead : w₁.headersIn = w.headersIn) (hr : ClearRun r names w w₂)
    (hno : ∀ e ∈ w.entries r, hv.matchesName e.1 = true → ∀ f : InField,
      sameName e.1 f.name = false) : Agree r w₁ w₂ ∧ w₁.Backed r := by
  have hnames : ∀ n ∈ names, ∀ f : InField, sameName n f.name = false := by
    intro n hn
    obtain ⟨e, he, hm, rfl⟩ := hcov.mem n hn
    exact hno e he hm
  obtain ⟨hc₂, hhead₂⟩ := hr.custom hwf hnames
  refine ⟨⟨?_, by rw [hhead, hhead₂]⟩, hc.backed hb fun f a hfa => ?_⟩
  · rw [hc.entries, hc₂.entries]
    refine List.filter_congr fun e he => congrArg _ ?_
    rw [Bool.eq_iff_iff, List.any_eq_true]
    constructor
    · exact hcov.all e he
    · rintro ⟨n, hn, hen⟩
      obtain ⟨e', -, hm, rfl⟩ := hcov.mem n hn
      rwa [matchesName_congr hen]
  · rw [hhead] at hfa
    obtain ⟨ha, hname⟩ := hb f a hfa
    have he : ((w.cell a).key, (w.cell a).value) ∈ w.entries r :=
      List.mem_map_of_mem ha
    refine ⟨hfa, Bool.eq_false_iff.mpr fun hm => ?_⟩
    rw [hno _ he hm f] at hname
    cases hname

omit [DecidableEq ρ] in
theorem ptr_of_entry {e : Str × Str} (hc : w.Coherent r)
    (hchain : ∀ f : InField, f.handler = .setBuiltinMultiHeader → w.ChainListed r f)
    (he : e ∈ w.entries r) (hname : sameName e.1 f.name = true) :
    (w.headersIn r).ptr f ≠ none := by
  obtain ⟨s, hs, rfl⟩ := List.mem_map.mp he
  by_cases hf : f.handler = .setBuiltinMultiHeader
  · have hl := hchain f hf
    intro hptr
    rw [World.ChainListed, hptr] at hl
    cases hfl : (w.shape.slots r).filter fun s => sameName (w.cell s).key f.name with
    | nil => exact absurd (List.filter_eq_nil_iff.mp hfl s hs) (by simpa using hname)
    | cons x xs =>
      rw [hfl] at hl
      cases hl.1
  · rw [hc f hf, World.first, ne_eq, List.find?_eq_none]
    intro hnone
    exact hnone s hs hname

omit [DecidableEq ρ] in
/-- Where a builtin header is matched, only the exact rules reset its pointer. -/
theorem not_agree_of_builtin {e : Str × Str} (hc : w.Coherent r)
    (hchain : ∀ f : InField, f.handler = .setBuiltinMultiHeader → w.ChainListed r f)
    (hcov : Covers hv (w.entries r) names) (hcl : Cleaned r hv.matchesName w w₁)
    (hhead : w₁.headersIn = w.headersIn) (hr : ClearRun r names w w₂) (he : e ∈ w.entries r)
    (hm : hv.matchesName e.1 = true) (hname : sameName e.1 f.name = true) : ¬ Agree r w₁ w₂ := by
  rintro ⟨hentries, hheads⟩
  by_cases hblock : w.status r = 400 ∧ f.handler = .setBuiltinMultiHeader
  · have hstay := hr.entry_of_blocked hblock.1 hblock.2 hname he
    rw [← hentries, hcl.entries, List.mem_filter, hm] at hstay
    cases hstay.2
  · obtain ⟨n, hn, hen⟩ := hcov.all e he hm
    rw [sameName_congr hen] at hname
    have hnone := hr.ptr_of_named hn hname hblock
    rw [← hheads, hhead] at hnone
    refine ptr_of_entry hc hchain he ?_ hnone
    rw [sameName_congr hen]
    exact hname

/--
For every request with coherent typed pointers and chains, a wildcard rule `clear` leaves the same
request as the exact rules `clear` for the names it matches, with typed pointers into the list
only, exactly where it matches no entry of a builtin header.
-/
theorem wildcard_clear_agrees (w : World ρ) (r : ρ) (hv : InVal) (names : List Str)
    (hwf : w.shape.WellFormed r) (hc : w.Coherent r)
    (hchain : ∀ f : InField, f.handler = .setBuiltinMultiHeader → w.ChainListed r f)
    (hp : hv.Parsed setHandlersIn) (hop : hv.opcode = .clear) (hw : hv.wildcard = true)
    (hcov : Covers hv (w.entries r) names) :
    ∃ rc w₁ rc' w₂, handleIn r hv [] w = .ok (rc, w₁) ∧ clearNames r names w = .ok (rc', w₂) ∧
      (w.shape.pool.Reliable → rc = .ok ∧ rc' = .ok) ∧
      (rc = .ok → rc' = .ok → (Agree r w₁ w₂ ∧ w₁.Backed r ↔
        ∀ e ∈ w.entries r, hv.matchesName e.1 = true → ∀ f : InField,
          sameName e.1 f.name = false)) := by
  have hb := hc.backed hchain
  obtain ⟨rc, w₁, he₁, hrel₁, hok₁⟩ := wildcard_step hwf hp hop hw
  obtain ⟨rc', w₂, he₂, hrel₂, hok₂⟩ := clearNames_run names hwf hb
  refine ⟨rc, w₁, rc', w₂, he₁, he₂, fun hr => ⟨hrel₁ hr, hrel₂ hr⟩, fun h₁ h₂ => ?_⟩
  obtain ⟨hcl, hhead⟩ := hok₁ h₁
  have hr := hok₂ h₂
  constructor
  · rintro ⟨ha, -⟩ e he hm f
    rw [← Bool.not_eq_true]
    intro hname
    exact not_agree_of_builtin hc hchain hcov hcl hhead hr he hm hname ha
  · intro hno
    exact agree_of_custom hwf hb hcov hcl hhead hr hno

def hostAnd (es : List (Str × Str)) : World Unit :=
  .ofEntries ((str "Host", str "a") :: es) 4 fun f => if f = .host then some 0 else none

/-- `clear X-A*` and the exact rules for `X-A` and `X-AB`. -/
theorem wildcard_clear_agrees_custom : ∃ (hv : InVal) (w₁ w₂ : World Unit),
    parseDirective (fun _ => true) setHandlersIn 0 [str "clear", str "X-A*"] = .ok hv ∧
    handleIn () hv [] (hostAnd [(str "X-AB", str "1"), (str "x-a", str "2")]) = .ok (.ok, w₁) ∧
    clearNames () [str "x-a", str "X-AB"]
      (hostAnd [(str "X-AB", str "1"), (str "x-a", str "2")]) = .ok (.ok, w₂) ∧
    w₁.entries () = [(str "Host", str "a")] ∧ Agree () w₁ w₂ := by
  have hp := (parseDirective_eq_ok (rfl : parseDirective (fun _ => true) setHandlersIn 0
    [str "clear", str "X-A*"] = .ok _)).2
  obtain ⟨rc, w₁, rc', w₂, he₁, he₂, hrel, hok⟩ := wildcard_clear_agrees
    (hostAnd [(str "X-AB", str "1"), (str "x-a", str "2")]) () _ [str "x-a", str "X-AB"]
    (single_wellFormed (by decide) (by decide)) (fun f _ => by cases f <;> decide)
    (fun f hf => by cases f <;> cases hf <;> exact rfl) hp rfl rfl
    ⟨by decide, by decide⟩
  obtain ⟨rfl, rfl⟩ := hrel fun _ => rfl
  have hentries : w₁.entries () = [(str "Host", str "a")] := by
    obtain rfl := (Prod.mk.inj (Except.ok.inj (he₁.symm.trans rfl))).2
    decide
  refine ⟨_, w₁, w₂, rfl, he₁, he₂, hentries, ((hok rfl rfl).mpr fun e he hm f => ?_).1⟩
  have hcustom : ∀ e ∈ (hostAnd [(str "X-AB", str "1"), (str "x-a", str "2")]).entries (),
      e = (str "Host", str "a") ∨ (setHandlersIn.find e.1).isNone := by decide
  rcases hcustom e he with rfl | hnone
  · exact absurd hm (by decide)
  · exact custom_of_find (Option.isNone_iff_eq_none.mp hnone) f

/--
`clear Content-*` on a request with a body of 10 bytes takes the entry out, but leaves the typed
pointer and the length that `clear Content-Length` resets. The next header that is added gets the
slot behind the pointer.
-/
theorem wildcard_clear_agrees_length : tenBytes.shape.WellFormed () ∧ tenBytes.Coherent () ∧
    (∀ f : InField, f.handler = .setBuiltinMultiHeader → tenBytes.ChainListed () f) ∧
    ∃ (hv hv' : InVal) (w₁ w₂ w₃ : World Unit),
      parseDirective (fun _ => true) setHandlersIn 0 [str "clear", str "Content-*"] = .ok hv ∧
      hv.wildcard = true ∧ Covers hv (tenBytes.entries ()) [str "Content-Length"] ∧
      handleIn () hv [] tenBytes = .ok (.ok, w₁) ∧
      clearNames () [str "Content-Length"] tenBytes = .ok (.ok, w₂) ∧
      w₁.entries () = [] ∧ (w₁.headersIn ()).ptr .contentLength = some 0 ∧
      (w₁.headersIn ()).contentLengthN = 10 ∧
      w₂.entries () = [] ∧ (w₂.headersIn ()).ptr .contentLength = none ∧
      (w₂.headersIn ()).contentLengthN = -1 ∧ ¬ Agree () w₁ w₂ ∧
      parseDirective (fun _ => true) setHandlersIn 0 [str "set", str "X-A", str "1"] = .ok hv' ∧
      handleIn () hv' (str "1") w₁ = .ok (.ok, w₃) ∧
      (w₃.headersIn ()).ptr .contentLength = some 0 ∧ (w₃.cell 0).key = str "X-A" := by
  refine ⟨tenBytes_wellFormed, tenBytes_coherent,
    fun f hf => by cases f <;> cases hf <;> exact rfl, _, _, _, _, _, rfl, rfl,
    ⟨by decide, by decide⟩, rfl, rfl, by decide, by decide, by decide, by decide, by decide,
    by decide, fun h => ?_, rfl, rfl, by decide, by decide⟩
  have hptr := congrArg (fun x : HeadersIn => x.ptr .contentLength) h.2
  exact absurd hptr (by decide)

end HeadersControl
