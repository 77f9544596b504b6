import HeadersControl.Request.Subrequest
import HeadersControl.Request.Wildcard

/-! # Labels of request entries

Upstream code looks an entry up by its hash and its lower-cased name, so both have
to agree with the name. An entry that is created with a value gets them from the
rule, a value is written without them or with those of an equal name, and an entry
whose hash is reset is removed. Only `append` creates an entry without a value.
-/

namespace HeadersControl

open Segments Segments.Shape

/-- The lower-cased name and the hash agree with the name. -/
def TableElt.Labelled (e : TableElt) : Prop :=
  e.lowcaseKey = strlow e.key ∧ e.hash = hashKeyLc e.key

variable {ρ : Type} [DecidableEq ρ]

def World.Labelled (w : World ρ) (r : ρ) : Prop := ∀ s ∈ w.shape.slots r, (w.cell s).Labelled

structure Shrinks (r : ρ) (w w' : World ρ) : Prop where
  slots : (w'.shape.slots r).Sublist (w.shape.slots r)
  cell : ∀ s ∈ w'.shape.slots r, w'.cell s = w.cell s

variable {r : ρ} {hv : InVal} {f : InField} {value name : Str} {out : OutRef}
  {fr fr' fr₁ : Frame ρ} {w w' w₁ w₂ : World ρ}

omit [DecidableEq ρ] in
theorem Shrinks.refl (w : World ρ) : Shrinks r w w := ⟨List.Sublist.refl _, fun _ _ => rfl⟩

omit [DecidableEq ρ] in
theorem Shrinks.absent (h : Shrinks r w w') (hno : w.first r name = none) :
    w'.first r name = none := by
  unfold World.first at hno ⊢
  rw [List.find?_eq_none] at hno ⊢
  intro s hs
  rw [h.cell s hs]
  exact hno s (h.slots.subset hs)

omit [DecidableEq ρ] in
theorem Shrinks.labelled (h : Shrinks r w w') (hl : w.Labelled r) : w'.Labelled r := by
  intro s hs
  rw [h.cell s hs]
  exact hl s (h.slots.subset hs)

theorem labelled_newElt (hhash : hv.hash = hashKeyLc hv.key) (hv₀ : value ≠ []) :
    (newElt hv value).Labelled := by
  simp [TableElt.Labelled, newElt, hv₀, hhash]

theorem Outcome.labelled (hhash : hv.hash = hashKeyLc hv.key) (hv₀ : value ≠ [])
    (hl : fr.w.Labelled r) (ho : Outcome r hv value out fr fr') : fr'.w.Labelled r := by
  cases ho with
  | unchanged => exact hl
  | cleared _ _ hnil => exact absurd hnil hv₀
  | @kept a sh cell _ _ _ _ hk =>
    intro s hs
    simp only [Frame.shape_setList, Frame.cell_setList] at hs ⊢
    rw [hk.slots, List.mem_filter] at hs
    rw [hk.same s hs.2]
    by_cases hsa : s = a
    · subst hsa
      rw [Function.update_self]
      exact hl s hs.1
    · rw [Function.update_of_ne hsa]
      exact hl s hs.1
  | @created a sh _ hwf' _ hslots _ =>
    intro s hs
    rw [(Frame.keep_propagate (by simpa using hwf')).2] at hs
    simp only [Frame.shape_store, Frame.shape_setList, hslots, List.mem_append,
      List.mem_singleton] at hs
    simp only [Frame.cell_propagate, Frame.cell_store, Frame.cell_setList]
    by_cases hsa : s = a
    · subst hsa
      rw [Function.update_self]
      exact labelled_newElt hhash hv₀
    · rw [Function.update_of_ne hsa]
      exact hl s (hs.resolve_right hsa)

theorem Outcome.shrinks (happ : hv.opcode ≠ .append) (hv₀ : value = [])
    (ho : Outcome r hv value out fr fr') :
    Shrinks r fr.w fr'.w ∧ (hv.opcode ≠ .add →
      ∀ s ∈ fr'.w.shape.slots r, hv.hits value (fr.w.cell s).key = false) := by
  cases ho with
  | unchanged hu =>
    refine ⟨.refl _, fun hadd s hs => ?_⟩
    obtain ⟨-, hno, -⟩ := hu.resolve_left fun h => hadd h.1
    exact Bool.eq_false_iff.mpr fun hit => hno ⟨s, hs, hit⟩
  | @cleared sh cell _ _ _ _ hk =>
    have hkept : ∀ s ∈ sh.slots r, s ∈ fr.w.shape.slots r ∧
        hv.hits value (fr.w.cell s).key = false := by
      intro s hs
      rw [hk.slots, List.mem_filter] at hs
      simpa using hs
    refine ⟨⟨?_, fun s hs => ?_⟩, fun _ s hs => (hkept s hs).2⟩
    · simp only [Frame.shape_setList, hk.slots]
      exact List.filter_sublist
    · exact hk.same s (by simp [(hkept s hs).2])
  | kept _ _ hne => exact absurd hv₀ hne
  | created hc => exact absurd hv₀ (hc.resolve_left happ).2.1

theorem Outcome.appended (happ : hv.opcode = .append) (ho : Outcome r hv value out fr fr') :
    ∃ s, s ∉ fr.w.shape.slots r ∧ fr'.w.shape.slots r = fr.w.shape.slots r ++ [s] ∧
      fr'.w.cell s = newElt hv value := by
  cases ho with
  | unchanged hu =>
    rcases hu with ⟨hadd, -⟩ | ⟨hne, -⟩
    · cases happ.symm.trans hadd
    · exact absurd happ hne
  | cleared _ hne => exact absurd happ hne
  | kept _ hne => exact absurd happ hne
  | @created s sh _ hwf' _ hslots hs =>
    refine ⟨s, hs, ?_, by simp [Frame.cell_propagate]⟩
    rw [(Frame.keep_propagate (by simpa using hwf')).2]
    simpa using hslots

theorem hashKeyLc_field {k : Str} (hk : sameName k f.name = true)
    (hn : sameName name f.name = true) : hashKeyLc k = hashKeyLc name := by
  have hnul := f.name_plain.1
  rw [hashKeyLc_eq, hashKeyLc_eq, strlow_eq_of_sameName hk hnul, strlow_eq_of_sameName hn hnul]

omit [DecidableEq ρ] in
theorem World.Coherent.named {a : ℕ} (hc : w.Coherent r)
    (hsingle : f.handler ≠ .setBuiltinMultiHeader) (hptr : (w.headersIn r).ptr f = some a) :
    a ∈ w.shape.slots r ∧ sameName (w.cell a).key f.name = true := by
  have hfirst : w.first r f.name = some a := (hc f hsingle).symm.trans hptr
  exact ⟨List.mem_of_find?_eq_some hfirst, by simpa using List.find?_some hfirst⟩

section Field

variable (hw : hv.wildcard = false) (hname : sameName hv.key f.name = true)
  (hoff : hv.offset = some f)
include hname hoff

theorem setBuiltinHeader_labelled (h : fr.w.InStep r) (hsingle : f.handler ≠ .setBuiltinMultiHeader)
    (hhash : hv.hash = hashKeyLc hv.key) (happ : hv.opcode ≠ .append) (hv₀ : value ≠ [])
    (hl : fr.w.Labelled r) (he : setBuiltinHeader r hv value fr = .ok (.ok, fr')) :
    fr'.w.Labelled r := by
  unfold setBuiltinHeader at he
  rw [hoff] at he
  dsimp only at he
  cases hptr : (fr.w.headersIn r).ptr f with
  | none =>
    rw [hptr] at he
    exact (Outcome.of_run h.wellFormed he).labelled hhash hv₀ hl
  | some a =>
    simp only [hptr, happ, hv₀, if_false] at he
    split_ifs at he
    · cases he
      exact hl
    · cases he
      obtain ⟨ha, hkey⟩ := h.coherent.named hsingle hptr
      intro s hs
      simp only [Frame.cell_setList]
      by_cases hsa : s = a
      · subst hsa
        rw [Function.update_self]
        exact ⟨(hl s hs).1, hhash.trans (hashKeyLc_field hname hkey)⟩
      · rw [Function.update_of_ne hsa]
        exact hl s hs

include hw in
/-- The entry behind the pointer loses its hash, and is then taken out with the others. -/
theorem setBuiltinHeader_shrinks (h : fr.w.InStep r) (hsingle : f.handler ≠ .setBuiltinMultiHeader)
    (happ : hv.opcode ≠ .append) (he : setBuiltinHeader r hv [] fr = .ok (.ok, fr')) :
    Shrinks r fr.w fr'.w ∧ (hv.opcode ≠ .add →
      ∀ s ∈ fr'.w.shape.slots r, hv.hits [] (fr.w.cell s).key = false) := by
  unfold setBuiltinHeader at he
  rw [hoff] at he
  dsimp only at he
  cases hptr : (fr.w.headersIn r).ptr f with
  | none =>
    rw [hptr] at he
    exact (Outcome.of_run h.wellFormed he).shrinks happ rfl
  | some a =>
    simp only [hptr, happ, if_false, if_true] at he
    split_ifs at he with hadd
    · cases he
      exact ⟨.refl _, fun hne => absurd hadd hne⟩
    · obtain ⟨-, hkey⟩ := h.coherent.named hsingle hptr
      have hsame : ∀ s, (Function.update fr.w.cell a
          { fr.w.cell a with hash := 0, value := [] } s).key = (fr.w.cell s).key := fun s => by
        by_cases hs : s = a <;> simp [hs]
      obtain ⟨hsh, hno⟩ := (Outcome.of_run (by simpa using h.wellFormed) he).shrinks happ rfl
      have hno' : ∀ s ∈ fr'.w.shape.slots r, hv.hits [] (fr.w.cell s).key = false := by
        intro s hs
        rw [← hsame]
        exact hno hadd s hs
      refine ⟨⟨hsh.slots, fun s hs => ?_⟩, fun _ => hno'⟩
      rw [hsh.cell s hs, Frame.cell_setList, Function.update_of_ne]
      rintro rfl
      have hmiss := hno' s hs
      rw [hits_field hw hname, hkey] at hmiss
      cases hmiss

theorem setBuiltinMultiHeader_inStep (h : fr.w.InStep r) (hw : hv.wildcard = false)
    (hmulti : f.handler = .setBuiltinMultiHeader)
    (he : setBuiltinMultiHeader r hv value fr = .ok (.ok, fr')) : fr'.w.InStep r := by
  rcases setBuiltinMultiHeader_inv h.wellFormed hoff he with ⟨-, rfl⟩ | ⟨-, fr₁, he₁, hfr⟩
  · exact h
  have hwf₀ : (fr.dropChain r f).w.shape.WellFormed r := by simpa using h.wellFormed
  have ho := Outcome.of_run hwf₀ he₁
  have h₁ : fr₁.w.InStep r := by
    refine ⟨ho.wellFormed hwf₀, fun g hg => ?_⟩
    have hgf : g ≠ f := by
      rintro rfl
      exact hg hmulti
    have hne : sameName hv.key g.name = false := by
      rw [sameName_congr hname, sameName_ne hgf.symm]
    rw [ho.ptr_other (by simp), ho.first_other hw hne, ptr_dropChain_other hgf, h.coherent g hg]
    simp [World.first]
  rcases hfr with ⟨-, rfl⟩ | ⟨-, a, -, rfl⟩
  · exact h₁
  · refine ⟨h₁.wellFormed, fun g hg => ?_⟩
    have hgf : g ≠ f := by
      rintro rfl
      exact hg hmulti
    have hkey : ∀ s, ((fr₁.linkHead r f a).w.cell s).key = (fr₁.w.cell s).key := fun s => by
      by_cases hs : s = a <;> simp [Frame.linkHead, World.setList, World.setPtr,
        World.setHeadersIn, hs]
    have hptr : ((fr₁.linkHead r f a).w.headersIn r).ptr g = (fr₁.w.headersIn r).ptr g := by
      simp [Frame.linkHead, World.setList, World.setPtr, World.setHeadersIn, hgf]
    rw [hptr, h₁.coherent g hg, World.first, World.first]
    simp only [hkey]
    rfl

end Field

section Handler

omit [DecidableEq ρ] in
theorem Shrinks.first_none (h : Shrinks r w w') (hw : hv.wildcard = false)
    (hno : ∀ s ∈ w'.shape.slots r, hv.hits value (w.cell s).key = false) :
    w'.first r hv.key = none := by
  rw [World.first, List.find?_eq_none]
  intro s hs
  rw [h.cell s hs, ← hits_exact value hw, hno s hs]
  simp

theorem runHandlerIn_labelled (h : fr.w.InStep r) (hp : hv.Parsed setHandlersIn)
    (hv₀ : value ≠ []) (hl : fr.w.Labelled r)
    (he : runHandlerIn r hv value fr = .ok (.ok, fr')) : fr'.w.Labelled r := by
  rcases hp.field_or_custom with ⟨f, hname, hhandler, hoff, happ⟩ | ⟨-, hhandler⟩
  · by_cases hmulti : f.handler = .setBuiltinMultiHeader
    · rw [runHandlerIn, hhandler, hmulti] at he
      rcases setBuiltinMultiHeader_inv h.wellFormed hoff he with ⟨-, rfl⟩ | ⟨-, fr₁, he₁, hfr⟩
      · exact hl
      have hwf₀ : (fr.dropChain r f).w.shape.WellFormed r := by simpa using h.wellFormed
      have hl₀ : (fr.dropChain r f).w.Labelled r := by simpa [World.Labelled] using hl
      have hl₁ := (Outcome.of_run hwf₀ he₁).labelled hp.hash hv₀ hl₀
      obtain ⟨-, a, -, rfl⟩ := hfr.resolve_left fun hc => hv₀ hc.1
      intro s hs
      have hcell : ((fr₁.linkHead r f a).w.cell s).Labelled ↔ (fr₁.w.cell s).Labelled := by
        by_cases hsa : s = a <;> simp [Frame.linkHead, World.setList, World.setPtr,
          World.setHeadersIn, TableElt.Labelled, hsa]
      exact hcell.mpr (hl₁ s hs)
    · rcases runHandlerIn_single r fr hhandler hmulti hv₀ with
        ⟨_, he', -⟩ | ⟨fr₁, hpre, -, -, he'⟩
      · cases he'.symm.trans he
      · have h₁ : fr₁.w.InStep r := h.congr (hpre.wellFormed h.wellFormed)
          (hpre.slots h.wellFormed) (fun s => by rw [hpre.cell]) hpre.ptr
        have hl₁ : fr₁.w.Labelled r := by
          rw [World.Labelled, hpre.slots h.wellFormed, hpre.cell]
          exact hl
        exact setBuiltinHeader_labelled hname hoff h₁ hmulti hp.hash happ hv₀ hl₁
          (he'.symm.trans he)
  · rw [runHandlerIn, hhandler] at he
    exact (Outcome.of_run h.wellFormed he).labelled hp.hash hv₀ hl

theorem runHandlerIn_shrinks (h : fr.w.InStep r) (hp : hv.Parsed setHandlersIn)
    (hw : hv.wildcard = false) (happ : hv.opcode ≠ .append)
    (he : runHandlerIn r hv [] fr = .ok (.ok, fr')) :
    Shrinks r fr.w fr'.w ∧ (hv.opcode ≠ .add → ¬ Blocked r hv.key fr.w →
      fr'.w.first r hv.key = none) := by
  rcases hp.field_or_custom with ⟨f, hname, hhandler, hoff, -⟩ | ⟨-, hhandler⟩
  · by_cases hmulti : f.handler = .setBuiltinMultiHeader
    · rw [runHandlerIn, hhandler, hmulti] at he
      rcases setBuiltinMultiHeader_inv h.wellFormed hoff he with
        ⟨hstatus, rfl⟩ | ⟨-, fr₁, he₁, hfr⟩
      · exact ⟨.refl _, fun _ hfree => absurd ⟨hstatus, f, hname, hmulti⟩ hfree⟩
      obtain ⟨-, rfl⟩ := hfr.resolve_right fun hc => hc.1 rfl
      have hwf₀ : (fr.dropChain r f).w.shape.WellFormed r := by simpa using h.wellFormed
      obtain ⟨hsh, hno⟩ := (Outcome.of_run hwf₀ he₁).shrinks happ rfl
      have hsh' : Shrinks r fr.w fr'.w := ⟨by simpa using hsh.slots, by simpa using hsh.cell⟩
      exact ⟨hsh', fun hadd _ => hsh'.first_none hw (by simpa using hno hadd)⟩
    · obtain ⟨g, hg, hrun⟩ := runHandlerIn_nil (r := r) fr hhandler hmulti
      rw [hrun] at he
      obtain ⟨hsh, hno⟩ := setBuiltinHeader_shrinks hw hname hoff (h.modifyIn hg) hmulti happ he
      exact ⟨⟨hsh.slots, hsh.cell⟩, fun hadd _ => hsh.first_none hw (hno hadd)⟩
  · rw [runHandlerIn, hhandler] at he
    obtain ⟨hsh, hno⟩ := (Outcome.of_run h.wellFormed he).shrinks happ rfl
    exact ⟨hsh, fun hadd _ => hsh.first_none hw (hno hadd)⟩

theorem runHandlerIn_appended (h : fr.w.InStep r) (hp : hv.Parsed setHandlersIn)
    (happ : hv.opcode = .append) (he : runHandlerIn r hv value fr = .ok (.ok, fr')) :
    ∃ s, s ∉ fr.w.shape.slots r ∧ fr'.w.shape.slots r = fr.w.shape.slots r ++ [s] ∧
      fr'.w.cell s = newElt hv value := by
  rcases hp.field_or_custom with ⟨f, -, -, -, hne⟩ | ⟨-, hhandler⟩
  · exact absurd happ hne
  · rw [runHandlerIn, hhandler] at he
    exact (Outcome.of_run h.wellFormed he).appended happ

theorem handleIn_inStep (h : w.InStep r) (hp : hv.Parsed setHandlersIn)
    (hw : hv.wildcard = false) (he : handleIn r hv value w = .ok (.ok, w')) : w'.InStep r := by
  obtain ⟨fr, hrun, rfl⟩ := handleIn_eq_ok he
  by_cases hmulti : hv.handler = .setBuiltinMultiHeader
  · rcases hp.field_or_custom with ⟨f, hname, hhandler, hoff, -⟩ | ⟨-, hhandler⟩
    · rw [runHandlerIn, hmulti] at hrun
      exact setBuiltinMultiHeader_inStep hname hoff h hw (hhandler.symm.trans hmulti) hrun
    · cases hmulti.symm.trans hhandler
  · exact runHandlerIn_inStep ⟨w, none⟩ h hp hw hmulti hrun

end Handler

section Run

variable {cv : ComplexValue → World ρ → Option Str}

/-- An exact rule is executed, and returns `NGX_OK`. -/
structure Executes (cv : ComplexValue → World ρ → Option Str) (r : ρ) (hv : InVal)
    (w w' : World ρ) : Prop where
  parsed : hv.Parsed setHandlersIn
  exact : hv.wildcard = false
  returns : execInputHeader cv r hv w = .ok (.ok, w')

def EmptyValue (cv : ComplexValue → World ρ → Option Str) (hv : InVal) (w : World ρ) : Prop :=
  (complexValue cv hv.value w).map List.dropLast = some []

def LabelStep (cv : ComplexValue → World ρ → Option Str) (r : ρ) (w w' : World ρ) : Prop :=
  ∃ hv : InVal, Executes cv r hv w w' ∧ ¬ (hv.opcode = .append ∧ EmptyValue cv hv w)

/-- No entry is added: what is absent stays absent, and so is what the rule is to remove. -/
structure NoPresence (r : ρ) (hv : InVal) (w w' : World ρ) : Prop where
  shrinks : Shrinks r w w'
  absent : ∀ name, w.first r name = none → w'.first r name = none
  removed : hv.opcode ≠ .add → hv.opcode ≠ .pass → ¬ Blocked r hv.key w →
    w'.first r hv.key = none

theorem Executes.run (h : Executes cv r hv w w') : hv.opcode = .pass ∧ w' = w ∨
    hv.opcode ≠ .pass ∧ ∃ value, (complexValue cv hv.value w).map List.dropLast = some value ∧
      handleIn r hv value w = .ok (.ok, w') := by
  rcases execHeader_inv h.returns with ⟨rfl, hpass⟩ | ⟨hpass, value, hvalue, he⟩
  · exact Or.inl ⟨hpass rfl, rfl⟩
  · exact Or.inr ⟨hpass, value.dropLast, by rw [hvalue]; rfl, he⟩

theorem Executes.inStep (h : Executes cv r hv w w') (hs : w.InStep r) : w'.InStep r := by
  rcases h.run with ⟨-, rfl⟩ | ⟨-, value, -, he⟩
  · exact hs
  · exact handleIn_inStep hs h.parsed h.exact he

theorem Executes.noPresence (h : Executes cv r hv w w') (hs : w.InStep r)
    (hv₀ : EmptyValue cv hv w) (happ : hv.opcode ≠ .append) : NoPresence r hv w w' := by
  rcases h.run with ⟨hpass, rfl⟩ | ⟨-, value, hvalue, he⟩
  · exact ⟨.refl _, fun _ hno => hno, fun _ hne => absurd hpass hne⟩
  · obtain rfl := Option.some.inj (hv₀.symm.trans hvalue)
    obtain ⟨fr, hrun, rfl⟩ := handleIn_eq_ok he
    obtain ⟨hsh, hrem⟩ := runHandlerIn_shrinks hs h.parsed h.exact happ hrun
    exact ⟨hsh, fun _ => hsh.absent, fun hadd _ hfree => hrem hadd hfree⟩

theorem Executes.appended (h : Executes cv r hv w w') (hs : w.InStep r)
    (hv₀ : EmptyValue cv hv w) (happ : hv.opcode = .append) :
    ∃ s, s ∉ w.shape.slots r ∧ w'.shape.slots r = w.shape.slots r ++ [s] ∧
      w'.cell s = newElt hv [] := by
  rcases h.run with ⟨hpass, -⟩ | ⟨-, value, hvalue, he⟩
  · cases happ.symm.trans hpass
  · obtain rfl := Option.some.inj (hv₀.symm.trans hvalue)
    obtain ⟨fr, hrun, rfl⟩ := handleIn_eq_ok he
    refine runHandlerIn_appended ?_ h.parsed happ hrun
    exact hs

theorem LabelStep.labelled (h : LabelStep cv r w w') (hs : w.InStep r) (hl : w.Labelled r) :
    w'.Labelled r := by
  obtain ⟨hv, h, hne⟩ := h
  by_cases hv₀ : EmptyValue cv hv w
  · exact (h.noPresence hs hv₀ fun happ => hne ⟨happ, hv₀⟩).shrinks.labelled hl
  · rcases h.run with ⟨-, rfl⟩ | ⟨-, value, hvalue, he⟩
    · exact hl
    · have hval : value ≠ [] := by
        rintro rfl
        exact hv₀ hvalue
      obtain ⟨fr, hrun, rfl⟩ := handleIn_eq_ok he
      refine runHandlerIn_labelled ?_ h.parsed hval ?_ hrun
      · exact hs
      · exact hl

theorem labelled_of_run (hs : w.InStep r) (hl : w.Labelled r)
    (hrun : Relation.ReflTransGen (LabelStep cv r) w w₁) : w₁.InStep r ∧ w₁.Labelled r := by
  induction hrun with
  | refl => exact ⟨hs, hl⟩
  | tail _ hstep ih =>
    obtain ⟨hs, hl⟩ := ih
    refine ⟨?_, hstep.labelled hs hl⟩
    obtain ⟨hv, h, -⟩ := hstep
    exact h.inStep hs

/--
In every run of exact rules without an `append` of an empty value, the entries of a request with
coherent typed pointers stay labelled. Wherever the run has come to, a rule with an empty value
adds no entry exactly if it is no `append`, which adds an entry without a hash.
-/
theorem labels_of_run (cv : ComplexValue → World ρ → Option Str) (w w₁ : World ρ) (r : ρ)
    (hwf : w.shape.WellFormed r) (hc : w.Coherent r) (hl : w.Labelled r)
    (hrun : Relation.ReflTransGen (LabelStep cv r) w w₁) :
    w₁.Coherent r ∧ w₁.Labelled r ∧
      ∀ (hv : InVal) (w₂ : World ρ), Executes cv r hv w₁ w₂ → EmptyValue cv hv w₁ →
        (NoPresence r hv w₁ w₂ ↔ hv.opcode ≠ .append) ∧
        (hv.opcode = .append → ∃ s, s ∉ w₁.shape.slots r ∧
          w₂.shape.slots r = w₁.shape.slots r ++ [s] ∧ w₂.cell s = newElt hv []) := by
  obtain ⟨hs, hl₁⟩ := labelled_of_run ⟨hwf, hc⟩ hl hrun
  refine ⟨hs.coherent, hl₁, fun hv w₂ h hv₀ => ⟨⟨?_, h.noPresence hs hv₀⟩, h.appended hs hv₀⟩⟩
  intro hno happ
  obtain ⟨s, hfresh, hslots, -⟩ := h.appended hs hv₀ happ
  apply hfresh
  apply hno.shrinks.slots.subset
  simp [hslots]

def noHeaders : World Unit := .ofEntries [] 4 fun _ => none

theorem noHeaders_wellFormed : noHeaders.shape.WellFormed () :=
  single_wellFormed (by decide) (by decide)

theorem noHeaders_coherent : noHeaders.Coherent () := fun f _ => by cases f <;> decide

theorem noHeaders_labelled : noHeaders.Labelled () := fun _ _ => ⟨rfl, rfl⟩

/-- After `set X-Foo v`, a `set X-Foo` whose value is empty takes the entry out. -/
theorem labels_of_run_set : ∃ (hv hv' : InVal) (w₁ w₂ : World Unit),
    parseDirective (fun _ => true) setHandlersIn 0 [str "set", str "X-Foo", str "v"] = .ok hv ∧
    parseDirective (fun _ => true) setHandlersIn 0 [str "set", str "X-Foo", []] = .ok hv' ∧
    execInputHeader (fun text _ => some text) () hv noHeaders = .ok (.ok, w₁) ∧
    execInputHeader (fun text _ => some text) () hv' w₁ = .ok (.ok, w₂) ∧
    w₁.Labelled () ∧ w₁.first () (str "X-Foo") ≠ none ∧ NoPresence () hv' w₁ w₂ := by
  have hp := (parseDirective_eq_ok (rfl : parseDirective (fun _ => true) setHandlersIn 0
    [str "set", str "X-Foo", str "v"] = .ok _)).2
  have hp' := (parseDirective_eq_ok (rfl : parseDirective (fun _ => true) setHandlersIn 0
    [str "set", str "X-Foo", []] = .ok _)).2
  have hstep : LabelStep (fun text _ => some text) () noHeaders _ :=
    ⟨_, ⟨hp, rfl, rfl⟩, fun h => by cases h.1⟩
  obtain ⟨-, hl, hno⟩ := labels_of_run (fun text _ => some text) noHeaders _ ()
    noHeaders_wellFormed noHeaders_coherent noHeaders_labelled (.single hstep)
  refine ⟨_, _, _, _, rfl, rfl, rfl, rfl, hl, by decide, ?_⟩
  exact (hno _ _ ⟨hp', rfl, rfl⟩ rfl).1.mpr (by decide)

/--
`append X-Foo ''` adds an entry with an empty value and without the hash of its name, and a later
`add X-Foo v` finds it present and does nothing.
-/
theorem labels_of_run_append : noHeaders.shape.WellFormed () ∧ noHeaders.Coherent () ∧
    noHeaders.Labelled () ∧ ∃ (hv hv' : InVal) (w₁ w₂ w₃ : World Unit),
      parseDirective (fun _ => true) setHandlersIn 0 [str "append", str "X-Foo", []] = .ok hv ∧
      parseDirective (fun _ => true) setHandlersIn 0
        [str "add", str "X-Foo", str "v"] = .ok hv' ∧
      Executes (fun text _ => some text) () hv noHeaders w₁ ∧
      EmptyValue (fun text _ => some text) hv noHeaders ∧
      w₁.entries () = [(str "X-Foo", [])] ∧ ¬ w₁.Labelled () ∧ ¬ NoPresence () hv noHeaders w₁ ∧
      Executes (fun text _ => some text) () hv' w₁ w₂ ∧ w₂.entries () = w₁.entries () ∧
      Executes (fun text _ => some text) () hv' noHeaders w₃ ∧
      w₃.entries () = [(str "X-Foo", str "v")] := by
  have hp := (parseDirective_eq_ok (rfl : parseDirective (fun _ => true) setHandlersIn 0
    [str "append", str "X-Foo", []] = .ok _)).2
  have hp' := (parseDirective_eq_ok (rfl : parseDirective (fun _ => true) setHandlersIn 0
    [str "add", str "X-Foo", str "v"] = .ok _)).2
  refine ⟨noHeaders_wellFormed, noHeaders_coherent, noHeaders_labelled, _, _, _, _, _, rfl, rfl,
    ⟨hp, rfl, rfl⟩, rfl, by decide, fun hl => ?_, fun hno => ?_, ⟨hp', rfl, rfl⟩, by decide,
    ⟨hp', rfl, rfl⟩, by decide⟩
  · exact absurd (hl 0 (by decide)).2 (by decide)
  · exact absurd (hno.absent (str "X-Foo") (by decide)) (by decide)

end Run

end HeadersControl
