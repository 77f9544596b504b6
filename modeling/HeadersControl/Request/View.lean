import HeadersControl.Request.FastPath
import HeadersControl.Request.LastSet
import HeadersControl.Rules.Refinement

/-! # Requests as their entries and derived fields

What a rule does to a request depends on the entries and the derived fields alone,
as long as the typed pointers are in step with the list. On this view a rule is a
function: the layout of the list in parts, hashes, pointers and chains are gone.
-/

namespace HeadersControl

open Segments Segments.Shape

/-- The entries of a request, the fields derived from them, and whether it was answered 400. -/
structure RequestView where
  entries : List (Str × Str)
  derived : Derived
  badRequest : Bool
  deriving DecidableEq, Repr

def World.view {ρ : Type} (w : World ρ) (r : ρ) : RequestView :=
  ⟨w.entries r, w.derived r, w.status r = 400⟩

def hostOf (value : Str) : Option Str :=
  let (rc, host, _) := validateHost value ⟨[], 0, 0, fun _ => false, 0, by simp⟩ false
  if rc = .ok then some host else none

/-- The derived fields with the value of a field, unless its handler rejects the value. -/
def InField.derive (f : InField) (value : Str) (d : Derived) : Option Derived :=
  match f.handler with
  | .setHostHeader =>
      if value = [] then some { d with server := [] }
      else (hostOf value).map fun server => { d with server }
  | .setContentLengthHeader =>
      if value = [] then some { d with contentLengthN := -1 }
      else (atosz value).map fun n : ℕ => { d with contentLengthN := n }
  | .setUserAgentHeader =>
      some { d with browser := if value = [] then noBrowser else detectBrowser value }
  | .setConnectionHeader => some { d with
      connectionType := connectionOf value
      keepAliveN := if connectionOf value = .close then -1 else d.keepAliveN
      keepalive := if connectionOf value = .close then false else d.keepalive }
  | _ => some d

/--
The entries after a rule. A wildcard rule with a value hits nothing and appends under its own
name. A single-valued header that is there is written through its pointer, and its other entries
stay.
-/
def HeaderVal.edit (hv : InVal) (value : Str) (es : List (Str × Str)) : List (Str × Str) :=
  if hv.wildcard = true ∧ value ≠ [] then
    if hv.opcode = .rewrite then es else es ++ [(hv.key, value)]
  else if hv.merges = false ∧ hv.opcode ≠ .add ∧ value ≠ [] ∧
      (es.any fun e => hv.matchesName e.1) = true then writeFirst hv.matchesName value es
  else hv.operate value es

def HeaderVal.leavesUnset (hv : InVal) (value : Str) (es : List (Str × Str)) : Bool :=
  value ≠ [] ∧ (hv.opcode = .add ∧ (es.any fun e => hv.matchesName e.1) = true ∨
    hv.opcode = .rewrite ∧ (es.any fun e => hv.matchesName e.1) = false)

def HeaderVal.effect (hv : InVal) (value : Str) (v : RequestView) :
    Except Fault (Rc × RequestView) :=
  match hv.offset with
  | none => .ok (.ok, { v with entries := hv.edit value v.entries })
  | some f =>
      if f.handler = .setBuiltinMultiHeader then
        if v.badRequest then .ok (.ok, v)
        else if hv.leavesUnset value v.entries then .error .unset
        else .ok (.ok, { v with entries := hv.edit value v.entries })
      else match f.derive value v.derived with
        | none => .ok (.error, v)
        | some derived => .ok (.ok, { v with entries := hv.edit value v.entries, derived })

/-- A wildcard rule takes no single-valued header away from its typed pointer. -/
def HeaderVal.Tame (hv : InVal) : Prop :=
  hv.wildcard = true → ∀ f : InField, f.handler ≠ .setBuiltinMultiHeader →
    hv.matchesName f.name = false

instance (hv : InVal) : Decidable hv.Tame :=
  decidable_of_iff (hv.wildcard = true → ∀ f ∈ InField.all, f.handler ≠ .setBuiltinMultiHeader →
    hv.matchesName f.name = false)
    ⟨fun h hw f => h hw f f.mem_all, fun h hw f _ => h hw f⟩

section Outcome

variable {ρ : Type} [DecidableEq ρ] {r : ρ} {hv : InVal} {value : Str} {out : OutRef}
  {fr fr' : Frame ρ}

theorem Outcome.grows (ho : Outcome r hv value out fr fr') :
    fr.w.shape.pool.Grows fr'.w.shape.pool := by
  cases ho with
  | unchanged => exact Pool.Grows.refl _
  | cleared _ _ _ _ hk => exact hk.grows
  | kept _ _ _ _ hk => exact hk.grows
  | created _ _ hg =>
    unfold Frame.propagate
    split
    · simpa using hg
    · simpa [propagate_eq.2.2.1] using hg

theorem Outcome.status (ho : Outcome r hv value out fr fr') : fr'.w.status = fr.w.status := by
  cases ho with
  | unchanged => rfl
  | cleared => exact Frame.status_store none
  | kept => exact Frame.status_store _
  | created =>
    unfold Frame.propagate
    split
    · exact Frame.status_store _
    · exact status_propagate.trans (Frame.status_store _)

theorem Outcome.entries_wildcard (hw : hv.wildcard = true) (hv₀ : value ≠ [])
    (ho : Outcome r hv value out fr fr') : fr'.w.entries r =
      if hv.opcode = .rewrite then fr.w.entries r else fr.w.entries r ++ [(hv.key, value)] := by
  have hmiss : ∀ name, hv.hits value name = false := fun name => by
    simp [HeaderVal.hits, hw, hv₀]
  have hno : ¬ hv.Hit value fr.w r := by
    rintro ⟨s, -, hs⟩
    rw [hmiss] at hs
    cases hs
  cases ho with
  | unchanged hu =>
    rcases hu with ⟨-, hit⟩ | ⟨-, -, hnil | hre⟩
    · exact absurd hit hno
    · exact absurd hnil hv₀
    · rw [if_pos hre]
  | cleared _ _ hnil => exact absurd hnil hv₀
  | kept _ _ _ hfind =>
    have hs := List.find?_some hfind
    rw [hmiss] at hs
    cases hs
  | @created s sh hc hwf _ hslots hs =>
    have hre : hv.opcode ≠ .rewrite := by
      rcases hc with happ | ⟨-, -, hre⟩
      · simp [happ]
      · exact hre
    rw [if_neg hre]
    exact created_entries hv value out hwf hslots hs

theorem Outcome.entries_edit (hmerges : hv.merges = true)
    (hclear : hv.opcode = .clear → value = []) (hpass : hv.opcode ≠ .pass)
    (hwf : fr.w.shape.WellFormed r) (ho : Outcome r hv value out fr fr') :
    fr'.w.entries r = hv.edit value (fr.w.entries r) := by
  unfold HeaderVal.edit
  split_ifs with hwild hre hfast
  · rw [ho.entries_wildcard hwild.1 hwild.2, if_pos hre]
  · rw [ho.entries_wildcard hwild.1 hwild.2, if_neg hre]
  · rw [hmerges] at hfast
    cases hfast.1
  · refine ho.entries_operate (fun hw => ?_) hclear hpass hwf.nodup_slots
    by_contra hne
    exact hwild ⟨hw, hne⟩

end Outcome

section Derive

variable {ρ : Type} [DecidableEq ρ] {r : ρ} {hv : InVal} {f : InField} {value host : Str}

theorem validateHost_of_hostOf_none (pool : Pool) (h : hostOf value = none) :
    validateHost value pool false = (.declined, value, pool) := by
  apply validateHost_of_not
  rintro ⟨host, hform⟩
  have hok := (validateHost_of_form ⟨[], 0, 0, fun _ => false, 0, by simp⟩ false hform).2.1
    fun _ => rfl
  simp [hostOf, hok] at h

theorem validateHost_of_hostOf (pool : Pool) (h : hostOf value = some host) :
    (validateHost value pool false).1 ≠ .ok ∧ ¬ pool.Reliable ∨
      (validateHost value pool false).1 = .ok ∧ (validateHost value pool false).2.1 = host := by
  unfold hostOf at h
  dsimp only at h
  split_ifs at h with hok
  obtain ⟨host', hform⟩ := validateHost_accepts_iff.mp (by rw [hok]; simp)
  obtain ⟨-, hrel, hhost⟩ := validateHost_of_form pool false hform
  rw [(validateHost_of_form _ false hform).2.2 hok, Option.some.injEq] at h
  by_cases hpool : (validateHost value pool false).1 = .ok
  · exact Or.inr ⟨hpool, (hhost hpool).trans h⟩
  · exact Or.inl ⟨hpool, fun hr => hpool (hrel hr)⟩

theorem runHandlerIn_rejects (fr : Frame ρ) (hhandler : hv.handler = f.handler)
    (hd : f.derive value (fr.w.derived r) = none) :
    runHandlerIn r hv value fr = .ok (.error, fr) := by
  unfold runHandlerIn
  rw [hhandler]
  unfold InField.derive at hd
  cases hf : f.handler with
  | setHostHeader =>
    simp only [hf] at hd
    split_ifs at hd with hv₀
    have hhost := validateHost_of_hostOf_none fr.w.shape.pool (Option.map_eq_none_iff.mp hd)
    dsimp only
    rw [setHostHeader, if_pos hv₀, hhost]
    rfl
  | setContentLengthHeader =>
    simp only [hf] at hd
    split_ifs at hd with hv₀
    dsimp only
    rw [setContentLengthHeader, if_neg hv₀, Option.map_eq_none_iff.mp hd]
  | _ => simp [hf] at hd

theorem runHandlerIn_derives (fr : Frame ρ) {d : Derived} (hhandler : hv.handler = f.handler)
    (hsingle : f.handler ≠ .setBuiltinMultiHeader)
    (hd : f.derive value (fr.w.derived r) = some d) :
    (∃ fr', Prepared r fr fr' ∧ runHandlerIn r hv value fr = .ok (.error, fr') ∧
      ¬ fr.w.shape.pool.Reliable) ∨
    ∃ fr₁, Prepared r fr fr₁ ∧ fr₁.w.derived r = d ∧
      runHandlerIn r hv value fr = setBuiltinHeader r hv value fr₁ := by
  unfold runHandlerIn
  rw [hhandler]
  unfold InField.derive at hd
  cases hf : f.handler with
  | setHeader => cases f <;> cases hf
  | setBuiltinMultiHeader => exact absurd hf hsingle
  | setBuiltinHeader =>
    simp only [hf, Option.some.injEq] at hd
    exact Or.inr ⟨fr, .refl, hd, rfl⟩
  | setHostHeader =>
    simp only [hf] at hd
    dsimp only
    unfold setHostHeader
    split_ifs at hd with hv₀
    · cases hd
      rw [if_neg (not_not.mpr hv₀), hv₀]
      refine Or.inr ⟨_, ?_, ?_, rfl⟩
      · exact Prepared.refl.modifyIn fun _ => rfl
      · rw [derived_modifyIn]
        rfl
    · rw [if_pos hv₀]
      obtain ⟨host, hhost, rfl⟩ := Option.map_eq_some_iff.mp hd
      have hg := validateHost_grows value fr.w.shape.pool false
      have hcases := validateHost_of_hostOf fr.w.shape.pool hhost
      generalize validateHost value fr.w.shape.pool false = res at hg hcases ⊢
      obtain ⟨rc, host', pool⟩ := res
      dsimp only at hg hcases ⊢
      have h : Prepared r fr (fr.setList (fr.w.shape.setPool pool) fr.w.cell) :=
        ⟨⟨pool, hg, rfl⟩, rfl, rfl, rfl, rfl⟩
      rcases hcases with ⟨hrc, hf⟩ | ⟨rfl, rfl⟩
      · rw [if_pos hrc]
        exact Or.inl ⟨_, h, rfl, hf⟩
      · rw [if_neg (by simp)]
        refine Or.inr ⟨_, ?_, ?_, rfl⟩
        · exact h.modifyIn fun _ => rfl
        · rw [derived_modifyIn]
          rfl
  | setConnectionHeader =>
    simp only [hf, Option.some.injEq] at hd
    have h : Prepared r fr (fr.modifyIn r (connected value)) := Prepared.refl.modifyIn fun _ => rfl
    dsimp only
    rw [setConnectionHeader_eq]
    refine Or.inr ⟨_, ?_, ?_, rfl⟩
    · exact ⟨h.shape, h.cell, h.ancestors, h.status, h.ptr⟩
    · rw [← hd]
      simp [World.derived, Frame.modifyIn, World.setHeadersIn, connected]
  | setUserAgentHeader =>
    simp only [hf, Option.some.injEq] at hd
    refine Or.inr ⟨_, ?_, ?_, rfl⟩
    · exact Prepared.refl.modifyIn fun _ => rfl
    · rw [derived_modifyIn, ← hd]
      rfl
  | setContentLengthHeader =>
    simp only [hf] at hd
    dsimp only
    unfold setContentLengthHeader
    split_ifs at hd with hv₀
    · cases hd
      rw [if_pos hv₀, clearContentLengthHeader, clearBuiltinHeader, hv₀]
      refine Or.inr ⟨_, ?_, ?_, rfl⟩
      · exact Prepared.refl.modifyIn fun _ => rfl
      · rw [derived_modifyIn]
        rfl
    · rw [if_neg hv₀]
      obtain ⟨n, hn, rfl⟩ := Option.map_eq_some_iff.mp hd
      rw [hn]
      refine Or.inr ⟨_, ?_, ?_, rfl⟩
      · exact Prepared.refl.modifyIn fun _ => rfl
      · rw [derived_modifyIn]
        rfl

end Derive

section Handler

variable {ρ : Type} [DecidableEq ρ] {r : ρ} {hv : InVal} {f : InField} {value : Str}
  {fr fr' : Frame ρ} {w w' : World ρ}

/-- What a handler returns on a request mirrors what the rule returns on its view. -/
abbrev MirrorsIn (r : ρ) (w : World ρ) :
    Except Fault (Rc × World ρ) → Except Fault (Rc × RequestView) → Prop :=
  Mirrors (fun w : World ρ => w.view r) (fun w => w.InStep r) (fun w => w.shape.pool.Reliable) w

omit [DecidableEq ρ] in
theorem mirrorsIn_done {v : RequestView} (h : w'.InStep r)
    (hg : w.shape.pool.Grows w'.shape.pool) (hv : w'.view r = v) :
    MirrorsIn r w (.ok (.ok, w')) (.ok (.ok, v)) :=
  .done h (fun hr => hg.reliable.mpr hr) hv

omit [DecidableEq ρ] in
theorem view_eq {es : List (Str × Str)} {d : Derived} (hes : w'.entries r = es)
    (hd : w'.derived r = d) (hs : w'.status = w.status) :
    w'.view r = { w.view r with entries := es, derived := d } := by
  simp [World.view, hes, hd, hs]

theorem Outcome.inStep_custom (ht : hv.Tame)
    (hname : ∀ f : InField, sameName hv.key f.name = false) (h : fr.w.InStep r)
    (ho : Outcome r hv value .null fr fr') : fr'.w.InStep r where
  wellFormed := ho.wellFormed h.wellFormed
  coherent := fun f hf => by
    have hmiss : ∀ s, sameName (fr.w.cell s).key f.name = true →
        hv.hits value (fr.w.cell s).key = false := by
      intro s hs
      cases hw : hv.wildcard with
      | false => rw [hits_exact _ hw, sameName_congr hs, sameName_comm, hname f]
      | true => simp [HeaderVal.hits, hw, matchesName_congr hs, ht hw f hf]
    rw [ho.ptr_other (by simp), ho.first_missed hmiss (hname f), h.coherent f hf]

theorem setHeader_mirrors (h : w.InStep r) (ht : hv.Tame) (hhandler : hv.handler = .setHeader)
    (hname : ∀ f : InField, sameName hv.key f.name = false)
    (hclear : hv.opcode = .clear → value = []) (hpass : hv.opcode ≠ .pass) :
    MirrorsIn r w (handleIn r hv value w)
      (.ok (.ok, { w.view r with entries := hv.edit value (w.entries r) })) := by
  have hrun : handleIn r hv value w =
      (setHeaderHelper r hv value .null ⟨w, none⟩).map fun res => (res.1, res.2.w) := by
    simp only [handleIn, runHandlerIn, hhandler]
    rfl
  rw [hrun]
  rcases setHeaderHelper_cases hv value .null ⟨w, none⟩ h.wellFormed with
    ⟨fr, he, -, hf⟩ | ⟨fr, he, ho⟩
  · rw [he]
    exact .exhausted hf
  · rw [he]
    have hmerges : hv.merges = true := by simp [HeaderVal.merges, hhandler]
    have hentries := ho.entries_edit hmerges hclear hpass h.wellFormed
    exact mirrorsIn_done (ho.inStep_custom ht hname h) ho.grows (view_eq hentries ho.derived ho.status)

theorem setBuiltinHeader_frame (hwf : fr.w.shape.WellFormed r)
    (he : setBuiltinHeader r hv value fr = .ok (.ok, fr')) :
    fr.w.shape.pool.Grows fr'.w.shape.pool ∧ fr'.w.status = fr.w.status := by
  have hhelper : ∀ {out : OutRef} {fr₁ : Frame ρ},
      setHeaderHelper r hv value out fr₁ = .ok (.ok, fr') → fr₁.w.shape.WellFormed r →
      fr₁.w.shape.pool.Grows fr'.w.shape.pool ∧ fr'.w.status = fr₁.w.status := by
    intro out fr₁ he₁ hwf₁
    have ho := Outcome.of_run hwf₁ he₁
    exact ⟨ho.grows, ho.status⟩
  unfold setBuiltinHeader at he
  split at he
  · exact hhelper he hwf
  · split at he
    · exact hhelper he hwf
    · split_ifs at he
      · cases he
        exact ⟨Pool.Grows.refl _, rfl⟩
      · exact hhelper he hwf
      · obtain ⟨hg, hs⟩ := hhelper he hwf
        exact ⟨hg, hs⟩
      · cases he
        exact ⟨Pool.Grows.refl _, rfl⟩

omit [DecidableEq ρ] in
theorem Prepared.inStep {fr₁ : Frame ρ} (h : Prepared r fr fr₁) (hs : fr.w.InStep r) :
    fr₁.w.InStep r :=
  hs.congr (h.wellFormed hs.wellFormed) (h.slots hs.wellFormed) (fun s => by rw [h.cell]) h.ptr

theorem field_mirrors (h : w.InStep r) (hname : sameName hv.key f.name = true)
    (hhandler : hv.handler = f.handler) (hoff : hv.offset = some f) (hw : hv.wildcard = false)
    (hsingle : f.handler ≠ .setBuiltinMultiHeader) (happ : hv.opcode ≠ .append)
    (hclear : hv.opcode = .clear → value = []) (hpass : hv.opcode ≠ .pass) :
    MirrorsIn r w (handleIn r hv value w) (hv.effect value (w.view r)) := by
  have hmerges : hv.merges = false := by
    have hne : f.handler ≠ .setHeader := by cases f <;> decide
    simp [HeaderVal.merges, hhandler, hne, hsingle]
  have hedit : hv.effect value (w.view r) = match f.derive value (w.derived r) with
      | none => .ok (.error, w.view r)
      | some derived =>
          .ok (.ok, { w.view r with entries := hv.edit value (w.entries r), derived }) := by
    simp only [HeaderVal.effect, hoff, if_neg hsingle]
    rfl
  rw [hedit]
  cases hd : f.derive value (w.derived r) with
  | none =>
    rw [handleIn, runHandlerIn_rejects ⟨w, none⟩ hhandler hd]
    exact .rejected
  | some d =>
    rcases runHandlerIn_derives ⟨w, none⟩ hhandler hsingle hd with
      ⟨fr', -, he, hf⟩ | ⟨fr₁, hpre, hderived, he⟩
    · rw [handleIn, he]
      exact .exhausted hf
    · have h₁ : fr₁.w.InStep r := hpre.inStep h
      obtain ⟨pool, hg, hshape⟩ := hpre.shape
      have hg₁ : w.shape.pool.Grows fr₁.w.shape.pool := by
        rw [hshape]
        exact hg
      obtain ⟨rc, fr', he', hrel, hentries⟩ :=
        setBuiltinHeader_entries fr₁ h₁ hw hname hoff hsingle happ hpass hclear
      rw [handleIn, he, he']
      cases rc with
      | declined => exact absurd he' setBuiltinHeader_ne_declined
      | error => exact .exhausted fun hr => by cases hrel (hg₁.reliable.mpr hr)
      | ok =>
        obtain ⟨hg', hstatus⟩ := setBuiltinHeader_frame h₁.wellFormed he'
        have hes : fr₁.w.entries r = w.entries r := by
          simp only [World.entries, hpre.slots h.wellFormed, hpre.cell]
        have hfirst : fr₁.w.first r f.name ≠ none ↔
            ((w.entries r).any fun e => hv.matchesName e.1) = true := by
          have hany : hv.Hit value fr₁.w r ↔
              ((fr₁.w.entries r).any fun e => hv.matchesName e.1) = true :=
            hit_iff_any (by simp [hw])
          rw [← hes, ← hany, hit_iff_first hw hname]
        refine mirrorsIn_done (setBuiltinHeader_inStep h₁ hw happ hname hoff hsingle he')
          (hg₁.trans hg') (view_eq ?_ ?_ (hstatus.trans hpre.status))
        · rw [hentries rfl, hes]
          simp only [hfirst, HeaderVal.edit, hw, hmerges, Bool.false_eq_true, false_and, if_false,
            true_and]
        · exact (setBuiltinHeader_derived h₁.wellFormed he').trans hderived

theorem entries_linkHead (fr : Frame ρ) (r : ρ) (f : InField) (a : ℕ) :
    (fr.linkHead r f a).w.entries r = fr.w.entries r := by
  unfold World.entries
  apply List.map_congr_left
  intro s _
  by_cases hs : s = a <;>
    simp [Frame.linkHead, World.setList, World.setPtr, World.setHeadersIn, hs]

theorem multi_mirrors (h : w.InStep r) (hname : sameName hv.key f.name = true)
    (hhandler : hv.handler = f.handler) (hoff : hv.offset = some f) (hw : hv.wildcard = false)
    (hmulti : f.handler = .setBuiltinMultiHeader) (happ : hv.opcode ≠ .append)
    (hclear : hv.opcode = .clear → value = []) (hpass : hv.opcode ≠ .pass) :
    MirrorsIn r w (handleIn r hv value w) (hv.effect value (w.view r)) := by
  have hrun : handleIn r hv value w =
      (setBuiltinMultiHeader r hv value ⟨w, none⟩).map fun res => (res.1, res.2.w) := by
    simp only [handleIn, runHandlerIn, hhandler, hmulti]
  have hmerges : hv.merges = true := by simp [HeaderVal.merges, hhandler, hmulti]
  simp only [hrun, HeaderVal.effect, hoff, hmulti, if_true]
  by_cases hstatus : w.status r = 400
  · have he : setBuiltinMultiHeader r hv value ⟨w, none⟩ = .ok (.ok, ⟨w, none⟩) := by
      rw [setBuiltinMultiHeader, if_pos (Or.inl hstatus)]
    rw [he, if_pos (by simpa [World.view] using hstatus)]
    exact mirrorsIn_done h (Pool.Grows.refl _) rfl
  rw [if_neg (by simpa [World.view] using hstatus)]
  set fr₀ : Frame ρ := Frame.dropChain ⟨w, none⟩ r f with hfr₀
  have hshape : fr₀.w.shape = w.shape := shape_dropChain
  have hwf₀ : fr₀.w.shape.WellFormed r := hshape ▸ h.wellFormed
  have hes : fr₀.w.entries r = w.entries r := by
    rw [World.entries, hshape, hfr₀, cell_dropChain, World.entries]
  have hit : hv.Hit value fr₀.w r ↔ ((w.entries r).any fun e => hv.matchesName e.1) = true := by
    rw [hit_iff_any (by simp [hw]), hes]
  have hnull : (fr₀.w.headersIn r).ptr f = none := ptr_dropChain
  cases hu : hv.leavesUnset value (w.view r).entries with
  | true =>
    obtain ⟨hv₀, hcase⟩ := of_decide_eq_true hu
    have he : setHeaderHelper r hv value .localVar fr₀ = .ok (.ok, fr₀) := by
      rcases hcase with ⟨hadd, hany⟩ | ⟨hre, hany⟩
      · exact setHeaderHelper_add hwf₀ hadd (hit.mpr hany)
      · have hno : ¬ hv.Hit value fr₀.w r := fun hh => by
          rw [World.view, hit.mp hh] at hany
          cases hany
        rw [setHeaderHelper_no_hit hwf₀ happ hno, if_pos (Or.inr hre)]
    rw [setBuiltinMultiHeader_of_helper h.wellFormed hstatus hoff he hnull, if_neg hv₀]
    exact .fault
  | false =>
    have hfree := of_decide_eq_false hu
    rcases setHeaderHelper_cases hv value .localVar fr₀ hwf₀ with
      ⟨fr₁, he, -, hf⟩ | ⟨fr₁, he, ho⟩
    · rw [setBuiltinMultiHeader_of_error h.wellFormed hstatus hoff he]
      exact .exhausted (by rwa [hshape] at hf)
    · have hentries : fr₁.w.entries r = hv.edit value (w.entries r) := by
        rw [← hes]
        exact ho.entries_edit hmerges hclear hpass hwf₀
      have hgrows : w.shape.pool.Grows fr₁.w.shape.pool := hshape ▸ ho.grows
      have hderived : fr₁.w.derived r = w.derived r := ho.derived.trans derived_dropChain
      have hst : fr₁.w.status = w.status := ho.status.trans status_dropChain
      have hres := setBuiltinMultiHeader_of_helper h.wellFormed hstatus hoff he
        ((ho.ptr_other (by simp)).trans hnull)
      by_cases hv₀ : value = []
      · rw [if_pos hv₀] at hres
        have hin : fr₁.w.InStep r :=
          setBuiltinMultiHeader_inStep hname hoff (by exact h) hw hmulti hres
        rw [hres]
        exact mirrorsIn_done hin hgrows (view_eq hentries hderived hst)
      · have hadd : ¬ (hv.opcode = .add ∧ hv.Hit value fr₀.w r) := fun hc =>
          hfree ⟨hv₀, Or.inl ⟨hc.1, hit.mp hc.2⟩⟩
        have hre : ¬ (hv.opcode = .rewrite ∧ ¬ hv.Hit value fr₀.w r) := fun hc =>
          hfree ⟨hv₀, Or.inr ⟨hc.1, Bool.eq_false_iff.mpr (mt hit.mpr hc.2)⟩⟩
        obtain ⟨a, ha, -⟩ := ho.only_entry hw hname hwf₀ happ hv₀ hadd hre
        rw [if_neg hv₀, ha] at hres
        have hin : (fr₁.linkHead r f a).w.InStep r :=
          setBuiltinMultiHeader_inStep hname hoff (by exact h) hw hmulti hres
        rw [hres]
        exact mirrorsIn_done hin hgrows
          (view_eq ((entries_linkHead fr₁ r f a).trans hentries)
            (derived_linkHead.trans hderived) hst)

theorem HeaderVal.Parsed.offset_custom (hp : hv.Parsed setHandlersIn)
    (hname : ∀ f : InField, sameName hv.key f.name = false) : hv.offset = none := by
  rcases hp.cases with ⟨e, he, -, hname', -⟩ | ⟨-, -, hoff⟩
  · obtain ⟨f, -, rfl⟩ := List.mem_map.mp he
    rw [hname f] at hname'
    cases hname'
  · exact hoff

/-- On a request in step with its pointers, a tame rule does what it does to the view. -/
theorem handleIn_mirrors (h : w.InStep r) (hp : hv.Parsed setHandlersIn) (ht : hv.Tame)
    (hclear : hv.opcode = .clear → value = []) (hpass : hv.opcode ≠ .pass) :
    MirrorsIn r w (handleIn r hv value w) (hv.effect value (w.view r)) := by
  rcases hp.field_or_custom with ⟨f, hname, hhandler, hoff, happ⟩ | ⟨hname, hhandler⟩
  · have hw := hp.exact_of_field hname
    by_cases hmulti : f.handler = .setBuiltinMultiHeader
    · exact multi_mirrors h hname hhandler hoff hw hmulti happ hclear hpass
    · exact field_mirrors h hname hhandler hoff hw hmulti happ hclear hpass
  · have heffect : hv.effect value (w.view r) =
        .ok (.ok, { w.view r with entries := hv.edit value (w.entries r) }) := by
      rw [HeaderVal.effect, hp.offset_custom hname]
      rfl
    rw [heffect]
    exact setHeader_mirrors h ht hhandler hname hclear hpass

end Handler

end HeadersControl
