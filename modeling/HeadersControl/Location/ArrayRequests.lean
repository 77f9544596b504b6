import HeadersControl.Location.Safety
import HeadersControl.Request.Arrays

/-! # The request loop before nginx 1.23

In a build that keeps multi-valued headers in arrays the loop never runs into a
fault, and where the loop of the newer build comes to an end it comes to the same.
-/

namespace HeadersControl

open Segments Segments.Shape

section Handlers

variable {hv : InVal} {value : Str} {w : World Unit} {t t' : ArrayRequest}

theorem handleInArray_id (id : ℕ) : handleInArray { hv with id } = handleInArray hv := by
  funext value t
  simp only [handleInArray, setBuiltinMultiHeaderInArray, setHeaderHelper_id, handleIn_id]

theorem handleInArray_of_ne (h : hv.handler ≠ .setBuiltinMultiHeader) :
    handleInArray hv value t =
      (handleIn () hv value t.world).map fun p => (p.1, { t with world := p.2 }) := by
  unfold handleInArray
  split
  · exact absurd ‹_› h
  · rfl

theorem handleInArray_ne_declined : handleInArray hv value t ≠ .ok (.declined, t') := by
  intro he
  unfold handleInArray at he
  split at he
  · unfold setBuiltinMultiHeaderInArray at he
    split at he
    · cases he
    · split at he
      · cases he
      · split at he
        · cases he
        · dsimp only at he
          split at he
          · cases he
          · cases he
          · split_ifs at he
            · cases he
            · split at he
              · cases he
              · split at he
                · cases he
                · cases he
  · cases hrun : handleIn () hv value t.world with
    | error e => simp [hrun, Except.map] at he
    | ok p =>
      obtain ⟨rc, w'⟩ := p
      rw [hrun] at he
      cases he
      exact handleIn_ne_declined hrun

theorem setBuiltinMultiHeaderInArray_safe {f : InField} (value : Str) (hoff : hv.offset = some f)
    (hwf : t.world.shape.WellFormed ()) :
    ∃ rc t', setBuiltinMultiHeaderInArray hv value t = .ok (rc, t') ∧
      t'.world.shape.WellFormed () := by
  unfold setBuiltinMultiHeaderInArray
  by_cases hbad : t.world.status () = 400 ∨ (t.world.shape.header ()).last = none
  · rw [if_pos hbad]
    exact ⟨.ok, t, rfl, hwf⟩
  rw [if_neg hbad, hoff]
  dsimp only [ArrayRequest.setArray]
  generalize (t.arrays f).reset = res
  obtain ⟨done, pa⟩ := res
  cases done with
  | false => exact ⟨.error, _, rfl, hwf⟩
  | true =>
    dsimp only
    rcases setHeaderHelper_cases hv value .localVar ⟨t.world, some none⟩ hwf with
      ⟨fr, he, hwf₁, -⟩ | ⟨fr, he, ho⟩
    · rw [he]
      exact ⟨.error, _, rfl, hwf₁⟩
    · rw [he]
      have hwf₁ := ho.wellFormed hwf
      have hassigned := ho.assigned (Option.some_ne_none _)
      dsimp only
      split_ifs
      · exact ⟨.ok, _, rfl, hwf₁⟩
      · split
        · exact ⟨.error, _, rfl, hwf₁⟩
        · split
          · exact absurd ‹_› hassigned
          · exact ⟨.ok, _, rfl, hwf₁⟩

theorem handleInArray_safe (value : Str) (hwf : t.world.shape.WellFormed ())
    (hp : hv.Parsed setHandlersIn) :
    ∃ rc t', handleInArray hv value t = .ok (rc, t') ∧ t'.world.shape.WellFormed () := by
  by_cases hmulti : hv.handler = .setBuiltinMultiHeader
  · have hrun : handleInArray hv value t = setBuiltinMultiHeaderInArray hv value t := by
      simp only [handleInArray, hmulti]
    rcases hp.field_or_custom with ⟨f, -, -, hoff, -⟩ | ⟨-, hcustom⟩
    · rw [hrun]
      exact setBuiltinMultiHeaderInArray_safe value hoff hwf
    · rw [hmulti] at hcustom
      cases hcustom
  · rcases handleIn_safe value hwf hp with ⟨rc, w', he, hwf'⟩ | ⟨e, -, -, hm, -⟩
    · rw [handleInArray_of_ne hmulti, he]
      exact ⟨rc, _, rfl, hwf'⟩
    · exact absurd hm hmulti

theorem matchesName_multi {g : InField} (hp : hv.Parsed setHandlersIn) (hsp : hv.SparesChains)
    (hmulti : hv.handler ≠ .setBuiltinMultiHeader) (hg : g.handler = .setBuiltinMultiHeader) :
    hv.matchesName g.name = false := by
  cases hw : hv.wildcard with
  | true => exact hsp hw g hg
  | false =>
    rw [matchesName_exact hw, sameName_comm]
    rcases hp.field_or_custom with ⟨f, hname, hhandler, -, -⟩ | ⟨hno, -⟩
    · have hfg : f ≠ g := by
        rintro rfl
        exact hmulti (hhandler.trans hg)
      rw [sameName_congr hname, sameName_ne hfg]
    · exact hno g

/-- A rule does in the older build what it does in the newer one, unless it faults there. -/
theorem handleIn_follows (value : Str) (hp : hv.Parsed setHandlersIn) (hsp : hv.SparesChains)
    (hwf : w.shape.WellFormed ()) (ha : w.Agrees t) :
    Follows (fun w t => w.shape.WellFormed () ∧ w.Agrees t) (fun w t => t.world = w.older)
      (handleIn () hv value w) (handleInArray hv value t) := by
  by_cases hmulti : hv.handler = .setBuiltinMultiHeader
  · rcases hp.field_or_custom with ⟨f, hname, hhandler, hoff, happ⟩ | ⟨-, hcustom⟩
    · simp only [handleIn, runHandlerIn, handleInArray, hmulti]
      exact setBuiltinMultiHeader_follows value hname hoff (hhandler.symm.trans hmulti)
        (hp.exact_of_field hname) happ hwf ha
    · rw [hmulti] at hcustom
      cases hcustom
  · obtain ⟨world, arrays⟩ := t
    obtain ⟨hworld, harrays⟩ := ha
    dsimp only at hworld harrays
    subst hworld
    have hsingle : ∀ f, hv.offset = some f → f.handler ≠ .setBuiltinMultiHeader := by
      intro f hf
      rcases hp.field_or_custom with ⟨g, -, hhandler, hoff, -⟩ | ⟨hno, -⟩
      · cases hf.symm.trans hoff
        rwa [← hhandler]
      · rw [hp.offset_custom hno] at hf
        cases hf
    have hframe : (⟨w, none⟩ : Frame Unit).older none = ⟨w.older, none⟩ := rfl
    have holder : handleIn () hv value w.older =
        (handleIn () hv value w).map fun p => (p.1, p.2.older) := by
      have hrun : runHandlerIn () hv value ⟨w.older, none⟩ =
          atOlder none (runHandlerIn () hv value ⟨w, none⟩) := by
        rw [← hframe]
        exact runHandlerIn_older hmulti hsingle
      unfold handleIn
      rw [hrun]
      cases runHandlerIn () hv value ⟨w, none⟩ with
      | error e => rfl
      | ok res => rfl
    rw [handleInArray_of_ne hmulti, holder]
    rcases handleIn_safe value hwf hp with ⟨rc, w', he, hwf'⟩ | ⟨e, he, -⟩
    · rw [he]
      refine .ended rfl fun hrc => ⟨hwf', rfl, fun g hg => ?_⟩
      obtain ⟨hs, hl, hpa⟩ := harrays g hg
      have hok : rc = .ok := by
        cases rc with
        | ok => rfl
        | error => exact absurd rfl hrc
        | declined => exact absurd he handleIn_ne_declined
      subst hok
      obtain ⟨fr', hrun, rfl⟩ := handleIn_eq_ok he
      have hmiss := matchesName_multi hp hsp hmulti hg
      exact ⟨hs, runHandlerIn_lists hp hmulti hg hmiss hwf hl hrun, hpa⟩
    · rw [he]
      exact .fault

end Handlers

section Cycle

variable {ι : Type} [DecidableEq ι] {compiles : Str → Bool} {intTLen : ℕ}
  {parent : ι → Option ι} {c₀ c : Cycle ι InHandler InField OutHandler OutField}
  {merged : List ι} {i : ι} {path : List ι}

theorem Configured.runInArray (hl : Configured compiles intTLen parent c₀ c merged i path)
    (cv : ComplexValue → ArrayRequest → Option Str) (t : ArrayRequest) :
    runRules intTLen (execInputHeaderArray cv) (c.input.rules i) t =
      reference (condition cv) (action cv handleInArray) (c₀.input.chain path) [] t := by
  obtain ⟨hin, hout⟩ := inv_of_parsed hl.parsed
  have hmerged := (merged_of_run hin hout hl.merge).1
  exact (hmerged.chains hl.one_le hl.le_width (fun _ n => handleInArray_id n)
    (fun _ _ _ _ => handleInArray_ne_declined) hin hl.settled hl.lineage).run t

/--
In every location the request loop of the older build comes to an end without a fault, on every
well-formed list and whatever the arrays are. Where no wildcard rule matches a multi-valued header
and the arrays list the chains, it returns what the loop of the newer build returns, unless that one
runs into its fault, with the same list and the same fields, and the arrays still list the chains.
-/
theorem older_request_build (hl : Configured compiles intTLen parent c₀ c merged i path)
    (cv : ComplexValue → World Unit → Option Str)
    (cv' : ComplexValue → ArrayRequest → Option Str) :
    (∀ t : ArrayRequest, t.world.shape.WellFormed () →
      ∃ rc t', runRules intTLen (execInputHeaderArray cv') (c.input.rules i) t = .ok (rc, t') ∧
        t'.world.shape.WellFormed ()) ∧
    ((∀ h ∈ c₀.input.chain path, h.SparesChains) →
      (∀ text w t, w.Agrees t → cv text w = cv' text t) →
      ∀ (w : World Unit) (t : ArrayRequest), w.shape.WellFormed () → w.Agrees t →
      ∀ rc w', runRules intTLen (execInputHeader cv ()) (c.input.rules i) w = .ok (rc, w') →
      ∃ t', runRules intTLen (execInputHeaderArray cv') (c.input.rules i) t = .ok (rc, t') ∧
        t'.world = w'.older ∧ (rc = .ok → w'.Agrees t')) := by
  constructor
  · intro t hwf
    rw [hl.runInArray]
    have hsafe := reference_safe cv' handleInArray [] (J := fun _ t => t.world.shape.WellFormed ())
      (F := fun _ _ => False) (fun _ _ _ _ => handleInArray_ne_declined) (fun _ h => h)
      (fun h hm value _ t hwf => Or.inl (handleInArray_safe value hwf (hl.parsedIn h hm))) hwf
    rcases hsafe with hok | ⟨_, _, _, _, hf⟩
    · exact hok
    · exact hf.elim
  · intro hsp hcv w t hwf ha rc w' he
    have hf : Follows (fun w t => w.shape.WellFormed () ∧ w.Agrees t) (fun w t => t.world = w.older)
        (reference (condition cv) (action cv (handleIn ())) (c₀.input.chain path) [] w)
        (reference (condition cv') (action cv' handleInArray) (c₀.input.chain path) [] t) := by
      apply reference_related (S := fun w t => w.shape.WellFormed () ∧ w.Agrees t)
      · exact fun text w t h => hcv text w t h.2
      · exact fun _ w t h => .ended h.2.world fun _ => h
      · exact fun _ _ _ _ hab hk => hab.bind hk
      · exact fun h hm value w t hst =>
          handleIn_follows value (hl.parsedIn h hm) (hsp h hm) hst.1 hst.2
      · exact ⟨hwf, ha⟩
    rw [hl.runIn] at he
    rw [hl.runInArray]
    rw [he] at hf
    generalize reference (condition cv') (action cv' handleInArray) (c₀.input.chain path) [] t = res
      at hf ⊢
    cases hf with
    | @ended _ _ t' hw hs => exact ⟨t', rfl, hw, fun hrc => (hs (by simp [hrc])).2⟩

end Cycle

def oneCookieArray : ArrayRequest where
  world := oneCookie.older
  arrays f := if f = .cookie then ⟨some [some 1], 2, fun _ => false, 0⟩
    else ⟨none, 0, fun _ => false, 0⟩

theorem oneCookieArray_agrees : oneCookie.Agrees oneCookieArray where
  world := rfl
  arrays := fun f hf => by
    have hcases : f = .xForwardedFor ∨ f = .cookie := by
      cases f <;> first | exact Or.inl rfl | exact Or.inr rfl | cases hf
    rcases hcases with rfl | rfl
    · exact ⟨[], ⟨rfl, by simp⟩, ⟨rfl, fun _ => rfl, fun _ => rfl⟩⟩
    · exact ⟨[1], ⟨⟨rfl, rfl⟩, by decide⟩, ⟨rfl, (fun h => by cases h), fun _ => rfl⟩⟩

/-- The location with `set Cookie c=d` behind a wildcard rule, in both builds. -/
theorem older_request_build_cookie :
    ∃ c : Cycle Bool InHandler InField OutHandler OutField,
      staleDirectives.foldlM (readDirective (fun _ => true) setHandlersIn setHandlersOut)
        .initial = .ok c ∧
      ∃ rc w' t',
        runRules 20 (execInputHeader (fun text _ => some text) ())
          ((c.mergeLocConf 20 true false).input.rules false) oneCookie = .ok (rc, w') ∧
        runRules 20 (execInputHeaderArray fun text _ => some text)
          ((c.mergeLocConf 20 true false).input.rules false) oneCookieArray = .ok (rc, t') ∧
        t'.world = w'.older ∧ (rc = .ok → w'.Agrees t') := by
  refine ⟨_, rfl, .ok, ?_⟩
  have hboth := older_request_build (configured_child (fun _ => true) staleDirectives rfl)
    (fun text _ => some text) (fun text _ => some text)
  obtain ⟨t', hrun, hrest⟩ := hboth.2 (by decide) (fun _ _ _ _ => rfl) oneCookie oneCookieArray
    (single_wellFormed (by decide) (by decide)) oneCookieArray_agrees .ok _ rfl
  exact ⟨_, t', rfl, hrun, hrest⟩

end HeadersControl
