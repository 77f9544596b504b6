import HeadersControl.Location.Responses
import HeadersControl.Location.Safety
import HeadersControl.Response.Arrays

/-! # The response loop before nginx 1.23

The rules of a location come to the same end in a build that keeps `Cache-Control`
in an array and in one that keeps it in a chain.
-/

namespace HeadersControl

open Segments Response

section Handlers

variable {hv : OutVal} {value : Str} {s : Response} {t t' : ArrayResponse}

theorem handleOutArray_id (id : ℕ) : handleOutArray { hv with id } = handleOutArray hv := by
  funext value t
  simp only [handleOutArray, setBuiltinMultiHeaderArray, handleOut_id]

theorem handleOutArray_ne_declined : handleOutArray hv value t ≠ .ok (.declined, t') := by
  intro he
  unfold handleOutArray at he
  split at he
  · unfold setBuiltinMultiHeaderArray at he
    split at he
    · cases he
    · split at he
      · cases he
      · split at he
        · split at he
          · cases he
          · split at he
            · cases he
            · cases he
        · split_ifs at he
          · cases he
          · split at he
            · cases he
            · split at he
              · cases he
              · cases he
              · cases he
  · cases hrun : handleOut hv value t.rest with
    | error e => simp [hrun, Except.map] at he
    | ok p =>
      obtain ⟨rc, s'⟩ := p
      rw [hrun] at he
      cases he
      exact handleOut_ne_declined hrun

theorem handleOut_in_step (value : Str) (hp : hv.Parsed setHandlersOut)
    (hst : s.CacheChain ∧ Agrees s t) :
    Matched (fun s t => s.CacheChain ∧ Agrees s t) Same (handleOut hv value s)
      (handleOutArray hv value t) := by
  obtain ⟨hc, ha⟩ := hst
  obtain ⟨rc, s', he, -, hok⟩ := handleOut_safe value hc hp
  have hm := handleOut_agrees value hc ha hp
  rw [he] at hm ⊢
  generalize handleOutArray hv value t = res at hm ⊢
  cases hm with
  | ended hw hs =>
    refine .ended hw fun hrc => ⟨?_, hs hrc⟩
    cases rc with
    | ok => exact hok rfl
    | error => exact absurd rfl hrc
    | declined => exact absurd he handleOut_ne_declined

end Handlers

section Cycle

variable {ι : Type} [DecidableEq ι] {compiles : Str → Bool} {intTLen : ℕ}
  {parent : ι → Option ι} {c₀ c : Cycle ι InHandler InField OutHandler OutField}
  {merged : List ι} {i : ι} {path : List ι}

theorem Configured.runOutArray (hl : Configured compiles intTLen parent c₀ c merged i path)
    (cv : ComplexValue → ArrayResponse → Option Str) (t : ArrayResponse) :
    runRules intTLen (execOutputHeaderArray cv) (c.output.rules i) t =
      reference (condition cv) (action cv handleOutArray) (c₀.output.chain path) [] t := by
  obtain ⟨hin, hout⟩ := inv_of_parsed hl.parsed
  have hmerged := (merged_of_run hin hout hl.merge).2
  exact (hmerged.chains hl.one_le hl.le_width (fun _ n => handleOutArray_id n)
    (fun _ _ _ _ => handleOutArray_ne_declined) hout hl.settled hl.lineage).run t

/--
In every location the loop of the older build returns what the loop of the newer one returns, with
the same visible entries and the same fields of the response, and with the array still in step with
the chain. The array has to list the chain at first, memory for it must not run out, and the values
of the rules must not depend on which of the two is there.
-/
theorem older_build_agrees (hl : Configured compiles intTLen parent c₀ c merged i path)
    (cv : ComplexValue → Response → Option Str)
    (cv' : ComplexValue → ArrayResponse → Option Str)
    (hcv : ∀ text s t, Agrees s t → cv text s = cv' text t) (s : Response) (t : ArrayResponse)
    (hc : s.CacheChain) (ha : Agrees s t) :
    ∃ rc s' t', runRules intTLen (execOutputHeader cv) (c.output.rules i) s = .ok (rc, s') ∧
      runRules intTLen (execOutputHeaderArray cv') (c.output.rules i) t = .ok (rc, t') ∧
      t'.rest.visible = s'.visible ∧ t'.rest.fields = s'.fields ∧
      (rc = .ok → s'.CacheChain ∧ Agrees s' t') := by
  rw [hl.runOut, hl.runOutArray]
  obtain ⟨rc, s', he, -, -⟩ := reference_safe_out hl.parsedOut cv hc
  have hm : Matched (fun s t => s.CacheChain ∧ Agrees s t) Same
      (reference (condition cv) (action cv handleOut) (c₀.output.chain path) [] s)
      (reference (condition cv') (action cv' handleOutArray) (c₀.output.chain path) [] t) := by
    apply reference_matched
    · exact fun _ _ h => h.2.same
    · exact fun text s t h => hcv text s t h.2
    · exact fun h hh value _ _ hst => handleOut_in_step value (hl.parsedOut h hh) hst
    · exact ⟨hc, ha⟩
  rw [he] at hm
  generalize reference (condition cv') (action cv' handleOutArray) (c₀.output.chain path) [] t = res
    at hm ⊢
  cases hm with
  | @ended _ _ t' hw hs =>
    refine ⟨rc, s', t', he, rfl, ?_, ?_, fun hrc => hs (by simp [hrc])⟩
    · obtain ⟨x, hx⟩ := hw
      rw [hx]
      rfl
    · obtain ⟨x, hx⟩ := hw
      rw [hx]
      rfl

end Cycle

def publicPageArray : ArrayResponse where
  rest := publicPage.withHead none
  cacheControl := ⟨some [some 0, some 1], 2, fun _ => false, 0⟩

theorem publicPageArray_agrees : Agrees publicPage publicPageArray where
  same := ⟨none, rfl⟩
  listed := ⟨[0, 1], ⟨rfl, rfl, rfl⟩, rfl⟩
  ample := fun _ => rfl

/-- The location with `set Cache-Control private`, in both builds. -/
theorem older_build_agrees_reply :
    ∃ c : Cycle Bool InHandler InField OutHandler OutField,
      replyDirectives.foldlM (readDirective (fun _ => true) setHandlersIn setHandlersOut) .initial =
        .ok c ∧
      ∃ rc s' t',
        runRules 20 (execOutputHeader fun text _ => some text)
          ((c.mergeLocConf 20 true false).output.rules false) publicPage = .ok (rc, s') ∧
        runRules 20 (execOutputHeaderArray fun text _ => some text)
          ((c.mergeLocConf 20 true false).output.rules false) publicPageArray = .ok (rc, t') ∧
        t'.rest.visible = s'.visible ∧ t'.rest.fields = s'.fields ∧
        (rc = .ok → s'.CacheChain ∧ Agrees s' t') := by
  refine ⟨_, rfl, ?_⟩
  exact older_build_agrees (configured_child (fun _ => true) replyDirectives rfl)
    (fun text _ => some text) (fun text _ => some text) (fun _ _ _ _ => rfl) publicPage
    publicPageArray publicPage_chain publicPageArray_agrees

end HeadersControl
