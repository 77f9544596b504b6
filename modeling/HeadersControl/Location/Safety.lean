import HeadersControl.Location.Requests
import HeadersControl.Response.CacheControl

/-! # What no configuration can do

Whatever the rules of a location are, and wherever the typed pointers have been
left by wildcard rules, the loops terminate, scan within the parts of the lists
and leave them well-formed. The one fault that is left is the unassigned local
variable of multi-valued request headers. A write through a pointer that has been
left behind is no fault here, although its slot may be out of the list.
-/

namespace HeadersControl

open Segments Segments.Shape

section Request

variable {ρ : Type} [DecidableEq ρ] {r : ρ} {hv : InVal} {f : InField} {value : Str} {w : World ρ}

/-- The fault that a rule of the request side can run into. -/
def MayFault (hv : InVal) (e : Fault) : Prop :=
  e = .unset ∧ hv.handler = .setBuiltinMultiHeader ∧ (hv.opcode = .add ∨ hv.opcode = .rewrite)

theorem setHeaderHelper_safe (hv : InVal) (value : Str) (out : OutRef) (fr : Frame ρ)
    (hwf : fr.w.shape.WellFormed r) :
    ∃ rc fr', setHeaderHelper r hv value out fr = .ok (rc, fr') ∧ fr'.w.shape.WellFormed r := by
  rcases setHeaderHelper_cases hv value out fr hwf with ⟨fr', he, hwf', -⟩ | ⟨fr', he, ho⟩
  · exact ⟨.error, fr', he, hwf'⟩
  · exact ⟨.ok, fr', he, ho.wellFormed hwf⟩

theorem setBuiltinHeader_safe (hv : InVal) (value : Str) (fr : Frame ρ)
    (hwf : fr.w.shape.WellFormed r) :
    ∃ rc fr', setBuiltinHeader r hv value fr = .ok (rc, fr') ∧ fr'.w.shape.WellFormed r := by
  unfold setBuiltinHeader
  split
  · exact setHeaderHelper_safe hv value _ fr hwf
  · split
    · exact setHeaderHelper_safe hv value _ fr hwf
    · split_ifs
      · exact ⟨.ok, fr, rfl, hwf⟩
      · exact setHeaderHelper_safe hv value _ fr hwf
      · exact setHeaderHelper_safe hv value _ _ hwf
      · exact ⟨.ok, _, rfl, hwf⟩

theorem runHandlerIn_safe (fr : Frame ρ) (hhandler : hv.handler = f.handler)
    (hsingle : f.handler ≠ .setBuiltinMultiHeader) (hwf : fr.w.shape.WellFormed r) :
    ∃ rc fr', runHandlerIn r hv value fr = .ok (rc, fr') ∧ fr'.w.shape.WellFormed r := by
  cases hd : f.derive value (fr.w.derived r) with
  | none => exact ⟨.error, fr, runHandlerIn_rejects fr hhandler hd, hwf⟩
  | some d =>
    rcases runHandlerIn_derives fr hhandler hsingle hd with
      ⟨fr', hpre, he, -⟩ | ⟨fr₁, hpre, -, he⟩
    · exact ⟨.error, fr', he, hpre.wellFormed hwf⟩
    · rw [he]
      exact setBuiltinHeader_safe hv value fr₁ (hpre.wellFormed hwf)

theorem setBuiltinMultiHeader_safe (value : Str) (fr : Frame ρ) (hwf : fr.w.shape.WellFormed r)
    (hname : sameName hv.key f.name = true) (hoff : hv.offset = some f) (hw : hv.wildcard = false)
    (happ : hv.opcode ≠ .append) :
    (∃ rc fr', setBuiltinMultiHeader r hv value fr = .ok (rc, fr') ∧ fr'.w.shape.WellFormed r) ∨
      setBuiltinMultiHeader r hv value fr = .error .unset ∧
        (hv.opcode = .add ∨ hv.opcode = .rewrite) := by
  by_cases hstatus : fr.w.status r = 400
  · exact Or.inl ⟨.ok, fr, by rw [setBuiltinMultiHeader, if_pos (Or.inl hstatus)], hwf⟩
  have hwf₀ : (fr.dropChain r f).w.shape.WellFormed r := by simpa using hwf
  rcases setHeaderHelper_cases hv value .localVar (fr.dropChain r f) hwf₀ with
    ⟨fr₁, he, hwf₁, -⟩ | ⟨fr₁, he, ho⟩
  · exact Or.inl ⟨.error, fr₁, setBuiltinMultiHeader_of_error hwf hstatus hoff he, hwf₁⟩
  have hwf₁ := ho.wellFormed hwf₀
  rw [setBuiltinMultiHeader_of_helper hwf hstatus hoff he
    ((ho.ptr_other (by simp)).trans ptr_dropChain)]
  by_cases hv₀ : value = []
  · exact Or.inl ⟨.ok, fr₁, if_pos hv₀, hwf₁⟩
  rw [if_neg hv₀]
  by_cases hadd : hv.opcode = .add ∧ hv.Hit value (fr.dropChain r f).w r
  · cases he.symm.trans (setHeaderHelper_add hwf₀ hadd.1 hadd.2)
    exact Or.inr ⟨rfl, Or.inl hadd.1⟩
  by_cases hre : hv.opcode = .rewrite ∧ ¬ hv.Hit value (fr.dropChain r f).w r
  · rw [setHeaderHelper_no_hit hwf₀ happ hre.2, if_pos (Or.inr hre.1)] at he
    cases he
    exact Or.inr ⟨rfl, Or.inr hre.1⟩
  · obtain ⟨a, ha, -⟩ := ho.only_entry hw hname hwf₀ happ hv₀ hadd hre
    rw [ha]
    exact Or.inl ⟨.ok, fr₁.linkHead r f a, rfl, hwf₁⟩

theorem handleIn_safe (value : Str) (hwf : w.shape.WellFormed r) (hp : hv.Parsed setHandlersIn) :
    (∃ rc w', handleIn r hv value w = .ok (rc, w') ∧ w'.shape.WellFormed r) ∨
      ∃ e, handleIn r hv value w = .error e ∧ MayFault hv e := by
  have hlift : ∀ {res : Except Fault (Rc × Frame ρ)}, runHandlerIn r hv value ⟨w, none⟩ = res →
      (∃ rc fr', res = .ok (rc, fr') ∧ fr'.w.shape.WellFormed r) →
      ∃ rc w', handleIn r hv value w = .ok (rc, w') ∧ w'.shape.WellFormed r := by
    rintro res hrun ⟨rc, fr', rfl, hwf'⟩
    exact ⟨rc, fr'.w, by rw [handleIn, hrun]; rfl, hwf'⟩
  rcases hp.field_or_custom with ⟨f, hname, hhandler, hoff, happ⟩ | ⟨-, hhandler⟩
  · by_cases hmulti : f.handler = .setBuiltinMultiHeader
    · have hm : hv.handler = .setBuiltinMultiHeader := hhandler.trans hmulti
      have hrun : runHandlerIn r hv value ⟨w, none⟩ =
          setBuiltinMultiHeader r hv value ⟨w, none⟩ := by
        simp only [runHandlerIn, hm]
      rcases setBuiltinMultiHeader_safe value ⟨w, none⟩ hwf hname hoff
        (hp.exact_of_field hname) happ with hok | ⟨he, hop⟩
      · exact Or.inl (hlift hrun hok)
      · exact Or.inr ⟨.unset, by rw [handleIn, hrun, he]; rfl, rfl, hm, hop⟩
    · exact Or.inl (hlift rfl (runHandlerIn_safe ⟨w, none⟩ hhandler hmulti hwf))
  · have hrun : runHandlerIn r hv value ⟨w, none⟩ =
        setHeaderHelper r hv value .null ⟨w, none⟩ := by
      simp only [runHandlerIn, hhandler]
      rfl
    exact Or.inl (hlift hrun (setHeaderHelper_safe hv value .null ⟨w, none⟩ hwf))

end Request

namespace Response

variable {s s' : Response} {hv : OutVal} {value : Str}

theorem cacheChain_wildcard (hc : s.CacheChain) (hp : hv.Parsed setHandlersOut)
    (hw : hv.wildcard = true) (he : handleOut hv value s = .ok (.ok, s')) : s'.CacheChain := by
  simp only [handleOut, hp.of_wildcard hw] at he
  obtain ⟨rc, s₁, he₁, -, hok⟩ := setHeaderHelper_run hv value none false hc.wellFormed
  cases he.symm.trans he₁
  have hr := cacheChain_repairLocation hc
  have hkey : sameName hv.key (str "Cache-Control") = false := by
    rw [← Bool.not_eq_true]
    intro hname
    rw [(multi_of_sameName hp hname).2.2.1] at hw
    cases hw
  cases hok rfl with
  | unchanged => exact hr
  | swept => exact cacheChain_sweep hr _ _
  | @created a sh _ hwf _ hslots hnew =>
    have hsp : s.repairLocation.Spares
        (((s.repairLocation.setShape sh).setCell a (newElt hv value)).store none a) :=
      spares_created hkey (by simp) hr.apart hslots hnew
    exact ⟨by simpa using hwf, hsp.chain hr.chain, hsp.apart⟩

theorem handleOut_safe (value : Str) (hc : s.CacheChain) (hp : hv.Parsed setHandlersOut) :
    ∃ rc s', handleOut hv value s = .ok (rc, s') ∧ s'.shape.WellFormed () ∧
      (rc = .ok → s'.CacheChain) := by
  obtain ⟨rc, s', he⟩ := handleOut_returns value hc hp
  have hwf := handleOut_wellFormed he hc.wellFormed
  refine ⟨rc, s', he, hwf, ?_⟩
  rintro rfl
  cases hw : hv.wildcard with
  | true => exact cacheChain_wildcard hc hp hw he
  | false =>
    cases hm : hv.matchesName (str "Cache-Control") with
    | true =>
      obtain ⟨rc, s₁, he₁, -, hok⟩ := handleOut_cache value hc hp hm (by simp [hw])
      cases he.symm.trans he₁
      exact (hok rfl).1
    | false =>
      have hsp := handleOut_spares hm hc.wellFormed hc.apart hp he
      exact ⟨hwf, hsp.chain hc.chain, hsp.apart⟩

theorem reference_safe_out {hs : List OutVal} (hall : ∀ h ∈ hs, h.Parsed setHandlersOut)
    (cv : ComplexValue → Response → Option Str) (hc : s.CacheChain) :
    ∃ rc s', reference (condition cv) (action cv handleOut) hs [] s = .ok (rc, s') ∧
      s'.shape.WellFormed () ∧ (rc = .ok → s'.CacheChain) := by
  have hsafe := reference_safe cv handleOut []
    (J := fun rc s => s.shape.WellFormed () ∧ (rc = .ok → s.CacheChain)) (F := fun _ _ => False)
    (fun _ _ _ _ => handleOut_ne_declined) (fun _ h => ⟨h.1, nofun⟩)
    (fun h hm value _ s hs => Or.inl (handleOut_safe value (hs.2 rfl) (hall h hm)))
    ⟨hc.wellFormed, fun _ => hc⟩
  rcases hsafe with hok | ⟨_, _, _, _, hf⟩
  · exact hok
  · exact hf.elim

end Response

section Cycle

variable {ι ρ : Type} [DecidableEq ι] [DecidableEq ρ] {compiles : Str → Bool} {intTLen : ℕ}
  {parent : ι → Option ι} {c₀ c : Cycle ι InHandler InField OutHandler OutField}
  {merged : List ι} {i : ι} {path : List ι}

/--
In every location of every accepted tree the request loop comes to an end on every well-formed
list, and leaves one, also where wildcard rules have left typed pointers behind. The one fault is
the unassigned local variable, and it takes an `add` or `rewrite` of a multi-valued header.
-/
theorem request_memory_safety (hl : Configured compiles intTLen parent c₀ c merged i path)
    (cv : ComplexValue → World ρ → Option Str) (r : ρ) (w : World ρ)
    (hwf : w.shape.WellFormed r) :
    (∃ rc w', runRules intTLen (execInputHeader cv r) (c.input.rules i) w = .ok (rc, w') ∧
      w'.shape.WellFormed r) ∨
    runRules intTLen (execInputHeader cv r) (c.input.rules i) w = .error .unset ∧
      ∃ h ∈ c₀.input.chain path, h.handler = .setBuiltinMultiHeader ∧
        (h.opcode = .add ∨ h.opcode = .rewrite) := by
  rw [hl.runIn]
  have hsafe := reference_safe cv (handleIn r) [] (J := fun _ w => w.shape.WellFormed r)
    (F := MayFault) (fun _ _ _ _ => handleIn_ne_declined) (fun _ h => h)
    (fun h hm value _ w hwf => handleIn_safe value hwf (hl.parsedIn h hm)) hwf
  rcases hsafe with hok | ⟨h, hm, e, he, rfl, hmulti, hop⟩
  · exact Or.inl hok
  · exact Or.inr ⟨he, h, hm, hmulti, hop⟩

/--
In every location of every accepted tree the response loop comes to an end without a fault where
the chain of `Cache-Control` lists the entries of that name, and it leaves the chain so.
-/
theorem response_memory_safety (hl : Configured compiles intTLen parent c₀ c merged i path)
    (cv : ComplexValue → Response → Option Str) (s : Response) (hc : s.CacheChain) :
    ∃ rc s', runRules intTLen (Response.execOutputHeader cv) (c.output.rules i) s = .ok (rc, s') ∧
      s'.shape.WellFormed () ∧ (rc = .ok → s'.CacheChain) := by
  rw [hl.runOut]
  exact Response.reference_safe_out hl.parsedOut cv hc

end Cycle

def staleDirectives : List (Bool × Bool × List Str) :=
  [(true, true, [str "set", str "Host", str "a"]), (false, true, [str "clear", str "H*"]),
    (false, true, [str "set", str "Cookie", str "c=d"]),
    (false, false, [str "set", str "Cache-*", str "x"]),
    (false, false, [str "clear", str "cache-control"])]

/-- The wildcard rule takes the `Host` entries out and leaves the pointer to the first of them. -/
theorem request_memory_safety_stale :
    ∃ c : Cycle Bool InHandler InField OutHandler OutField,
      staleDirectives.foldlM (readDirective (fun _ => true) setHandlersIn setHandlersOut)
        .initial = .ok c ∧
      ((∃ rc w', runRules 20 (execInputHeader (fun text _ => some text) ())
          ((c.mergeLocConf 20 true false).input.rules false) twoHosts = .ok (rc, w') ∧
          w'.shape.WellFormed ()) ∨
        runRules 20 (execInputHeader (fun text _ => some text) ())
            ((c.mergeLocConf 20 true false).input.rules false) twoHosts = .error .unset ∧
          ∃ h ∈ c.input.chain [false, true], h.handler = .setBuiltinMultiHeader ∧
            (h.opcode = .add ∨ h.opcode = .rewrite)) := by
  refine ⟨_, rfl, ?_⟩
  exact request_memory_safety (configured_child (fun _ => true) staleDirectives rfl)
    (fun text _ => some text) () twoHosts (single_wellFormed (by decide) (by decide))

theorem Response.publicPage_chain : Response.publicPage.CacheChain := by
  have hentries : Response.publicPage.cacheEntries = [0, 1] := by decide
  refine ⟨single_wellFormed (by decide) (by decide), ⟨[0, 1], ⟨rfl, rfl, rfl⟩, fun h => ?_⟩, ?_⟩
  · rw [hentries]
  · intro f h hf hp
    simp [Response.publicPage, Response.ofElts, hf] at hp

/-- The same configuration on a response with two entries of `Cache-Control`. -/
theorem response_memory_safety_cache :
    ∃ c : Cycle Bool InHandler InField OutHandler OutField,
      staleDirectives.foldlM (readDirective (fun _ => true) setHandlersIn setHandlersOut)
        .initial = .ok c ∧
      ∃ rc s', runRules 20 (Response.execOutputHeader fun text _ => some text)
          ((c.mergeLocConf 20 true false).output.rules false) Response.publicPage = .ok (rc, s') ∧
        s'.shape.WellFormed () ∧ (rc = .ok → s'.CacheChain) := by
  refine ⟨_, rfl, ?_⟩
  exact response_memory_safety (configured_child (fun _ => true) staleDirectives rfl)
    (fun text _ => some text) Response.publicPage Response.publicPage_chain

end HeadersControl
