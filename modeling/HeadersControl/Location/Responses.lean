import HeadersControl.Location.Requests
import HeadersControl.Response.View

/-! # The response loop as a program on views

In a location whose rules are steady, what the loop does to a response shows in the
view as a run of the rules that act, and every other end of the loop shows there
too, if memory does not run out. The loop has no fault.
-/

namespace HeadersControl

open Segments Segments.Shape Runs Response

theorem mirroredOut {h : OutVal} (hp : h.Parsed setHandlersOut) (hst : h.Steady) :
    h.Mirrored handleOut HeaderVal.respond view Tidy fun s => s.shape.pool.Reliable :=
  fun _ _ ht hpass hnone => handleOut_mirrors ht hp hst (hp.clear_value hnone) hpass

section Cycle

variable {ι : Type} [DecidableEq ι] {compiles : Str → Bool} {intTLen : ℕ}
  {parent : ι → Option ι} {c₀ c : Cycle ι InHandler InField OutHandler OutField}
  {merged : List ι} {i : ι} {path : List ι}

/--
In a location with steady rules, on a response in step with its pointers and with memory to spare,
the loop makes one pass over the rules up to its end, and the view of the response changes by the
run of the rules that act in it. What stops the loop stops it on the view.
-/
theorem response_refinement (hl : Configured compiles intTLen parent c₀ c merged i path)
    (hst : ∀ h ∈ c₀.output.chain path, h.Steady) (cv : ComplexValue → Response → Option Str)
    (s : Response) (ht : s.Tidy) (hrel : s.shape.pool.Reliable) :
    ∃ hs rest log names s₁, c₀.output.chain path = hs ++ rest ∧
      Pass cv handleOut [] hs s log names s₁ ∧ s₁.Tidy ∧
      Run (Acts HeaderVal.respond) s.view log s₁.view ∧
      LoopEnd cv HeaderVal.respond view s₁ names rest
        (runRules intTLen (execOutputHeader cv) (c.output.rules i) s) := by
  rw [hl.runOut]
  exact refine_reference cv [] (fun _ _ _ _ => handleOut_ne_declined)
    (fun h hm => mirroredOut (hl.parsedOut h hm) (hst h hm)) ht hrel

end Cycle

section Innermost

variable {cv : ComplexValue → Response → Option Str} {h : OutVal} {hs : List OutVal}
  {names names' : List (ℕ × Str)} {log : List (OutVal × Str)} {s s' : Response} {name value : Str}

theorem values_respond {v v' : ResponseView} (he : h.respond value v = .ok (.ok, v')) :
    v'.values = h.onValues (h.listed value) v.values := by
  unfold HeaderVal.respond at he
  cases hd : h.refield value v.fields with
  | none => simp [hd] at he
  | some fields =>
    rw [hd] at he
    cases he
    rfl

variable (name) in
theorem Pass.values_frame (hp : Pass cv handleOut names hs s log names' s')
    (hall : ∀ h ∈ hs, h.Parsed setHandlersOut ∧ h.Steady) (ht : s.Tidy)
    (hmiss : ∀ a ∈ log, a.1.matchesName name = false) :
    s'.valuesOf name = s.valuesOf name ∧ s'.Tidy := by
  obtain ⟨hrun, ht', -⟩ := hp.mirrored (fun h hm => mirroredOut (hall h hm).1 (hall h hm).2) ht
  refine ⟨?_, ht'⟩
  refine hrun.invariant (I := fun v => v.values name = s.valuesOf name)
    (fun a ha v v' hact hv => ?_) rfl
  rw [values_respond hact, HeaderVal.onValues, hmiss a ha, if_neg (by simp)]
  exact hv

variable {ι : Type} [DecidableEq ι] {compiles : Str → Bool} {intTLen : ℕ}
  {parent : ι → Option ι} {c₀ c : Cycle ι InHandler InField OutHandler OutField}
  {merged : List ι} {i : ι} {path : List ι}

/--
In a location with steady rules the innermost unconditional exact rule without `-n` decides what
is sent under its name: the rules in front of it do not match the name, and of those behind it no
wildcard does. Exact rules of the name behind it are locked out, whatever they are.
-/
theorem innermost_decides (hl : Configured compiles intTLen parent c₀ c merged i path)
    (hst : ∀ h ∈ c₀.output.chain path, h.Steady) (cv : ComplexValue → Response → Option Str)
    (s s' : Response) (ht : s.Tidy) (pre post : List OutVal) (h : OutVal)
    (hchain : c₀.output.chain path = pre ++ h :: post) (ho : h.overrides = true)
    (hpre : ∀ x ∈ pre, x.matchesName h.key = false)
    (hpost : ∀ x ∈ post, x.wildcard = true → x.matchesName h.key = false)
    (he : runRules intTLen (execOutputHeader cv) (c.output.rules i) s = .ok (.ok, s')) :
    ∃ log names s₀ value, Pass cv handleOut [] pre s log names s₀ ∧
      (h.opcode = .pass ∨ complexValue cv h.value s₀ = some value) ∧
      s'.valuesOf h.key = h.revalue (h.listed value.dropLast) (s.valuesOf h.key) := by
  rw [hl.runOut] at he
  obtain ⟨log, names', hp⟩ := pass_of_reference (fun _ _ _ _ => handleOut_ne_declined) he
  have hall : ∀ x ∈ pre ++ h :: post, x.Parsed setHandlersOut ∧ x.Steady := fun x hx => by
    rw [← hchain] at hx
    exact ⟨hl.parsedOut x hx, hst x hx⟩
  have hkey : ∀ x : OutVal, x.wildcard = false → x.matchesName h.key = false →
      nameKey x.key ≠ nameKey h.key := fun x hw hm hkey => by
    rw [matchesName_exact hw, sameName_comm, sameName_iff.mpr hkey] at hm
    cases hm
  rw [hchain] at hp
  have hlocks : ∀ x ∈ pre, x.locks = true → nameKey x.key ≠ nameKey h.key := fun x hx hl => by
    have hw : x.wildcard = false := by
      simp only [HeaderVal.locks, Bool.and_eq_true, Bool.not_eq_true'] at hl
      exact hl.1
    exact hkey x hw (hpre x hx)
  obtain ⟨log₁, names₁, s₀, s₁, log₂, h₁, h₂, hrun⟩ := hp.override ho hlocks
  obtain ⟨hvalues₀, ht₀⟩ := h₁.values_frame h.key
    (fun x hx => hall x (List.mem_append_left _ hx)) ht fun a ha => hpre _ (h₁.mem ha)
  have hmiss : ∀ a ∈ log₂, a.1.matchesName h.key = false := by
    intro a ha
    cases hw : a.1.wildcard with
    | true => exact hpost _ (h₂.mem ha) hw
    | false =>
      have hne := h₂.locked_out (mem_lock (locks_of_overrides ho) _) a ha hw
      rw [matchesName_exact hw, sameName_comm, ← Bool.not_eq_true, sameName_iff]
      exact hne
  have htail : s₁.Tidy → s'.valuesOf h.key = s₁.valuesOf h.key := fun ht₁ =>
    (h₂.values_frame h.key (fun x hx => hall x (by simp [hx])) ht₁ hmiss).1
  rcases hrun with ⟨hop, rfl⟩ | ⟨hop, value, hval, hact⟩
  · refine ⟨log₁, names₁, s₁, [], h₁, Or.inl hop, ?_⟩
    rw [htail ht₀, hvalues₀]
    simp [HeaderVal.revalue, hop]
  · obtain ⟨hparsed, hsteady⟩ := hall h (by simp)
    have hm := mirroredOut hparsed hsteady s₀ value.dropLast ht₀ hop (dropLast_of_none hval)
    have hact : handleOut h value.dropLast s₀ = .ok (.ok, s₁) := hact
    rw [hact] at hm
    generalize heff : h.respond value.dropLast s₀.view = eff at hm
    cases hm with
    | done ht₁ _ hview =>
      refine ⟨log₁, names₁, s₀, value, h₁, Or.inr hval, ?_⟩
      have hvalues := values_respond heff
      rw [← hview] at hvalues
      have hat := congrFun hvalues h.key
      rw [htail ht₁, ← hvalues₀]
      simpa [HeaderVal.onValues, h.matchesName_self] using hat

end Innermost

def replyDirectives : List (Bool × Bool × List Str) :=
  [(true, false, [str "set", str "Server", str "b"]), (true, false, [str "clear", str "X-*"]),
    (false, false, [str "set", str "server", str "c"]),
    (false, false, [str "append", str "Y", str "3"]),
    (false, false, [str "set", str "Cache-Control", str "private"]),
    (false, false, [str "set", str "Content-Type", str "a/b; charset=c"])]

def replyXY : Response :=
  .ofElts [⟨1, str "Server", str "a", str "server", none⟩, ⟨1, str "X-A", str "1", [], none⟩,
    ⟨1, str "Y", str "2", [], none⟩] 4 fun f => if f = .server then some 0 else none

theorem replyXY_tidy : replyXY.Tidy where
  cache := {
    wellFormed := single_wellFormed (by decide) (by decide)
    chain := ⟨[], rfl, fun h => by simp [show replyXY.cacheEntries = [] by decide]⟩
    apart := fun f h _ hp => by
      by_cases hf : f = .server
      · subst hf
        obtain rfl : 0 = h := Option.some.inj hp
        decide
      · simp [replyXY, ofElts, hf] at hp }
  typed := fun f h _ hp => by
    by_cases hf : f = .server
    · subst hf
      obtain rfl : 0 = h := Option.some.inj hp
      decide
    · simp [replyXY, ofElts, hf] at hp
  single := fun f _ h hh => by
    by_cases hf : f = .server
    · subst hf
      rw [show replyXY.named OutField.server.nginxName = [0] by decide] at hh
      rw [List.mem_singleton.mp hh]
      rfl
    · have hnone : replyXY.named f.nginxName = [] := by
        revert hf
        cases f <;> decide
      rw [hnone] at hh
      cases hh
  location := fun _ _ hp => by cases hp

/-- What the location sends. -/
theorem response_refinement_reply :
    ∃ (c : Cycle Bool InHandler InField OutHandler OutField) (s' : Response),
      replyDirectives.foldlM (readDirective (fun _ => true) setHandlersIn setHandlersOut) .initial =
        .ok c ∧
      runRules 20 (execOutputHeader fun text _ => some text)
        ((c.mergeLocConf 20 true false).output.rules false) replyXY = .ok (.ok, s') ∧
      s'.visible = [(str "server", str "c"), (str "Y", str "2"), (str "Y", str "3"),
        (str "Cache-Control", str "private")] ∧
      ∃ hs rest log names s₁, c.output.chain [false, true] = hs ++ rest ∧
        Pass (fun text _ => some text) handleOut [] hs replyXY log names s₁ ∧ s₁.Tidy ∧
        Run (Acts HeaderVal.respond) replyXY.view log s₁.view ∧
        LoopEnd (fun text _ => some text) HeaderVal.respond view s₁ names rest
          (.ok (.ok, s')) := by
  refine ⟨_, _, rfl, rfl, by decide, ?_⟩
  refine response_refinement (configured_child (fun _ => true) replyDirectives rfl) ?_
    (fun text _ => some text) replyXY replyXY_tidy fun _ => rfl
  decide

/-- The rule `set server c` of the location decides against `set Server b` of the server. -/
theorem innermost_decides_server :
    ∃ (c : Cycle Bool InHandler InField OutHandler OutField) (s' : Response) (h : OutVal)
      (post : List OutVal),
      replyDirectives.foldlM (readDirective (fun _ => true) setHandlersIn setHandlersOut) .initial =
        .ok c ∧
      c.output.chain [false, true] = h :: post ∧
      runRules 20 (execOutputHeader fun text _ => some text)
        ((c.mergeLocConf 20 true false).output.rules false) replyXY = .ok (.ok, s') ∧
      s'.valuesOf (str "Server") = [str "c"] ∧
      ∃ log names s₀ value, Pass (fun text _ => some text) handleOut [] [] replyXY log names s₀ ∧
        (h.opcode = .pass ∨ complexValue (fun text _ => some text) h.value s₀ = some value) ∧
        s'.valuesOf h.key = h.revalue (h.listed value.dropLast) (replyXY.valuesOf h.key) := by
  refine ⟨_, _, _, _, rfl, rfl, rfl, by decide, ?_⟩
  exact innermost_decides (configured_child (fun _ => true) replyDirectives rfl) (by decide)
    (fun text _ => some text) replyXY _ replyXY_tidy [] _ _ rfl rfl (by decide) (by decide) rfl

end HeadersControl
