import HeadersControl.Location.Responses
import HeadersControl.Rules.Plan

/-! # The order of directives

On what is sent under each name and on the fields, response rules that match no
name in common commute. Locations that have the same rules, but for the order of
such neighbours, send the same.
-/

namespace HeadersControl

open Segments Runs Response

section View

variable {a b : OutVal} {x y : Str} {d d₁ d₂ : ResponseFields} {v v₁ v₂ : ResponseView}

theorem field_entry : ∀ e ∈ setHandlersOut.entries, ∀ e' ∈ setHandlersOut.entries,
    e.handler = e'.handler → e.handler ∈ [OutHandler.setContentTypeHeader,
      .setContentLengthHeader, .setAcceptRangesHeader] → e.name = e'.name := by decide

theorem field_independent (ha : a.Parsed setHandlersOut) (hb : b.Parsed setHandlersOut)
    (hi : a.Independent b) (he : a.handler = b.handler) :
    a.handler ∉ [OutHandler.setContentTypeHeader, .setContentLengthHeader,
      .setAcceptRangesHeader] := by
  intro hm
  have hcustom : a.handler ≠ .setHeader := by
    intro hh
    rw [hh] at hm
    exact absurd hm (by decide)
  obtain ⟨e, hem, hname, hhandler, -, hw, -⟩ := ha.of_entry hcustom
  obtain ⟨e', hem', hname', hhandler', -, hw', -⟩ := hb.of_entry (he ▸ hcustom)
  have hsame := field_entry e hem e' hem' (hhandler.symm.trans (he.trans hhandler')) (hhandler ▸ hm)
  rcases hi e.name with hmiss | hmiss
  · rw [matchesName_exact hw, sameName_comm, hname] at hmiss
    cases hmiss
  · rw [matchesName_exact hw', hsame, sameName_comm, hname'] at hmiss
    cases hmiss

/-- What a handler makes of the fields: nothing, or it writes those of its own. -/
inductive Rewrites : OutHandler → (ResponseFields → ResponseFields) → Prop
  | none {handler : OutHandler} : Rewrites handler id
  | type (value : Str) (hash : Word) :
      Rewrites .setContentTypeHeader fun d => d.withType value hash
  | length (n : ℤ) : Rewrites .setContentLengthHeader fun d => { d with contentLengthN := n }
  | ranges : Rewrites .setAcceptRangesHeader fun d => { d with allowRanges := false }

theorem refield_rewrites (h : a.refield x d = some d₁) :
    ∃ u, Rewrites a.handler u ∧ u d = d₁ ∧ ∀ d, a.refield x d = some (u d) := by
  unfold HeaderVal.refield at h ⊢
  cases ha : a.handler with
  | setContentTypeHeader =>
    rw [ha] at h
    exact ⟨_, .type x a.hash, Option.some.inj h, fun _ => rfl⟩
  | setContentLengthHeader =>
    rw [ha] at h
    dsimp only at h ⊢
    by_cases hx : x = []
    · rw [if_pos hx] at h
      exact ⟨_, .length (-1), Option.some.inj h, fun _ => if_pos hx⟩
    · rw [if_neg hx] at h
      obtain ⟨n, hn, he⟩ := Option.map_eq_some_iff.mp h
      exact ⟨_, .length n, he, fun _ => by rw [if_neg hx, hn]; rfl⟩
  | setAcceptRangesHeader =>
    rw [ha] at h
    dsimp only at h ⊢
    by_cases hx : x = []
    · rw [if_pos hx] at h
      exact ⟨_, .ranges, Option.some.inj h, fun _ => by rw [if_pos hx]⟩
    · rw [if_neg hx] at h
      exact ⟨_, .none, Option.some.inj h, fun _ => by rw [if_neg hx]; rfl⟩
  | setHeader =>
    rw [ha] at h
    exact ⟨_, .none, Option.some.inj h, fun _ => rfl⟩
  | setBuiltinHeader =>
    rw [ha] at h
    exact ⟨_, .none, Option.some.inj h, fun _ => rfl⟩
  | setBuiltinMultiHeader =>
    rw [ha] at h
    exact ⟨_, .none, Option.some.inj h, fun _ => rfl⟩

theorem Rewrites.comm {handler handler' : OutHandler} {u u' : ResponseFields → ResponseFields}
    (h : Rewrites handler u) (h' : Rewrites handler' u')
    (hne : handler = handler' → handler ∉ [OutHandler.setContentTypeHeader,
      .setContentLengthHeader, .setAcceptRangesHeader]) (d : ResponseFields) :
    u (u' d) = u' (u d) := by
  cases h with
  | none => rfl
  | type =>
    cases h' with
    | type => exact absurd (by decide) (hne rfl)
    | none => rfl
    | length => rfl
    | ranges => rfl
  | length =>
    cases h' with
    | length => exact absurd (by decide) (hne rfl)
    | none => rfl
    | type => rfl
    | ranges => rfl
  | ranges =>
    cases h' with
    | ranges => exact absurd (by decide) (hne rfl)
    | none => rfl
    | type => rfl
    | length => rfl

/-- On the view, rules without a name in common commute. -/
theorem respond_comm (ha : a.Parsed setHandlersOut) (hb : b.Parsed setHandlersOut)
    (hi : a.Independent b) (h₁ : Acts HeaderVal.respond (a, x) v v₁)
    (h₂ : Acts HeaderVal.respond (b, y) v₁ v₂) :
    ∃ t, Acts HeaderVal.respond (b, y) v t ∧ Acts HeaderVal.respond (a, x) t v₂ := by
  have hread : ∀ {c : OutVal} {z : Str} {w w' : ResponseView},
      Acts HeaderVal.respond (c, z) w w' → ∃ u, Rewrites c.handler u ∧
        w' = ⟨c.onValues (c.listed z) w.values, u w.fields⟩ ∧
        ∀ d, c.refield z d = some (u d) := by
    intro c z w w' h
    have h : c.respond z w = .ok (.ok, w') := h
    unfold HeaderVal.respond at h
    cases hd : c.refield z w.fields with
    | none => simp [hd] at h
    | some d =>
      obtain ⟨u, hu, rfl, hall⟩ := refield_rewrites hd
      rw [hd] at h
      exact ⟨u, hu, (Prod.mk.inj (Except.ok.inj h)).2.symm, hall⟩
  obtain ⟨u, hu, rfl, hall⟩ := hread h₁
  obtain ⟨u', hu', rfl, hall'⟩ := hread h₂
  refine ⟨⟨b.onValues (b.listed y) v.values, u' v.fields⟩, ?_, ?_⟩
  · show b.respond y v = _
    rw [HeaderVal.respond, hall']
  · have hvalues : a.onValues (a.listed x) (b.onValues (b.listed y) v.values) =
        b.onValues (b.listed y) (a.onValues (a.listed x) v.values) := by
      funext name
      rcases hi name with hm | hm
      · simp [HeaderVal.onValues, hm]
      · simp [HeaderVal.onValues, hm]
    show a.respond x _ = _
    rw [HeaderVal.respond, hall]
    simp only [hvalues, hu.comm hu' (field_independent ha hb hi)]

end View

section Places

variable {η ο σ : Type} {cond : HeaderVal η ο → σ → Option Bool}
  {act : HeaderVal η ο → σ → Except Fault (Rc × σ)}

def HeaderVal.unplaced (h : HeaderVal η ο) : HeaderVal η ο := { h with id := 0 }

theorem HeaderVal.Parsed.unplaced {handlers : SetHandlers η ο} {h : HeaderVal η ο}
    (hp : h.Parsed handlers) : h.unplaced.Parsed handlers where
  key_ne_nil := hp.key_ne_nil
  hash := hp.hash
  handler := hp.handler
  offset := hp.offset
  clear := hp.clear
  append := hp.append
  wildcard := hp.wildcard

theorem reference_unplaced (hu : Uniform cond act) (hs : List (HeaderVal η ο))
    (names : List (ℕ × Str)) (s : σ) :
    reference cond act (hs.map HeaderVal.unplaced) names s = reference cond act hs names s := by
  have hmap : hs.map HeaderVal.unplaced = hs.mapIdx fun _ h => { h with id := 0 } :=
    List.ext_getElem (by simp) fun i h₁ h₂ => by simp [HeaderVal.unplaced]
  rw [hmap]
  exact reference_mapIdx hu (fun _ => 0) hs s

end Places

section Cycle

variable {ι κ : Type} [DecidableEq ι] [DecidableEq κ] {compiles compiles' : Str → Bool}
  {intTLen : ℕ} {parent : ι → Option ι} {parent' : κ → Option κ}
  {c₀ c : Cycle ι InHandler InField OutHandler OutField}
  {c₀' c' : Cycle κ InHandler InField OutHandler OutField} {merged path : List ι}
  {merged' path' : List κ} {i : ι} {j : κ}

theorem run_of_view {log : List (OutVal × Str)} {s : Response} {v : ResponseView}
    (hlog : ∀ a ∈ log, a.1.Parsed setHandlersOut ∧ a.1.Steady ∧ a.1.opcode ≠ .pass ∧
      (a.1.value = none → a.2 = []))
    (ht : s.Tidy) (hrel : s.shape.pool.Reliable)
    (hr : Run (Acts HeaderVal.respond) s.view log v) :
    ∃ s', Run (Acts handleOut) s log s' ∧ s'.view = v := by
  have hstep : ∀ a ∈ log, ∀ v v' t, Acts HeaderVal.respond a v v' →
      (t.Tidy ∧ t.shape.pool.Reliable) ∧ t.view = v →
      ∃ t', Acts handleOut a t t' ∧ (t'.Tidy ∧ t'.shape.pool.Reliable) ∧ t'.view = v' := by
    rintro ⟨h, x⟩ ha v v' t he ⟨⟨htidy, hreliable⟩, rfl⟩
    obtain ⟨hp, hst, hpass, hnone⟩ := hlog _ ha
    have hm := mirroredOut hp hst t x htidy hpass hnone
    unfold Acts at he ⊢
    rw [show h.respond x t.view = .ok (.ok, v') from he] at hm
    generalize handleOut h x t = res at hm ⊢
    cases hm with
    | exhausted hno => exact absurd hreliable hno
    | done htidy' hreliable' hview => exact ⟨_, rfl, ⟨htidy', hreliable' hreliable⟩, hview⟩
  obtain ⟨s', hrun, -, hview⟩ := hr.simulate hstep ⟨⟨ht, hrel⟩, rfl⟩
  exact ⟨s', hrun, hview⟩

/--
Two locations, maybe of different trees, have the same steady rules, but for the order of
neighbours that match no name in common, and no rule reads the response. A response that comes
through the one comes through the other, and the same is sent.
-/
theorem reordered_directives (hl : Configured compiles intTLen parent c₀ c merged i path)
    (hl' : Configured compiles' intTLen parent' c₀' c' merged' j path')
    (hr : Reordered HeaderVal.Independent ((c₀.output.chain path).map HeaderVal.unplaced)
      ((c₀'.output.chain path').map HeaderVal.unplaced))
    (hst : ∀ h ∈ c₀.output.chain path, h.Steady) (cv : ComplexValue → Response → Option Str)
    (hcv : ∀ h ∈ c₀.output.chain path, ∀ s s', h.verdict cv s = h.verdict cv s')
    (s s' : Response) (ht : s.Tidy) (hrel : s.shape.pool.Reliable)
    (he : runRules intTLen (execOutputHeader cv) (c.output.rules i) s = .ok (.ok, s')) :
    ∃ s'', runRules intTLen (execOutputHeader cv) (c'.output.rules j) s = .ok (.ok, s'') ∧
      s''.view = s'.view := by
  have hu : Uniform (condition cv) (action cv handleOut) :=
    uniform_action (fun _ n => handleOut_id n) fun _ _ _ _ => handleOut_ne_declined
  rw [hl.runOut, ← reference_unplaced hu] at he
  rw [hl'.runOut, ← reference_unplaced hu]
  -- the rules apart from their places
  have hall : ∀ h ∈ (c₀.output.chain path).map HeaderVal.unplaced, h.Parsed setHandlersOut ∧
      h.Steady ∧ h.Settled cv fun h => h.verdict cv s := by
    intro h hm
    obtain ⟨x, hx, rfl⟩ := List.mem_map.mp hm
    exact ⟨(hl.parsedOut x hx).unplaced, hst x hx, fun t => hcv x hx t s⟩
  obtain ⟨log, names, hp⟩ := pass_of_reference (fun _ _ _ _ => handleOut_ne_declined) he
  obtain ⟨hrun, -, -⟩ := hp.mirrored (fun h hm => mirroredOut (hall h hm).1 (hall h hm).2.1) ht
  obtain ⟨log', hplan, hlog⟩ := plan_reordered hr (hp.plan fun h hm => (hall h hm).2.2)
  have hrun' : Run (Acts HeaderVal.respond) s.view log' s'.view := by
    refine hrun.reordered hlog fun a ha b hb hi v v₁ v₂ h₁ h₂ => ?_
    exact respond_comm (hall _ (hp.mem ha)).1 (hall _ (hp.mem hb)).1 hi h₁ h₂
  obtain ⟨s'', hact, hview⟩ := run_of_view (fun a ha => by
    have ha := hlog.mem_iff.mpr ha
    obtain ⟨hpass, t, value, hval, hav⟩ := hp.evaluated ha
    exact ⟨(hall _ (hp.mem ha)).1, (hall _ (hp.mem ha)).2.1, hpass,
      fun hnone => hav.trans (dropLast_of_none hval hnone)⟩) ht hrel hrun'
  exact ⟨s'', reference_of_plan hplan hact fun h hm => (hall h (hr.mem_iff.mpr hm)).2.2, hview⟩

end Cycle

theorem independent_of_exact {a b : OutVal} (hw : b.wildcard = false)
    (h : a.matchesName b.key = false) : a.Independent b := by
  intro name
  cases hm : b.matchesName name with
  | false => exact Or.inr rfl
  | true =>
    rw [matchesName_exact hw, sameName_comm] at hm
    exact Or.inl ((matchesName_congr hm).symm.trans h)

def sendDirectives : List (Unit × Bool × List Str) :=
  [((), false, [str "set", str "Y", str "1"]), ((), false, [str "set", str "Content-Type", str "a/b"]),
    ((), false, [str "clear", str "X-*"])]

def clearFirst : List (Unit × Bool × List Str) :=
  [((), false, [str "clear", str "X-*"]), ((), false, [str "set", str "Y", str "1"]),
    ((), false, [str "set", str "Content-Type", str "a/b"])]

/-- Both send the same. -/
theorem reordered_directives_clear :
    ∃ (c c' : Cycle Unit InHandler InField OutHandler OutField) (s' : Response),
      sendDirectives.foldlM (readDirective (fun _ => true) setHandlersIn setHandlersOut) .initial =
        .ok c ∧
      clearFirst.foldlM (readDirective (fun _ => true) setHandlersIn setHandlersOut) .initial =
        .ok c' ∧
      runRules 20 (execOutputHeader fun text _ => some text) (c.output.rules ()) replyXY =
        .ok (.ok, s') ∧
      ∃ s'', runRules 20 (execOutputHeader fun text _ => some text) (c'.output.rules ()) replyXY =
          .ok (.ok, s'') ∧ s''.view = s'.view := by
  refine ⟨_, _, _, rfl, rfl, rfl, ?_⟩
  refine reordered_directives (configured_root (fun _ => true) sendDirectives () rfl)
    (configured_root (fun _ => true) clearFirst () rfl) ?_ (by decide) (fun text _ => some text)
    (fun _ _ _ _ => rfl) replyXY _ replyXY_tidy (fun _ => rfl) rfl
  exact .trans (.cons _ (.swap [] (independent_of_exact rfl (by decide)).symm))
    (.swap _ (independent_of_exact rfl (by decide)).symm)

end HeadersControl
