import HeadersControl.Location.Derived
import HeadersControl.Response.Values
import HeadersControl.Rules.Plan
import HeadersControl.Runs.Repeated

/-! # Running the request rules again

A request that is redirected internally comes to the rewrite phase again. Where a
rule does the same each time, the rules of a location leave alone what they have
made of the request before, but for the order of its headers.
-/

namespace HeadersControl

open Segments Runs

/--
Rules that can run again: exact rules lock their names and do not append, wildcard rules clear
and leave the typed pointers, and multi-valued headers are set or cleared.
-/
structure HeaderVal.Repeatable (hv : InVal) : Prop where
  tame : hv.Tame
  not_append : hv.opcode ≠ .append
  clears : hv.wildcard = true → hv.opcode = .clear
  locks : hv.wildcard = false → hv.next = false
  multi : hv.handler = .setBuiltinMultiHeader → hv.opcode ≠ .add ∧ hv.opcode ≠ .rewrite

instance (hv : InVal) : Decidable hv.Repeatable :=
  decidable_of_iff (hv.Tame ∧ hv.opcode ≠ .append ∧ (hv.wildcard = true → hv.opcode = .clear) ∧
      (hv.wildcard = false → hv.next = false) ∧
      (hv.handler = .setBuiltinMultiHeader → hv.opcode ≠ .add ∧ hv.opcode ≠ .rewrite))
    ⟨fun ⟨h₁, h₂, h₃, h₄, h₅⟩ => ⟨h₁, h₂, h₃, h₄, h₅⟩,
      fun ⟨h₁, h₂, h₃, h₄, h₅⟩ => ⟨h₁, h₂, h₃, h₄, h₅⟩⟩

def HeaderVal.revalueIn (hv : InVal) (value : Str) (vs : List Str) : List Str :=
  if hv.merges = false ∧ hv.opcode ≠ .add ∧ value ≠ [] ∧ vs ≠ [] then value :: vs.tail
  else hv.revalue value vs

/-- The values of a name behind a rule, where the flag tells a request that was answered 400. -/
def HeaderVal.restate (name : Str) (bad : Bool) (vs : List Str) (a : InVal × Str) : List Str :=
  if a.1.matchesName name = false ∨ bad = true ∧ a.1.handler = .setBuiltinMultiHeader then vs
  else a.1.revalueIn a.2 vs

section Values

variable {hv : InVal} {value name : Str} {es : List (Str × Str)} {vs : List Str}

theorem namedValues_writeFirst : namedValues name (writeFirst (sameName · name) value es) =
    if namedValues name es = [] then [] else value :: (namedValues name es).tail := by
  induction es with
  | nil => rfl
  | cons e es ih =>
    cases he : sameName e.1 name with
    | true => simp [namedValues, writeFirst, he]
    | false =>
      have hskip : ∀ es : List (Str × Str), namedValues name (e :: es) = namedValues name es :=
        fun es => by simp [namedValues, he]
      rw [writeFirst, if_neg (by simp [he]), hskip, hskip, ih]

theorem namedValues_edit (hr : hv.Repeatable) (hclear : hv.opcode = .clear → value = [])
    (hm : hv.matchesName name = true) :
    namedValues name (hv.edit value es) = hv.revalueIn value (namedValues name es) := by
  have hop : hv.operateVisible value es = hv.operate value es :=
    operateVisible_of_ne hr.not_append value es
  have hplain : namedValues name (hv.operate value es) = hv.revalue value (namedValues name es) := by
    rw [← hop, namedValues_operateVisible hr.clears hm]
  unfold HeaderVal.edit HeaderVal.revalueIn
  cases hw : hv.wildcard with
  | true =>
    have hv₀ : value = [] := hclear (hr.clears hw)
    rw [if_neg (fun hc => hc.2 hv₀), if_neg (fun hc => hc.2.2.1 hv₀),
      if_neg (fun hc => hc.2.2.1 hv₀), hplain]
  | false =>
    have hfun : hv.matchesName = (sameName · name) := by
      funext n
      rw [matchesName_exact hw, sameName_comm] at hm ⊢
      rw [sameName_congr hm, sameName_comm]
    have hany : (es.any fun e => hv.matchesName e.1) = true ↔ namedValues name es ≠ [] := by
      rw [hfun, ne_eq, namedValues_eq_nil, Bool.not_eq_false]
    rw [if_neg (by simp)]
    simp only [hany]
    split_ifs with hc
    · rw [hfun, namedValues_writeFirst, if_neg hc.2.2.2]
    · exact hplain

theorem revalueIn_revalueIn (hr : hv.Repeatable) :
    hv.revalueIn value (hv.revalueIn value vs) = hv.revalueIn value vs := by
  have hrevalue : hv.revalue value (hv.revalue value vs) = hv.revalue value vs := by
    unfold HeaderVal.revalue
    cases hop : hv.opcode with
    | append => exact absurd hop hr.not_append
    | set => rfl
    | clear => rfl
    | pass => rfl
    | add =>
      by_cases hv₀ : value = []
      · simp [hv₀]
      · by_cases hvs : vs = [] <;> simp [hv₀, hvs]
    | rewrite =>
      by_cases hv₀ : value = []
      · simp [hv₀]
      · by_cases hvs : vs = [] <;> simp [hv₀, hvs]
  unfold HeaderVal.revalueIn
  by_cases hc : hv.merges = false ∧ hv.opcode ≠ .add ∧ value ≠ [] ∧ vs ≠ []
  · rw [if_pos hc, if_pos ⟨hc.1, hc.2.1, hc.2.2.1, by simp⟩, List.tail_cons]
  · rw [if_neg hc]
    split_ifs with hc'
    · obtain ⟨hmerges, hadd, hv₀, hne⟩ := hc'
      have hvs : vs = [] := by
        by_contra hvs
        exact hc ⟨hmerges, hadd, hv₀, hvs⟩
      subst hvs
      unfold HeaderVal.revalue at hne ⊢
      cases hop : hv.opcode with
      | set => simp [hv₀]
      | add => exact absurd hop hadd
      | append => exact absurd hop hr.not_append
      | _ => simp [hop, hv₀] at hne
    · exact hrevalue

theorem restate_cases {bad : Bool} {a : InVal × Str} (hr : a.1.Repeatable)
    (hclear : a.1.opcode = .clear → a.2 = []) :
    (∀ vs, HeaderVal.restate name bad vs a = vs) ∨ (∃ c, ∀ vs, HeaderVal.restate name bad vs a = c) ∨
      a.1.wildcard = false ∧ a.1.matchesName name = true := by
  unfold HeaderVal.restate
  cases hm : a.1.matchesName name with
  | false => exact Or.inl fun _ => if_pos (Or.inl rfl)
  | true =>
    cases hw : a.1.wildcard with
    | false => exact Or.inr (Or.inr ⟨rfl, rfl⟩)
    | true =>
      have hop := hr.clears hw
      by_cases hbad : bad = true ∧ a.1.handler = .setBuiltinMultiHeader
      · exact Or.inl fun _ => if_pos (Or.inr hbad)
      · refine Or.inr (Or.inl ⟨[], fun vs => ?_⟩)
        simp [hbad, HeaderVal.revalueIn, hclear hop, HeaderVal.revalue, hop]

theorem restate_restate {bad : Bool} {a : InVal × Str} (hr : a.1.Repeatable) :
    HeaderVal.restate name bad (HeaderVal.restate name bad vs a) a =
      HeaderVal.restate name bad vs a := by
  unfold HeaderVal.restate
  split_ifs
  · rfl
  · exact revalueIn_revalueIn hr

end Values

section Derived

variable {f : InField} {x : Str} {d d' : Derived} {handler handler' : InHandler}
  {u u' : Derived → Derived}

inductive Updates : InHandler → (Derived → Derived) → Prop
  | none {handler : InHandler} : Updates handler id
  | host (server : Str) : Updates .setHostHeader fun d => { d with server }
  | length (n : ℤ) : Updates .setContentLengthHeader fun d => { d with contentLengthN := n }
  | agent (browser : Browser) : Updates .setUserAgentHeader fun d => { d with browser }
  | connection (value : Str) : Updates .setConnectionHeader fun d => { d with
      connectionType := connectionOf value
      keepAliveN := if connectionOf value = .close then -1 else d.keepAliveN
      keepalive := if connectionOf value = .close then false else d.keepalive }

theorem derive_updates (h : f.derive x d = some d') :
    ∃ u, Updates f.handler u ∧ u d = d' ∧ ∀ d, f.derive x d = some (u d) := by
  unfold InField.derive at h ⊢
  cases hf : f.handler with
  | setHostHeader =>
    simp only [hf] at h ⊢
    by_cases hx : x = []
    · rw [if_pos hx] at h
      exact ⟨_, .host [], Option.some.inj h, fun _ => if_pos hx⟩
    · rw [if_neg hx] at h
      obtain ⟨server, hs, he⟩ := Option.map_eq_some_iff.mp h
      exact ⟨_, .host server, he, fun _ => by rw [if_neg hx, hs]; rfl⟩
  | setContentLengthHeader =>
    simp only [hf] at h ⊢
    by_cases hx : x = []
    · rw [if_pos hx] at h
      exact ⟨_, .length (-1), Option.some.inj h, fun _ => if_pos hx⟩
    · rw [if_neg hx] at h
      obtain ⟨n, hn, he⟩ := Option.map_eq_some_iff.mp h
      exact ⟨_, .length n, he, fun _ => by rw [if_neg hx, hn]; rfl⟩
  | setUserAgentHeader =>
    simp only [hf] at h ⊢
    exact ⟨_, .agent _, Option.some.inj h, fun _ => rfl⟩
  | setConnectionHeader =>
    simp only [hf] at h ⊢
    exact ⟨_, .connection x, Option.some.inj h, fun _ => rfl⟩
  | _ =>
    simp only [hf] at h ⊢
    exact ⟨_, .none, Option.some.inj h, fun _ => rfl⟩

theorem Updates.idem (h : Updates handler u) (d : Derived) : u (u d) = u d := by
  cases h with
  | connection value =>
    dsimp only
    split_ifs
    · rfl
    · rfl
  | _ => rfl

def derivers : List InHandler :=
  [.setHostHeader, .setContentLengthHeader, .setUserAgentHeader, .setConnectionHeader]

theorem Updates.comm (h : Updates handler u) (h' : Updates handler' u')
    (hne : handler = handler' → handler ∉ derivers) (d : Derived) : u (u' d) = u' (u d) := by
  cases h <;> cases h' <;> first | rfl | exact absurd (by decide) (hne rfl)

theorem deriver_field : ∀ f ∈ InField.all, ∀ g ∈ InField.all, f.handler = g.handler →
    f.handler ∈ derivers → f = g := by decide

end Derived

section Effect

variable {a b : InVal × Str} {v v' u : RequestView} {d d' : Derived} {f g : InField} {x y : Str}

theorem effect_values (hr : a.1.Repeatable) (hp : a.1.Parsed setHandlersIn)
    (hclear : a.1.opcode = .clear → a.2 = []) (ha : Acts HeaderVal.effect a v v') (name : Str) :
    v'.badRequest = v.badRequest ∧ namedValues name v'.entries =
      HeaderVal.restate name v.badRequest (namedValues name v.entries) a := by
  have hedit : namedValues name (a.1.edit a.2 v.entries) =
      if a.1.matchesName name = false then namedValues name v.entries
      else a.1.revalueIn a.2 (namedValues name v.entries) := by
    split_ifs with hm
    · exact namedValues_congr hm (edit_frame _ _ _)
    · exact namedValues_edit hr hclear (by simpa using hm)
  unfold Acts HeaderVal.effect at ha
  unfold HeaderVal.restate
  rcases hp.field_or_custom with ⟨f, -, hhandler, hoff, -⟩ | ⟨hname, hhandler⟩
  · rw [hoff] at ha
    dsimp only at ha
    rw [hhandler]
    by_cases hmulti : f.handler = .setBuiltinMultiHeader
    · rw [if_pos hmulti] at ha
      cases hbad : v.badRequest with
      | true =>
        simp only [hbad, if_true] at ha
        cases ha
        exact ⟨hbad, by simp [hmulti]⟩
      | false =>
        simp only [hbad, Bool.false_eq_true, if_false] at ha
        split_ifs at ha
        cases ha
        exact ⟨rfl, by simpa using hedit⟩
    · rw [if_neg hmulti] at ha
      cases hd : f.derive a.2 v.derived with
      | none => simp [hd] at ha
      | some d =>
        rw [hd] at ha
        cases ha
        exact ⟨rfl, by simpa [hmulti] using hedit⟩
  · rw [hp.offset_custom hname] at ha
    cases ha
    exact ⟨rfl, by simpa [hhandler] using hedit⟩

theorem effect_again (hr : a.1.Repeatable) (hp : a.1.Parsed setHandlersIn)
    (ha : Acts HeaderVal.effect a v v') (hu : u.badRequest = v.badRequest) :
    ∃ u', Acts HeaderVal.effect a u u' := by
  unfold Acts HeaderVal.effect at ha ⊢
  rcases hp.field_or_custom with ⟨f, -, hhandler, hoff, -⟩ | ⟨hname, -⟩
  · rw [hoff] at ha ⊢
    dsimp only at ha ⊢
    by_cases hmulti : f.handler = .setBuiltinMultiHeader
    · obtain ⟨hadd, hre⟩ := hr.multi (hhandler.trans hmulti)
      rw [if_pos hmulti, hu]
      have hfree : a.1.leavesUnset a.2 u.entries = false := by
        simp [HeaderVal.leavesUnset, hadd, hre]
      rw [hfree, if_neg Bool.false_ne_true]
      split_ifs
      · exact ⟨_, rfl⟩
      · exact ⟨_, rfl⟩
    · rw [if_neg hmulti] at ha ⊢
      cases hd : f.derive a.2 v.derived with
      | none => simp [hd] at ha
      | some d =>
        obtain ⟨w, -, -, hall⟩ := derive_updates hd
        rw [hall]
        exact ⟨_, rfl⟩
  · rw [hp.offset_custom hname]
    exact ⟨_, rfl⟩

theorem effect_updates (hp : a.1.Parsed setHandlersIn) (ha : Acts HeaderVal.effect a v v') :
    ∃ u, Updates a.1.handler u ∧
      ∀ w w', Acts HeaderVal.effect a w w' → w'.derived = u w.derived := by
  unfold Acts HeaderVal.effect at ha ⊢
  rcases hp.field_or_custom with ⟨f, -, hhandler, hoff, -⟩ | ⟨hname, -⟩
  · rw [hoff] at ha ⊢
    dsimp only at ha ⊢
    by_cases hmulti : f.handler = .setBuiltinMultiHeader
    · refine ⟨id, .none, fun w w' h => ?_⟩
      rw [if_pos hmulti] at h
      split_ifs at h
      · cases h
        rfl
      · cases h
        rfl
    · rw [if_neg hmulti] at ha
      cases hd : f.derive a.2 v.derived with
      | none => simp [hd] at ha
      | some d =>
        obtain ⟨u, hu, -, hall⟩ := derive_updates hd
        refine ⟨u, hhandler ▸ hu, fun w w' h => ?_⟩
        rw [if_neg hmulti, hall] at h
        cases h
        rfl
  · rw [hp.offset_custom hname]
    refine ⟨id, .none, fun w w' h => ?_⟩
    cases h
    rfl

def Idle (a : InVal × Str) (v : RequestView) : Prop :=
  ∀ u, Updates a.1.handler u →
    (∀ w w', Acts HeaderVal.effect a w w' → w'.derived = u w.derived) → u v.derived = v.derived

theorem idle_of_acts (ha : Acts HeaderVal.effect a v v') : Idle a v' := by
  intro u hu hall
  rw [hall v v' ha, hu.idem]

theorem Idle.keep (hi : Idle a v) (hp : a.1.Parsed setHandlersIn) (hp' : b.1.Parsed setHandlersIn)
    (hne : a.1.wildcard = false → b.1.wildcard = false → nameKey b.1.key ≠ nameKey a.1.key)
    (hb : Acts HeaderVal.effect b v v') : Idle a v' := by
  intro u hu hall
  obtain ⟨u', hu', hall'⟩ := effect_updates hp' hb
  have hplain : a.1.handler = b.1.handler → a.1.handler ∉ derivers := by
    intro hsame hm
    rcases hp.field_or_custom with ⟨f, hname, hhandler, -⟩ | ⟨-, hhandler⟩
    · rcases hp'.field_or_custom with ⟨g, hname', hhandler', -⟩ | ⟨-, hhandler'⟩
      · have hfg : f = g := deriver_field f f.mem_all g g.mem_all
          (hhandler.symm.trans (hsame.trans hhandler')) (hhandler ▸ hm)
        subst hfg
        exact hne (hp.exact_of_field hname) (hp'.exact_of_field hname')
          ((sameName_iff.mp hname').trans (sameName_iff.mp hname).symm)
      · rw [hsame, hhandler'] at hm
        exact absurd hm (by decide)
    · rw [hhandler] at hm
      exact absurd hm (by decide)
  rw [hall' v v' hb, hu.comm hu' hplain, hi u hu hall]

end Effect

section Runs

variable {ρ : Type} [DecidableEq ρ] {r : ρ} {log : List (InVal × Str)} {v v₁ v₂ : RequestView}
  {w w' : World ρ}

/-- A rule that can run again, with a value that it can evaluate to. -/
structure Again (a : InVal × Str) : Prop where
  parsed : a.1.Parsed setHandlersIn
  repeatable : a.1.Repeatable
  not_pass : a.1.opcode ≠ .pass
  empty : a.1.value = none → a.2 = []

theorem Again.cleared {a : InVal × Str} (ha : Again a) : a.1.opcode = .clear → a.2 = [] :=
  ha.parsed.clear_value ha.empty

def Distinct (log : List (InVal × Str)) : Prop :=
  log.Pairwise fun a b => a.1.wildcard = false → b.1.wildcard = false →
    nameKey b.1.key ≠ nameKey a.1.key

theorem values_fold (hrun : Run (Acts HeaderVal.effect) v log v₁) (hall : ∀ a ∈ log, Again a)
    (name : Str) : v₁.badRequest = v.badRequest ∧ namedValues name v₁.entries =
      log.foldl (HeaderVal.restate name v.badRequest) (namedValues name v.entries) := by
  apply hrun.foldl
  · intro a ha s s' hact hs
    obtain ⟨hbad, hvalues⟩ := effect_values (hall a ha).repeatable (hall a ha).parsed
      (hall a ha).cleared hact name
    exact ⟨hbad.trans hs, by rw [hvalues, hs]⟩
  · rfl

theorem values_again (hrun : Run (Acts HeaderVal.effect) v log v₁)
    (hagain : Run (Acts HeaderVal.effect) v₁ log v₂) (hall : ∀ a ∈ log, Again a)
    (hone : Distinct log) (name : Str) :
    namedValues name v₂.entries = namedValues name v₁.entries := by
  obtain ⟨hbad, hfirst⟩ := values_fold hrun hall name
  obtain ⟨-, hsecond⟩ := values_fold hagain hall name
  rw [hsecond, hbad, hfirst]
  apply foldl_foldl (P := fun a => a.1.wildcard = false ∧ a.1.matchesName name = true)
  · apply hone.imp
    rintro a b hne ⟨hw, hm⟩ ⟨hw', hm'⟩
    rw [matchesName_exact hw] at hm
    rw [matchesName_exact hw'] at hm'
    exact hne hw hw' ((sameName_iff.mp hm').symm.trans (sameName_iff.mp hm))
  · exact fun a ha => restate_cases (hall a ha).repeatable (hall a ha).cleared
  · exact fun a ha _ _ => restate_restate (hall a ha).repeatable

theorem derived_again (hrun : Run (Acts HeaderVal.effect) v log v₁)
    (hagain : Run (Acts HeaderVal.effect) v₁ log v₂) (hall : ∀ a ∈ log, Again a)
    (hone : Distinct log) : v₂.derived = v₁.derived := by
  have hidle : ∀ a ∈ log, Idle a v₁ := by
    apply hrun.established (P := Idle) hone
    · exact fun a _ s s' hact => idle_of_acts hact
    · exact fun a ha b hb hne s s' hact hi =>
        hi.keep (hall a ha).parsed (hall b hb).parsed hne hact
  apply hagain.invariant (I := fun u => u.derived = v₁.derived)
  · intro a ha s s' hact hs
    obtain ⟨u, hu, hall'⟩ := effect_updates (hall a ha).parsed hact
    rw [hall' s s' hact, hs]
    exact hidle a ha u hu hall'
  · rfl

theorem Again.view {a : InVal × Str} (ha : Again a) (hact : Acts (handleIn r) a w w')
    (hw : w.InStep r) : Acts HeaderVal.effect a (w.view r) (w'.view r) ∧ w'.InStep r := by
  have hm := mirroredIn r ha.parsed ha.repeatable.tame w a.2 hw ha.not_pass ha.empty
  unfold Acts at hact ⊢
  rw [hact] at hm
  generalize a.1.effect a.2 (w.view r) = res at hm ⊢
  cases hm with
  | done hw' _ hv => exact ⟨by rw [hv], hw'⟩

theorem Again.world {a : InVal × Str} {u : RequestView} (ha : Again a)
    (hact : Acts HeaderVal.effect a (w.view r) u) (hw : w.InStep r)
    (hrel : w.shape.pool.Reliable) : ∃ w', Acts (handleIn r) a w w' ∧ w'.InStep r ∧
      w'.shape.pool.Reliable ∧ w'.view r = u := by
  have hm := mirroredIn r ha.parsed ha.repeatable.tame w a.2 hw ha.not_pass ha.empty
  unfold Acts at hact ⊢
  rw [hact] at hm
  generalize handleIn r a.1 a.2 w = res at hm ⊢
  cases hm with
  | exhausted hno => exact absurd hrel hno
  | @done w' _ hw' hrel' hv => exact ⟨w', rfl, hw', hrel' hrel, hv⟩

theorem run_again {t : World ρ} (hrun : Run (Acts (handleIn r)) w log w')
    (hall : ∀ a ∈ log, Again a) (hw : w.InStep r) (ht : t.InStep r) (hrel : t.shape.pool.Reliable)
    (hbad : (t.view r).badRequest = (w.view r).badRequest) :
    ∃ t', Run (Acts (handleIn r)) t log t' ∧
      Run (Acts HeaderVal.effect) (t.view r) log (t'.view r) := by
  induction hrun generalizing t with
  | nil => exact ⟨t, .nil t, .nil _⟩
  | @cons a log w w₁ w' ha _ ih =>
    have hagain := hall a List.mem_cons_self
    obtain ⟨hact, hw₁⟩ := hagain.view ha hw
    obtain ⟨u, hu⟩ := effect_again hagain.repeatable hagain.parsed hact hbad
    obtain ⟨t₁, hact', ht₁, hrel₁, rfl⟩ := hagain.world hu ht hrel
    have hflag := (effect_values hagain.repeatable hagain.parsed hagain.cleared hact []).1
    have hflag' := (effect_values hagain.repeatable hagain.parsed hagain.cleared hu []).1
    obtain ⟨t', hrun', hview⟩ := ih (fun b hb => hall b (List.mem_cons_of_mem _ hb)) hw₁ ht₁ hrel₁
      (hflag'.trans (hbad.trans hflag.symm))
    exact ⟨t', .cons hact' hrun', .cons hu hview⟩

end Runs

section Cycle

variable {ι ρ : Type} [DecidableEq ι] [DecidableEq ρ] {compiles : Str → Bool} {intTLen : ℕ}
  {parent : ι → Option ι} {c₀ c : Cycle ι InHandler InField OutHandler OutField}
  {merged : List ι} {i : ι} {path : List ι}

def Reruns (intTLen : ℕ) (cv : ComplexValue → World ρ → Option Str) (r : ρ)
    (rules : Rules InHandler InField) (w w' : World ρ) : Prop :=
  runRules intTLen (execInputHeader cv r) rules w = .ok (.ok, w')

variable {cv : ComplexValue → World ρ → Option Str} {r : ρ} {w w' : World ρ}

/-- The loop comes through a second time, and leaves what it has made the first time. -/
theorem rerun_step (hl : Configured compiles intTLen parent c₀ c merged i path)
    (hr : ∀ h ∈ c₀.input.chain path, h.Repeatable)
    (hcv : ∀ h ∈ c₀.input.chain path, ∀ w w', h.verdict cv w = h.verdict cv w')
    (hw : w.InStep r) (hrel : w.shape.pool.Reliable)
    (he : Reruns intTLen cv r (c.input.rules i) w w') :
    (w'.InStep r ∧ w'.shape.pool.Reliable) ∧
      ∃ w'', Reruns intTLen cv r (c.input.rules i) w' w'' ∧
        (∀ name, namedValues name (w''.entries r) = namedValues name (w'.entries r)) ∧
        w''.derived r = w'.derived r := by
  unfold Reruns at he ⊢
  rw [hl.runIn] at he
  simp only [hl.runIn]
  have hs : ∀ h ∈ c₀.input.chain path, h.Settled cv fun h => h.verdict cv w :=
    fun h hm t => hcv h hm t w
  obtain ⟨log, names, hp⟩ := pass_of_reference (fun _ _ _ _ => handleIn_ne_declined) he
  have hall : ∀ a ∈ log, Again a := by
    intro a ha
    obtain ⟨hpass, s, value, hval, hav⟩ := hp.evaluated ha
    exact ⟨hl.parsedIn _ (hp.mem ha), hr _ (hp.mem ha), hpass,
      fun hnone => hav.trans (dropLast_of_none hval hnone)⟩
  have hone : Distinct log := by
    apply hp.pairwise_locks.imp_of_mem
    intro a b ha _ hne hw
    exact hne (by simp [HeaderVal.locks, hw, (hall a ha).repeatable.locks hw])
  obtain ⟨hrun, hw', hrel'⟩ :=
    hp.mirrored (fun h hm => mirroredIn r (hl.parsedIn h hm) (hr h hm).tame) hw
  have hbad : (w'.view r).badRequest = (w.view r).badRequest := (values_fold hrun hall []).1
  obtain ⟨w'', hrun', hview⟩ := run_again hp.run hall hw hw' (hrel' hrel) hbad
  refine ⟨⟨hw', hrel' hrel⟩, w'', reference_of_plan (hp.plan hs) hrun' hs, ?_, ?_⟩
  · exact values_again hrun hview hall hone
  · exact derived_again hrun hview hall hone

/--
In a location with rules that can run again, and that do not read the request, the loop comes
through as often as it is run, and from the first time on the values of every header and the fields
derived from them stay, if memory does not run out.
-/
theorem reruns_settle (hl : Configured compiles intTLen parent c₀ c merged i path)
    (hr : ∀ h ∈ c₀.input.chain path, h.Repeatable) (cv : ComplexValue → World ρ → Option Str)
    (hcv : ∀ h ∈ c₀.input.chain path, ∀ w w', h.verdict cv w = h.verdict cv w') (r : ρ)
    (w w₁ w₂ : World ρ) (hw : w.InStep r) (hrel : w.shape.pool.Reliable)
    (he : Reruns intTLen cv r (c.input.rules i) w w₁)
    (hreach : Relation.ReflTransGen (Reruns intTLen cv r (c.input.rules i)) w₁ w₂) :
    (∃ w₃, Reruns intTLen cv r (c.input.rules i) w₂ w₃) ∧
      (∀ name, namedValues name (w₂.entries r) = namedValues name (w₁.entries r)) ∧
      w₂.derived r = w₁.derived r := by
  -- the request is one that the loop has left, with the values of the first run
  have hinv : ∃ u, (u.InStep r ∧ u.shape.pool.Reliable) ∧
      Reruns intTLen cv r (c.input.rules i) u w₂ ∧
      (∀ name, namedValues name (w₂.entries r) = namedValues name (w₁.entries r)) ∧
      w₂.derived r = w₁.derived r := by
    induction hreach with
    | refl => exact ⟨w, ⟨hw, hrel⟩, he, fun _ => rfl, rfl⟩
    | @tail t t' _ hstep ih =>
      obtain ⟨u, ⟨hu, hrel'⟩, hrun, hvalues, hderived⟩ := ih
      obtain ⟨ht, t'', hrun', hvalues', hderived'⟩ := rerun_step hl hr hcv hu hrel' hrun
      have hsame : t'' = t' := (Prod.mk.inj (Except.ok.inj (hrun'.symm.trans hstep))).2
      subst hsame
      exact ⟨t, ht, hstep, fun name => (hvalues' name).trans (hvalues name),
        hderived'.trans hderived⟩
  obtain ⟨u, ⟨hu, hrel'⟩, hrun, hvalues, hderived⟩ := hinv
  obtain ⟨-, w₃, hnext, -, -⟩ := rerun_step hl hr hcv hu hrel' hrun
  exact ⟨⟨w₃, hnext⟩, hvalues, hderived⟩

end Cycle

def againDirectives : List (Bool × Bool × List Str) :=
  [(true, true, [str "set", str "Connection", str "close"]),
    (false, true, [str "clear", str "Y-*"]), (false, true, [str "set", str "y-b", str "1"]),
    (false, true, [str "set", str "Z", str "2"])]

/-- Run twice, the headers change places, and keep their values. -/
theorem reruns_settle_twice :
    ∃ (c : Cycle Bool InHandler InField OutHandler OutField) (w₁ w₂ : World Unit),
      againDirectives.foldlM (readDirective (fun _ => true) setHandlersIn setHandlersOut) .initial =
        .ok c ∧
      Reruns 20 (fun text _ => some text) () ((c.mergeLocConf 20 true false).input.rules false)
        headersYA w₁ ∧
      Reruns 20 (fun text _ => some text) () ((c.mergeLocConf 20 true false).input.rules false)
        w₁ w₂ ∧
      w₁.entries () = [(str "A", str "0"), (str "y-b", str "1"), (str "Z", str "2"),
        (str "Connection", str "close")] ∧
      w₂.entries () = [(str "A", str "0"), (str "Z", str "2"), (str "Connection", str "close"),
        (str "y-b", str "1")] ∧
      (∃ w₃, Reruns 20 (fun text _ => some text) ()
        ((c.mergeLocConf 20 true false).input.rules false) w₂ w₃) ∧
      (∀ name, namedValues name (w₂.entries ()) = namedValues name (w₁.entries ())) ∧
      w₂.derived () = w₁.derived () := by
  refine ⟨_, _, _, rfl, rfl, rfl, by decide, by decide, ?_⟩
  refine reruns_settle (configured_child (fun _ => true) againDirectives rfl) ?_
    (fun text _ => some text) (fun _ _ _ _ => rfl) () headersYA _ _
    ⟨Shape.single_wellFormed (by decide) (by decide), ?_⟩ (fun _ => rfl) rfl (.single rfl)
  · decide
  · intro f _
    cases f <;> decide

end HeadersControl
