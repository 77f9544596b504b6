import HeadersControl.Chaining
import HeadersControl.Rules.Execution

/-! # Locations and their runs

A location of a parsed and merged tree runs the rules of its lineage in one pass,
its own rules first and those of the root last.
-/

namespace HeadersControl

open Segments Runs

section Parsed

variable {ι ηi οi ηo οo : Type} [DecidableEq ι] {compiles : Str → Bool}
  {tableIn : SetHandlers ηi οi} {tableOut : SetHandlers ηo οo} {c : Cycle ι ηi οi ηo οo}

theorem own_addRule {η ο : Type} {s : Side ι η ο} (h : s.Inv fun _ => False) (i j : ι)
    (hv : HeaderVal η ο) :
    (s.addRule i hv).own j = if j = i then s.own i ++ [hv] else s.own j := by
  have hr : (s.addRule i hv).rules j = if j = i then (some (s.own i ++ [hv]), s.cnt i + 1)
      else s.rules j := Side.rules_addRule h
  split_ifs at hr ⊢
  · rw [Side.own, hr, Option.getD_some]
  · exact own_of_rules hr

theorem own_read
    (h : Relation.ReflTransGen (Cycle.Directive compiles tableIn tableOut) .initial c) :
    (∀ i, ∀ hv ∈ c.input.own i, ∃ cnt args, parseDirective compiles tableIn cnt args = .ok hv) ∧
      ∀ i, ∀ hv ∈ c.output.own i,
        ∃ cnt args, parseDirective compiles tableOut cnt args = .ok hv := by
  have hadd : ∀ {η ο : Type} {s : Side ι η ο} {P : HeaderVal η ο → Prop} {i : ι}
      {hv : HeaderVal η ο}, s.Inv (fun _ => False) → P hv → (∀ j, ∀ hv ∈ s.own j, P hv) →
      ∀ j, ∀ hv' ∈ (s.addRule i hv).own j, P hv' := by
    intro η ο s P i hv hinv hp hall j hv' hm
    rw [own_addRule hinv] at hm
    split_ifs at hm
    · rcases List.mem_append.mp hm with hm | hm
      · exact hall i hv' hm
      · obtain rfl := List.mem_singleton.mp hm
        exact hp
    · exact hall j hv' hm
  induction h with
  | refl => exact ⟨by simp [Side.own, Side.rules, Cycle.initial, Side.initial],
      by simp [Side.own, Side.rules, Cycle.initial, Side.initial]⟩
  | tail hrun hd ih =>
    obtain ⟨hin, hout⟩ := inv_of_parsed hrun
    cases hd with
    | input hp => exact ⟨hadd hin ⟨_, _, hp⟩ ih.1, ih.2⟩
    | output hp => exact ⟨ih.1, hadd hout ⟨_, _, hp⟩ ih.2⟩

variable (compiles) in
/-- A directive of the configuration: its location, its side and its arguments. -/
def readDirective (tableIn : SetHandlers ηi οi) (tableOut : SetHandlers ηo οo)
    (c : Cycle ι ηi οi ηo οo) (d : ι × Bool × List Str) :
    Except ConfError (Cycle ι ηi οi ηo οo) :=
  let (i, isInput, args) := d
  if isInput then do
    let hv ← parseDirective compiles tableIn (c.input.cnt i) args
    pure { c with input := c.input.addRule i hv, requiresHandler := true }
  else do
    let hv ← parseDirective compiles tableOut (c.output.cnt i) args
    pure { c with output := c.output.addRule i hv, requiresFilter := true }

theorem parsed_of_read {ds : List (ι × Bool × List Str)} {c' : Cycle ι ηi οi ηo οo}
    (h : ds.foldlM (readDirective compiles tableIn tableOut) c = .ok c') :
    Relation.ReflTransGen (Cycle.Directive compiles tableIn tableOut) c c' := by
  induction ds generalizing c with
  | nil =>
    cases h
    exact .refl
  | cons d ds ih =>
    obtain ⟨i, isInput, args⟩ := d
    cases hd : readDirective compiles tableIn tableOut c (i, isInput, args) with
    | error e => simp [hd, bind, Except.bind] at h
    | ok c₁ =>
      have hrest : ds.foldlM (readDirective compiles tableIn tableOut) c₁ = .ok c' := by
        simpa [hd, bind, Except.bind] using h
      refine .head ?_ (ih hrest)
      unfold readDirective at hd
      cases isInput with
      | true =>
        cases hp : parseDirective compiles tableIn (c.input.cnt i) args with
        | error e => simp [hp, bind, Except.bind] at hd
        | ok hv =>
          simp only [hp, bind, Except.bind, pure, Except.pure, if_true] at hd
          cases hd
          exact .input hp
      | false =>
        cases hp : parseDirective compiles tableOut (c.output.cnt i) args with
        | error e => simp [hp, bind, Except.bind] at hd
        | ok hv =>
          simp only [hp, bind, Except.bind, pure, Except.pure, Bool.false_eq_true,
            if_false] at hd
          cases hd
          exact .output hp

end Parsed

/-- The location `i` of a tree that was parsed as `c₀` and has been merged into `c`. -/
structure Configured {ι : Type} [DecidableEq ι] (compiles : Str → Bool) (intTLen : ℕ)
    (parent : ι → Option ι) (c₀ c : Cycle ι InHandler InField OutHandler OutField)
    (merged : List ι) (i : ι) (path : List ι) : Prop where
  one_le : 1 ≤ intTLen
  le_width : intTLen ≤ 64
  parsed : Relation.ReflTransGen (Cycle.Directive compiles setHandlersIn setHandlersOut)
    .initial c₀
  merge : Relation.ReflTransGen (Merge intTLen parent) (c₀, []) (c, merged)
  settled : Settled parent merged i
  lineage : Lineage parent i path

abbrev Side.chain {ι η ο : Type} (s : Side ι η ο) (path : List ι) : List (HeaderVal η ο) :=
  path.flatMap s.own

namespace Configured

variable {ι ρ : Type} [DecidableEq ι] [DecidableEq ρ] {compiles : Str → Bool} {intTLen : ℕ}
  {parent : ι → Option ι} {c₀ c : Cycle ι InHandler InField OutHandler OutField}
  {merged : List ι} {i : ι} {path : List ι}

theorem readIn (hl : Configured compiles intTLen parent c₀ c merged i path) :
    ∀ h ∈ c₀.input.chain path,
      ∃ cnt args, parseDirective compiles setHandlersIn cnt args = .ok h := by
  intro h hm
  obtain ⟨j, -, hj⟩ := List.mem_flatMap.mp hm
  exact (own_read hl.parsed).1 j h hj

theorem readOut (hl : Configured compiles intTLen parent c₀ c merged i path) :
    ∀ h ∈ c₀.output.chain path,
      ∃ cnt args, parseDirective compiles setHandlersOut cnt args = .ok h := by
  intro h hm
  obtain ⟨j, -, hj⟩ := List.mem_flatMap.mp hm
  exact (own_read hl.parsed).2 j h hj

theorem parsedIn (hl : Configured compiles intTLen parent c₀ c merged i path) :
    ∀ h ∈ c₀.input.chain path, h.Parsed setHandlersIn := by
  intro h hm
  obtain ⟨cnt, args, hp⟩ := hl.readIn h hm
  exact (parseDirective_eq_ok hp).2

theorem parsedOut (hl : Configured compiles intTLen parent c₀ c merged i path) :
    ∀ h ∈ c₀.output.chain path, h.Parsed setHandlersOut := by
  intro h hm
  obtain ⟨cnt, args, hp⟩ := hl.readOut h hm
  exact (parseDirective_eq_ok hp).2

/-- The request loop is the reference semantics on the rules of the lineage. -/
theorem runIn (hl : Configured compiles intTLen parent c₀ c merged i path)
    (cv : ComplexValue → World ρ → Option Str) (r : ρ) (w : World ρ) :
    runRules intTLen (execInputHeader cv r) (c.input.rules i) w =
      reference (condition cv) (action cv (handleIn r)) (c₀.input.chain path) [] w := by
  obtain ⟨hin, hout⟩ := inv_of_parsed hl.parsed
  have hmerged := (merged_of_run hin hout hl.merge).1
  exact (hmerged.chains hl.one_le hl.le_width (fun _ n => handleIn_id n)
    (fun _ _ _ _ => handleIn_ne_declined) hin hl.settled hl.lineage).run w

theorem runOut (hl : Configured compiles intTLen parent c₀ c merged i path)
    (cv : ComplexValue → Response → Option Str) (s : Response) :
    runRules intTLen (Response.execOutputHeader cv) (c.output.rules i) s =
      reference (condition cv) (action cv Response.handleOut) (c₀.output.chain path) [] s := by
  obtain ⟨hin, hout⟩ := inv_of_parsed hl.parsed
  have hmerged := (merged_of_run hin hout hl.merge).2
  exact (hmerged.chains hl.one_le hl.le_width (fun _ n => Response.handleOut_id n)
    (fun _ _ _ _ => Response.handleOut_ne_declined) hout hl.settled hl.lineage).run s

end Configured

theorem configured_root {ι : Type} [DecidableEq ι] {c : Cycle ι InHandler InField OutHandler OutField}
    (compiles : Str → Bool) (ds : List (ι × Bool × List Str)) (i : ι)
    (h : ds.foldlM (readDirective compiles setHandlersIn setHandlersOut) .initial = .ok c) :
    Configured compiles 20 (fun _ => none) c c [] i [i] :=
  ⟨by decide, by decide, parsed_of_read h, .refl, Or.inl rfl, .root rfl⟩

theorem configured_child {c : Cycle Bool InHandler InField OutHandler OutField}
    (compiles : Str → Bool) (ds : List (Bool × Bool × List Str))
    (h : ds.foldlM (readDirective compiles setHandlersIn setHandlersOut) .initial = .ok c) :
    Configured compiles 20 (fun i => if i then none else some true) c (c.mergeLocConf 20 true false)
      [false] false [false, true] :=
  ⟨by decide, by decide, parsed_of_read h, .single (.merge rfl (Or.inl rfl) (by simp)),
    Or.inr (by simp), .child rfl (.root rfl)⟩

end HeadersControl
