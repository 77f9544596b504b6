import HeadersControl.Request.Handlers
import HeadersControl.Response.Handlers
import HeadersControl.Rules.Inheritance

/-! # Inheritance on requests and responses

The request and the response loop run the merged array of a location as the
reference semantics runs the rules of all its levels in a row.
-/

namespace HeadersControl

open Segments

section Generic

variable {ι η ο σ : Type} {cv : ComplexValue → σ → Option Str}
  {handle : HeaderVal η ο → Str → σ → Except Fault (Rc × σ)}

theorem execHeader_eq_guarded :
    execHeader cv handle = guarded (condition cv) (action cv handle) := by
  funext h s
  exact execHeader_eq cv handle h s

theorem uniform_action (hid : ∀ hv n, handle { hv with id := n } = handle hv)
    (hd : ∀ hv v s s', handle hv v s ≠ .ok (.declined, s')) :
    Uniform (condition cv) (action cv handle) where
  cond_id := fun _ _ => rfl
  act_id := fun h n => by
    funext s
    simp only [action, hid]
  not_declined := fun _ _ _ => action_ne_declined hd

theorem unconditional_condition :
    Unconditional (condition cv : HeaderVal η ο → σ → Option Bool) :=
  fun _ s ho => condition_of_overrides s ho

/-- The merged rules of a location run as the chain of its levels, and log the same rules. -/
structure Chains (intTLen : ℕ) (cv : ComplexValue → σ → Option Str)
    (handle : HeaderVal η ο → Str → σ → Except Fault (Rc × σ)) (merged : Rules η ο)
    (chain : List (HeaderVal η ο)) : Prop where
  run : ∀ s, runRules intTLen (execHeader cv handle) merged s =
    reference (condition cv) (action cv handle) chain [] s
  log : ∀ s, runRules intTLen (guarded (fun h (s : σ × List (HeaderVal η ο)) => condition cv h s.1)
      (traced (action cv handle))) merged (s, []) =
    reference (fun h s => condition cv h s.1) (traced (action cv handle)) chain [] (s, [])

theorem Side.Merged.chains {intTLen : ℕ} {parent : ι → Option ι} {merged path : List ι} {i : ι}
    {s₀ s : Side ι η ο} (hT : 1 ≤ intTLen) (hT' : intTLen ≤ 64)
    (hid : ∀ hv n, handle { hv with id := n } = handle hv)
    (hd : ∀ hv v s s', handle hv v s ≠ .ok (.declined, s')) (h : s₀.Inv fun _ => False)
    (hm : s₀.Merged intTLen parent s merged) (hi : Settled parent merged i)
    (hp : Lineage parent i path) :
    Chains intTLen cv handle (s.rules i) (path.flatMap s₀.own) where
  run := fun st => by
    rw [execHeader_eq_guarded]
    exact runRules_eq_reference hT hT' (uniform_action hid hd) unconditional_condition h hm hi hp st
  log := fun st => runRules_eq_reference hT hT' (uniform_action hid hd).traced
    unconditional_condition.fst h hm hi hp (st, [])

end Generic

section Cycle

variable {ι ρ : Type} [DecidableEq ι] [DecidableEq ρ] {compiles : Str → Bool} {intTLen : ℕ}
  {parent : ι → Option ι} {merged path : List ι} {i : ι}
  {c₀ c : Cycle ι InHandler InField OutHandler OutField}

/--
For every accepted tree, every order of merging it and every location that has been merged, both
loops run the merged array as the reference semantics runs the rules of the location and of all
levels above it, innermost first: with the same rules in the same order, the same final state and
the same result.
-/
theorem inheritance_is_chaining (hT : 1 ≤ intTLen) (hT' : intTLen ≤ 64)
    (hparse : Relation.ReflTransGen (Cycle.Directive compiles setHandlersIn setHandlersOut)
      .initial c₀)
    (hmerge : Relation.ReflTransGen (Merge intTLen parent) (c₀, []) (c, merged))
    (hi : Settled parent merged i) (hp : Lineage parent i path) :
    (∀ (cv : ComplexValue → World ρ → Option Str) (r : ρ),
      Chains intTLen cv (handleIn r) (c.input.rules i) (path.flatMap c₀.input.own)) ∧
    ∀ cv : ComplexValue → Response → Option Str,
      Chains intTLen cv Response.handleOut (c.output.rules i) (path.flatMap c₀.output.own) := by
  obtain ⟨hin, hout⟩ := inv_of_parsed hparse
  obtain ⟨hmin, hmout⟩ := merged_of_run hin hout hmerge
  exact ⟨fun cv r => hmin.chains hT hT' (fun _ n => handleIn_id n)
      (fun _ _ _ _ => handleIn_ne_declined) hin hi hp,
    fun cv => hmout.chains hT hT' (fun _ n => Response.handleOut_id n)
      (fun _ _ _ _ => Response.handleOut_ne_declined) hout hi hp⟩

end Cycle

def customSet (key value : Str) (id : ℕ) : InVal :=
  ⟨some (value ++ [0]), hashKeyLc key, key, .setHeader, none, .set, none, false, false, id, false⟩

def overrideCycle : Cycle Bool InHandler InField OutHandler OutField :=
  { (Cycle.initial : Cycle Bool InHandler InField OutHandler OutField) with
    input := ((Side.initial.addRule true (customSet (str "A") (str "1") 0)).addRule true
      (customSet (str "B") (str "2") 1)).addRule false (customSet (str "a") (str "9") 0)
    requiresHandler := true }

/-- The merged location has dropped `set A 1`, and runs as if it had not. -/
theorem inheritance_is_chaining_override :
    Chains 20 (fun text _ => some text) (handleIn ())
      ((overrideCycle.mergeLocConf 20 true false).input.rules false)
      [customSet (str "a") (str "9") 0, customSet (str "A") (str "1") 0,
        customSet (str "B") (str "2") 1] ∧
    ((overrideCycle.mergeLocConf 20 true false).input.own false).map HeaderVal.key =
      [str "a", str "B"] := by
  have hfirst : parseDirective (fun _ => true) setHandlersIn 0 [str "set", str "A", str "1"] =
      .ok (customSet (str "A") (str "1") 0) := rfl
  have hsecond : parseDirective (fun _ => true) setHandlersIn 1 [str "set", str "B", str "2"] =
      .ok (customSet (str "B") (str "2") 1) := rfl
  have hthird : parseDirective (fun _ => true) setHandlersIn 0 [str "set", str "a", str "9"] =
      .ok (customSet (str "a") (str "9") 0) := rfl
  have hparse : Relation.ReflTransGen
      (Cycle.Directive (fun _ => true) setHandlersIn setHandlersOut) Cycle.initial overrideCycle :=
    ((Relation.ReflTransGen.single (.input (i := true) hfirst)).tail
      (.input (i := true) hsecond)).tail (.input (i := false) hthird)
  have hmerge : Relation.ReflTransGen (Merge 20 fun i => if i then none else some true)
      (overrideCycle, []) (overrideCycle.mergeLocConf 20 true false, [false]) :=
    .single (.merge rfl (Or.inl rfl) (by simp))
  have hpath : Lineage (fun i => if i then none else some true) false [false, true] :=
    .child rfl (.root rfl)
  exact ⟨(inheritance_is_chaining (by decide) (by decide) hparse hmerge (Or.inr (by simp))
    hpath).1 _ (), by decide⟩

end HeadersControl
