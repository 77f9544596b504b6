import HeadersControl.Location.Configured
import HeadersControl.Request.View

/-! # The request loop as a program on views

In a location whose wildcard rules are tame, what the loop does to a request shows
in the view as a run of the rules that act, and every other end of the loop shows
there too, if memory does not run out.
-/

namespace HeadersControl

open Segments Runs

variable {ρ : Type} [DecidableEq ρ]

theorem HeaderVal.Parsed.clear_value {η ο : Type} {handlers : SetHandlers η ο}
    {h : HeaderVal η ο} {value : Str} (hp : h.Parsed handlers)
    (hnone : h.value = none → value = []) : h.opcode = .clear → value = [] :=
  fun hop => hnone (hp.clear hop)

theorem mirroredIn {h : InVal} (r : ρ) (hp : h.Parsed setHandlersIn) (ht : h.Tame) :
    h.Mirrored (handleIn r) HeaderVal.effect (fun w => w.view r) (fun w => w.InStep r)
      fun w => w.shape.pool.Reliable :=
  fun _ _ hw hpass hnone => handleIn_mirrors hw hp ht (hp.clear_value hnone) hpass

section Cycle

variable {ι : Type} [DecidableEq ι] {compiles : Str → Bool} {intTLen : ℕ}
  {parent : ι → Option ι} {c₀ c : Cycle ι InHandler InField OutHandler OutField}
  {merged : List ι} {i : ι} {path : List ι}

/--
In a location with tame rules, on a request in step with its pointers and with memory to spare,
the loop makes one pass over the rules up to its end, and the view of the request changes by the
run of the rules that act in it. What stops the loop stops it on the view.
-/
theorem request_refinement (hl : Configured compiles intTLen parent c₀ c merged i path)
    (ht : ∀ h ∈ c₀.input.chain path, h.Tame) (cv : ComplexValue → World ρ → Option Str) (r : ρ)
    (w : World ρ) (hw : w.InStep r) (hrel : w.shape.pool.Reliable) :
    ∃ hs rest log names w₁, c₀.input.chain path = hs ++ rest ∧
      Pass cv (handleIn r) [] hs w log names w₁ ∧ w₁.InStep r ∧
      Run (Acts HeaderVal.effect) (w.view r) log (w₁.view r) ∧
      LoopEnd cv HeaderVal.effect (fun w => w.view r) w₁ names rest
        (runRules intTLen (execInputHeader cv r) (c.input.rules i) w) := by
  rw [hl.runIn]
  exact refine_reference cv [] (fun _ _ _ _ => handleIn_ne_declined)
    (fun h hm => mirroredIn r (hl.parsedIn h hm) (ht h hm)) hw hrel

end Cycle

def viewDirectives : List (Bool × Bool × List Str) :=
  [(true, true, [str "set", str "Connection", str "close"]),
    (false, true, [str "clear", str "Y-*"]), (false, true, [str "rewrite", str "a", str "1"])]

def headersYA : World Unit := .ofEntries [(str "Y-B", str "2"), (str "A", str "0")] 4 fun _ => none

theorem request_refinement_wildcard :
    ∃ (c : Cycle Bool InHandler InField OutHandler OutField) (w' : World Unit),
      viewDirectives.foldlM (readDirective (fun _ => true) setHandlersIn setHandlersOut) .initial =
        .ok c ∧
      runRules 20 (execInputHeader (fun text _ => some text) ())
        ((c.mergeLocConf 20 true false).input.rules false) headersYA = .ok (.ok, w') ∧
      w'.entries () = [(str "A", str "1"), (str "Connection", str "close")] ∧
      ∃ hs rest log names w₁, c.input.chain [false, true] = hs ++ rest ∧
        Pass (fun text _ => some text) (handleIn ()) [] hs headersYA log names w₁ ∧
        w₁.InStep () ∧ Run (Acts HeaderVal.effect) (headersYA.view ()) log (w₁.view ()) ∧
        LoopEnd (fun text _ => some text) HeaderVal.effect (fun w => w.view ()) w₁ names rest
          (.ok (.ok, w')) := by
  refine ⟨_, _, rfl, rfl, by decide, ?_⟩
  refine request_refinement (configured_child (fun _ => true) viewDirectives rfl) ?_
    (fun text _ => some text) () headersYA ⟨Shape.single_wellFormed (by decide) (by decide), ?_⟩
    fun _ => rfl
  · decide
  · intro f _
    cases f <;> decide

end HeadersControl
