import HeadersControl.Location.Configured

/-! # What acts in a location

The rules that act are told apart by the level they come from: an unconditional
exact rule without `-n` shelters its header from the exact rules of all outer
levels, also where it is `pass`.
-/

namespace HeadersControl

open Segments

section Sheltered

variable {ι η ο σ : Type} {cv : ComplexValue → σ → Option Str}
  {handle : HeaderVal η ο → Str → σ → Except Fault (Rc × σ)}

/--
The discipline of a log. Behind an exact rule without `-n` no exact rule of its name acts, and
what acts in outer levels is no exact rule of a name that an inner level overrides.
-/
structure Sheltered (own : ι → List (HeaderVal η ο)) (path : List ι)
    (log : List (HeaderVal η ο × Str)) : Prop where
  locks : log.Pairwise fun a b => a.1.locks = true → b.1.wildcard = false →
    sameName b.1.key a.1.key = false
  levels : ∀ inner outer, path = inner ++ outer → ∃ log₁ log₂, log = log₁ ++ log₂ ∧
    (log₁.map Prod.fst).Sublist (inner.flatMap own) ∧
    (log₂.map Prod.fst).Sublist (outer.flatMap own) ∧
    ∀ h ∈ inner.flatMap own, h.overrides = true → ∀ a ∈ log₂, a.1.wildcard = false →
      sameName a.1.key h.key = false

theorem sheltered_of_pass {own : ι → List (HeaderVal η ο)} {path : List ι}
    {log : List (HeaderVal η ο × Str)} {names' : List (ℕ × Str)} {s s' : σ}
    (hp : Pass cv handle [] (path.flatMap own) s log names' s') : Sheltered own path log where
  locks := hp.pairwise_locks.imp fun hab hl hw => by
    rw [← Bool.not_eq_true, sameName_iff]
    exact hab hl hw
  levels := by
    rintro inner outer rfl
    rw [List.flatMap_append] at hp
    obtain ⟨log₁, names₁, s₁, log₂, h₁, h₂, rfl⟩ := hp.split
    refine ⟨log₁, log₂, rfl, h₁.sublist, h₂.sublist, fun h hm ho a ha hw => ?_⟩
    rw [← Bool.not_eq_true, sameName_iff]
    exact h₂.locked_out (h₁.mem_of_overrides hm ho) a ha hw

end Sheltered

section Cycle

variable {ι ρ : Type} [DecidableEq ι] [DecidableEq ρ] {compiles : Str → Bool} {intTLen : ℕ}
  {parent : ι → Option ι} {c₀ c : Cycle ι InHandler InField OutHandler OutField}
  {merged : List ι} {i : ι} {path : List ι}

/--
In every location of every accepted tree, a run of either loop that comes through is one pass
over the rules of the lineage, and what acts in it obeys the locks and the levels.
-/
theorem locking_discipline (hl : Configured compiles intTLen parent c₀ c merged i path) :
    (∀ (cv : ComplexValue → World ρ → Option Str) (r : ρ) (w w' : World ρ),
      runRules intTLen (execInputHeader cv r) (c.input.rules i) w = .ok (.ok, w') →
        ∃ log names', Pass cv (handleIn r) [] (c₀.input.chain path) w log names' w' ∧
          Sheltered c₀.input.own path log) ∧
    ∀ (cv : ComplexValue → Response → Option Str) (s s' : Response),
      runRules intTLen (Response.execOutputHeader cv) (c.output.rules i) s = .ok (.ok, s') →
        ∃ log names', Pass cv Response.handleOut [] (c₀.output.chain path) s log names' s' ∧
          Sheltered c₀.output.own path log := by
  constructor
  · intro cv r w w' he
    rw [hl.runIn] at he
    obtain ⟨log, names', hp⟩ := pass_of_reference (fun _ _ _ _ => handleIn_ne_declined) he
    exact ⟨log, names', hp, sheltered_of_pass hp⟩
  · intro cv s s' he
    rw [hl.runOut] at he
    obtain ⟨log, names', hp⟩ :=
      pass_of_reference (fun _ _ _ _ => Response.handleOut_ne_declined) he
    exact ⟨log, names', hp, sheltered_of_pass hp⟩

end Cycle

def passDirectives : List (Bool × Bool × List Str) :=
  [(true, true, [str "set", str "A", str "1"]), (false, true, [str "pass", str "a"]),
    (false, true, [str "set", str "-n", str "B", str "2"])]

def headerA : World Unit := .ofEntries [(str "A", str "0")] 4 fun _ => none

/-- The location keeps the header `A` from the rule of the server. -/
theorem locking_discipline_pass :
    ∃ (c : Cycle Bool InHandler InField OutHandler OutField) (w' : World Unit),
      passDirectives.foldlM (readDirective (fun _ => true) setHandlersIn setHandlersOut) .initial =
        .ok c ∧
      runRules 20 (execInputHeader (fun text _ => some text) ())
        ((c.mergeLocConf 20 true false).input.rules false) headerA = .ok (.ok, w') ∧
      w'.entries () = [(str "A", str "0"), (str "B", str "2")] ∧
      ∃ log names', Pass (fun text _ => some text) (handleIn ()) [] (c.input.chain [false, true])
        headerA log names' w' ∧ Sheltered c.input.own [false, true] log := by
  refine ⟨_, _, rfl, rfl, by decide, ?_⟩
  exact (locking_discipline (configured_child (fun _ => true) passDirectives rfl)).1 _ () _ _ rfl

end HeadersControl
