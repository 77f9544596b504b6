import HeadersControl.Location.Locking
import HeadersControl.Rules.Printing

/-! # One location in place of a tree

The directives of a location and of all levels above it, written into a single
location with the innermost level first, configure the same runs as the tree.
-/

namespace HeadersControl

open Segments

section Reading

variable {κ ηi οi ηo οo : Type} [DecidableEq κ] {compiles : Str → Bool}
  {tableIn : SetHandlers ηi οi} {tableOut : SetHandlers ηo οo}

def flatten (j : κ) (input : List (HeaderVal ηi οi)) (output : List (HeaderVal ηo οo)) :
    List (κ × Bool × List Str) :=
  (input.map fun hv => (j, true, hv.directive)) ++ output.map fun hv => (j, false, hv.directive)

def Side.addAll {η ο : Type} (s : Side κ η ο) (j : κ) (hvs : List (HeaderVal η ο)) : Side κ η ο :=
  hvs.foldl (fun s hv => s.addRule j { hv with id := s.cnt j }) s

theorem own_addAll {η ο : Type} {s : Side κ η ο} (h : s.Inv fun _ => False) (j : κ)
    (hvs : List (HeaderVal η ο)) :
    (s.addAll j hvs).own j =
      s.own j ++ hvs.mapIdx fun n hv => { hv with id := s.cnt j + n } := by
  induction hvs generalizing s with
  | nil => simp [Side.addAll]
  | cons hv hvs ih =>
    have hrules : (s.addRule j { hv with id := s.cnt j }).rules j =
        (some (s.own j ++ [{ hv with id := s.cnt j }]), s.cnt j + 1) :=
      (Side.rules_addRule h).trans (if_pos rfl)
    have hcnt : (s.addRule j { hv with id := s.cnt j }).cnt j = s.cnt j + 1 :=
      congrArg Prod.snd hrules
    show ((s.addRule j { hv with id := s.cnt j }).addAll j hvs).own j = _
    rw [ih (Side.addRule_inv h rfl), own_addRule h, if_pos rfl, hcnt, List.mapIdx_cons,
      List.append_assoc, List.singleton_append]
    simp only [Nat.add_zero, Nat.add_assoc, Nat.add_comm 1]

variable (tableOut) in
theorem read_input (hp : tableIn.Proper) {hvs : List (HeaderVal ηi οi)}
    (hread : ∀ hv ∈ hvs, ∃ cnt args, parseDirective compiles tableIn cnt args = .ok hv) (j : κ)
    (c : Cycle κ ηi οi ηo οo) : ∃ flag,
      (hvs.map fun hv => (j, true, hv.directive)).foldlM
          (readDirective compiles tableIn tableOut) c =
        .ok { c with input := c.input.addAll j hvs, requiresHandler := flag } := by
  induction hvs generalizing c with
  | nil => exact ⟨c.requiresHandler, rfl⟩
  | cons hv hvs ih =>
    obtain ⟨cnt, args, hparse⟩ := hread hv (List.mem_cons_self ..)
    have hstep : readDirective compiles tableIn tableOut c (j, true, hv.directive) = .ok
        { c with
          input := c.input.addRule j { hv with id := c.input.cnt j }
          requiresHandler := true } := by
      simp [readDirective, parse_directive hp hparse, bind, Except.bind, pure, Except.pure]
    obtain ⟨flag, hrest⟩ := ih (fun h hm => hread h (List.mem_cons_of_mem _ hm))
      { c with
        input := c.input.addRule j { hv with id := c.input.cnt j }
        requiresHandler := true }
    refine ⟨flag, ?_⟩
    rw [List.map_cons, List.foldlM_cons, hstep]
    exact hrest

variable (tableIn) in
theorem read_output (hp : tableOut.Proper) {hvs : List (HeaderVal ηo οo)}
    (hread : ∀ hv ∈ hvs, ∃ cnt args, parseDirective compiles tableOut cnt args = .ok hv) (j : κ)
    (c : Cycle κ ηi οi ηo οo) : ∃ flag,
      (hvs.map fun hv => (j, false, hv.directive)).foldlM
          (readDirective compiles tableIn tableOut) c =
        .ok { c with output := c.output.addAll j hvs, requiresFilter := flag } := by
  induction hvs generalizing c with
  | nil => exact ⟨c.requiresFilter, rfl⟩
  | cons hv hvs ih =>
    obtain ⟨cnt, args, hparse⟩ := hread hv (List.mem_cons_self ..)
    have hstep : readDirective compiles tableIn tableOut c (j, false, hv.directive) = .ok
        { c with
          output := c.output.addRule j { hv with id := c.output.cnt j }
          requiresFilter := true } := by
      simp [readDirective, parse_directive hp hparse, bind, Except.bind, pure, Except.pure]
    obtain ⟨flag, hrest⟩ := ih (fun h hm => hread h (List.mem_cons_of_mem _ hm))
      { c with
        output := c.output.addRule j { hv with id := c.output.cnt j }
        requiresFilter := true }
    refine ⟨flag, ?_⟩
    rw [List.map_cons, List.foldlM_cons, hstep]
    exact hrest

theorem read_flatten (hin : tableIn.Proper) (hout : tableOut.Proper)
    {input : List (HeaderVal ηi οi)} {output : List (HeaderVal ηo οo)}
    (hi : ∀ hv ∈ input, ∃ cnt args, parseDirective compiles tableIn cnt args = .ok hv)
    (ho : ∀ hv ∈ output, ∃ cnt args, parseDirective compiles tableOut cnt args = .ok hv) (j : κ) :
    ∃ c : Cycle κ ηi οi ηo οo,
      (flatten j input output).foldlM (readDirective compiles tableIn tableOut) .initial =
        .ok c ∧
      c.input.own j = (input.mapIdx fun n hv => { hv with id := 0 + n }) ∧
      c.output.own j = output.mapIdx fun n hv => { hv with id := 0 + n } := by
  obtain ⟨handlerFlag, hfirst⟩ := read_input tableOut hin hi j .initial
  obtain ⟨filterFlag, hsecond⟩ := read_output tableIn hout ho j
    { (Cycle.initial : Cycle κ ηi οi ηo οo) with
      input := Side.initial.addAll j input
      requiresHandler := handlerFlag }
  have hread : (flatten j input output).foldlM (readDirective compiles tableIn tableOut) .initial =
      .ok { (Cycle.initial : Cycle κ ηi οi ηo οo) with
        input := Side.initial.addAll j input
        output := Side.initial.addAll j output
        requiresHandler := handlerFlag
        requiresFilter := filterFlag } := by
    rw [flatten, List.foldlM_append, hfirst]
    exact hsecond
  exact ⟨_, hread, own_addAll Side.initial_inv j input, own_addAll Side.initial_inv j output⟩

end Reading

variable {ι κ ρ : Type} [DecidableEq ι] [DecidableEq κ] [DecidableEq ρ] {compiles : Str → Bool}
  {intTLen : ℕ} {parent : ι → Option ι} {c₀ c : Cycle ι InHandler InField OutHandler OutField}
  {merged : List ι} {i : ι} {path : List ι}

/--
The rules of a lineage are accepted as the directives of a single location, and there both loops
run every request and every response as the merged location does.
-/
theorem flattened_location (hl : Configured compiles intTLen parent c₀ c merged i path) (j : κ) :
    ∃ c' : Cycle κ InHandler InField OutHandler OutField,
      (flatten j (c₀.input.chain path) (c₀.output.chain path)).foldlM
          (readDirective compiles setHandlersIn setHandlersOut) .initial = .ok c' ∧
      (∀ (cv : ComplexValue → World ρ → Option Str) (r : ρ) (w : World ρ),
        runRules intTLen (execInputHeader cv r) (c'.input.rules j) w =
          runRules intTLen (execInputHeader cv r) (c.input.rules i) w) ∧
      ∀ (cv : ComplexValue → Response → Option Str) (s : Response),
        runRules intTLen (Response.execOutputHeader cv) (c'.output.rules j) s =
          runRules intTLen (Response.execOutputHeader cv) (c.output.rules i) s := by
  obtain ⟨c', hread, hin, hout⟩ := read_flatten setHandlersIn_proper setHandlersOut_proper
    hl.readIn hl.readOut j
  have hroot : Configured compiles intTLen (fun _ => none) c' c' [] j [j] :=
    ⟨hl.one_le, hl.le_width, parsed_of_read hread, .refl, Or.inl rfl, .root rfl⟩
  refine ⟨c', hread, fun cv r w => ?_, fun cv s => ?_⟩
  · have hu : Uniform (condition cv) (action cv (handleIn r)) :=
      uniform_action (fun _ n => handleIn_id n) fun _ _ _ _ => handleIn_ne_declined
    rw [hroot.runIn, hl.runIn, Side.chain, List.flatMap_singleton, hin]
    exact reference_mapIdx hu _ _ w
  · have hu : Uniform (condition cv) (action cv Response.handleOut) :=
      uniform_action (fun _ n => Response.handleOut_id n) fun _ _ _ _ =>
        Response.handleOut_ne_declined
    rw [hroot.runOut, hl.runOut, Side.chain, List.flatMap_singleton, hout]
    exact reference_mapIdx hu _ _ s

/-- The location that keeps a header from a rule of its server, in one level. -/
theorem flattened_location_pass :
    ∃ c : Cycle Bool InHandler InField OutHandler OutField,
      passDirectives.foldlM (readDirective (fun _ => true) setHandlersIn setHandlersOut) .initial =
        .ok c ∧
      flatten () (c.input.chain [false, true]) (c.output.chain [false, true]) =
        [((), true, [str "pass", str "a"]), ((), true, [str "set", str "-n", str "B", str "2"]),
          ((), true, [str "set", str "A", str "1"])] ∧
      ∃ c' : Cycle Unit InHandler InField OutHandler OutField,
        (flatten () (c.input.chain [false, true]) (c.output.chain [false, true])).foldlM
            (readDirective (fun _ => true) setHandlersIn setHandlersOut) .initial = .ok c' ∧
        runRules 20 (execInputHeader (fun text _ => some text) ()) (c'.input.rules ()) headerA =
          runRules 20 (execInputHeader (fun text _ => some text) ())
            ((c.mergeLocConf 20 true false).input.rules false) headerA := by
  refine ⟨_, rfl, by decide, ?_⟩
  obtain ⟨c', hread, hin, -⟩ := flattened_location (ρ := Unit)
    (configured_child (fun _ => true) passDirectives rfl) ()
  exact ⟨c', hread, hin _ () headerA⟩

end HeadersControl
