import HeadersControl.Hooks.Chain
import HeadersControl.Location.Configured
import HeadersControl.Phase.Rotation

/-! # Installing the filter and the handler

The module takes its place in the chain of header filters, and among the handlers
of the rewrite phase, only where a directive of its own has been read. The chain is
one for all `http` blocks of a configuration, and the flags are kept for each block,
so that every block behind the first one installs the filter. Where it is missing,
no location has rules for it.
-/

namespace HeadersControl

open Segments Hooks

section Functions

variable {ρ : Type} [DecidableEq ρ] {intTLen : ℕ}

/-- `ngx_http_headers_control_filter`, with the filter that it has saved. -/
def headerFilter (intTLen : ℕ) (cv : ComplexValue → Response → Option Str)
    (rules : Rules OutHandler OutField) (next : Response → Except Fault (Rc × Response))
    (s : Response) : Except Fault (Rc × Response) :=
  match rules.1 with
  | none => next s
  | some _ =>
      match runRules intTLen (Response.execOutputHeader cv) rules s with
      | .error e => .error e
      | .ok (.error, s) => .ok (.error, s)
      | .ok (_, s) => next s

/-- `ngx_http_headers_control_handler` once it is at the end of the phase. -/
def rewriteHandler (intTLen : ℕ) (cv : ComplexValue → World ρ → Option Str)
    (rules : Rules InHandler InField) (httpVersion : ℕ) (r : ρ) (w : World ρ) :
    Except Fault (Rc × World ρ) :=
  match rules.1 with
  | none => .ok (.declined, w)
  | some _ =>
      if httpVersion < 1000 then .ok (.declined, w)
      else match runRules intTLen (execInputHeader cv r) rules w with
        | .error e => .error e
        | .ok (.error, w) => .ok (.error, w)
        | .ok (_, w) => .ok (.declined, w)

/-- The rule loop runs for the requests for which the phase comes to it. -/
theorem rewriteHandler_eq (cv : ComplexValue → World ρ → Option Str)
    (rules : Rules InHandler InField) (httpVersion : ℕ) (r : ρ) (w : World ρ) :
    rewriteHandler intTLen cv rules httpVersion r w =
      if (⟨rules.1, httpVersion⟩ : Phase.Conf _).RunsRules then
        (runRules intTLen (execInputHeader cv r) rules w).map fun res =>
          (if res.1 = .error then .error else .declined, res.2)
      else .ok (.declined, w) := by
  unfold rewriteHandler
  cases hrules : rules.1 with
  | none => rfl
  | some h =>
    by_cases hold : httpVersion < 1000
    · simp [Phase.Conf.RunsRules, hold]
    · simp only [hold, if_false, Phase.Conf.RunsRules, Option.isSome_some, true_and,
        Nat.not_lt.mp hold, if_true]
      cases runRules intTLen (execInputHeader cv r) rules w with
      | error e => rfl
      | ok res =>
        obtain ⟨_ | _ | _, w'⟩ := res
        · rfl
        · rfl
        · rfl

end Functions

section PostConfig

variable {κ μ θ : Type} [DecidableEq κ] [DecidableEq μ]

structure Globals (κ μ : Type) where
  ngxCycle : κ
  prevCycle : Option κ
  filters : Chain μ

/-- `ngx_http_headers_control_filter_init`. -/
def filterInit (ours : μ) (g : Globals κ μ) : Globals κ μ :=
  { g with filters := g.filters.push ours }

/--
`ngx_http_headers_control_post_config` for the flags of a block, with the handlers of its rewrite
phase. The push of another handler may fail.
-/
def postConfig (ours : μ) (handler : θ) (requiresFilter requiresHandler pushes : Bool)
    (g : Globals κ μ) (handlers : List θ) : Rc × Globals κ μ × List θ :=
  let multiHttpBlocks : Bool := g.prevCycle = some g.ngxCycle
  let g := if multiHttpBlocks then g else { g with prevCycle := some g.ngxCycle }
  let g := if multiHttpBlocks || requiresFilter then filterInit ours g else g
  if !requiresHandler then (.ok, g, handlers)
  else if pushes then (.ok, g, handlers ++ [handler])
  else (.error, g, handlers)

/-- An `http` block: the filter modules configured before and behind this one, and the flags. -/
structure HttpBlock (μ : Type) where
  before : List μ
  behind : List μ
  requiresFilter : Bool
  requiresHandler : Bool
  pushes : Bool

/--
A block is configured: the header filter module takes the head of the chain, and the others follow
in the order of the modules. `none` where the configuration fails.
-/
def configure (base ours : μ) (handler : θ) (g : Globals κ μ) (b : HttpBlock μ)
    (handlers : List θ) : Option (Globals κ μ × List θ) :=
  let g := { g with filters := b.before.foldl Chain.push (g.filters.reset base) }
  match postConfig ours handler b.requiresFilter b.requiresHandler b.pushes g handlers with
  | (.ok, g, handlers) => some ({ g with filters := b.behind.foldl Chain.push g.filters }, handlers)
  | _ => none

def configureAll (base ours : μ) (handler : θ) (g : Globals κ μ) (bs : List (HttpBlock μ)) :
    Option (Globals κ μ) :=
  bs.foldlM (fun g b => (configure base ours handler g b []).map Prod.fst) g

end PostConfig

section Flags

variable {ι : Type} [DecidableEq ι] {ηi οi ηo οo : Type} {compiles : Str → Bool} {intTLen : ℕ}
  {tableIn : SetHandlers ηi οi} {tableOut : SetHandlers ηo οo} {parent : ι → Option ι}

/-- Without its flag a side has no rules anywhere. -/
structure Flagged (c : Cycle ι ηi οi ηo οo) : Prop where
  input : c.requiresHandler = false → ∀ i, c.input.headers i = none
  output : c.requiresFilter = false → ∀ i, c.output.headers i = none

theorem flagged_of_parsed {c : Cycle ι ηi οi ηo οo}
    (h : Relation.ReflTransGen (Cycle.Directive compiles tableIn tableOut) .initial c) :
    Flagged c := by
  induction h with
  | refl => exact ⟨fun _ _ => rfl, fun _ _ => rfl⟩
  | tail _ hd ih =>
    cases hd with
    | input => exact ⟨fun hflag => absurd hflag (by simp), ih.output⟩
    | output => exact ⟨ih.input, fun hflag => absurd hflag (by simp)⟩

theorem headers_mergeLocConf {η ο : Type} {s : Side ι η ο} (h : ∀ i, s.headers i = none)
    (prev conf i : ι) : (s.mergeLocConf intTLen prev conf).headers i = none := by
  unfold Side.mergeLocConf
  rw [h conf]
  by_cases hi : i = conf
  · simp [hi, h]
  · simp [hi, h]

theorem flagged_of_merge {p q : Cycle ι ηi οi ηo οo × List ι}
    (h : Relation.ReflTransGen (Merge intTLen parent) p q) (hp : Flagged p.1) : Flagged q.1 := by
  induction h with
  | refl => exact hp
  | tail _ hm ih =>
    cases hm with
    | merge =>
      constructor
      · intro hflag i
        exact headers_mergeLocConf (ih.input hflag) _ _ i
      · intro hflag i
        exact headers_mergeLocConf (ih.output hflag) _ _ i

theorem Configured.flagged {c₀ c : Cycle ι InHandler InField OutHandler OutField}
    {merged : List ι} {i : ι} {path : List ι}
    (hl : Configured compiles intTLen parent c₀ c merged i path) : Flagged c :=
  flagged_of_merge hl.merge (flagged_of_parsed hl.parsed)

end Flags

section Install

variable {κ μ θ : Type} [DecidableEq κ] [DecidableEq μ] {base ours : μ} {handler : θ}
  {g g' : Globals κ μ} {b : HttpBlock μ} {bs : List (HttpBlock μ)} {handlers handlers' : List θ}

def HttpBlock.members (b : HttpBlock μ) (ours : μ) (installed : Bool) : List μ :=
  b.behind.reverse ++ ((if installed then [ours] else []) ++ b.before.reverse)

/-- No filter is configured twice. -/
def HttpBlock.Proper (b : HttpBlock μ) (ours : μ) : Prop := (b.members ours true).Nodup

instance (b : HttpBlock μ) (ours : μ) : Decidable (b.Proper ours) :=
  inferInstanceAs (Decidable (List.Nodup _))

theorem members_eq_filter (hb : b.Proper ours) :
    b.members ours false = (b.members ours true).filter (· ≠ ours) := by
  have hn : (b.behind.reverse ++ ours :: b.before.reverse).Nodup := hb
  obtain ⟨hm, -⟩ := List.nodup_cons.mp (List.nodup_middle.mp hn)
  rw [List.mem_append, not_or] at hm
  have hother : ∀ l : List μ, ours ∉ l → l.filter (· ≠ ours) = l := fun l hl => by
    rw [List.filter_eq_self]
    intro x hx
    simpa using ne_of_mem_of_not_mem hx hl
  rw [HttpBlock.members, HttpBlock.members, List.filter_append, List.filter_append,
    hother _ hm.1, hother _ hm.2]
  simp

theorem postConfig_eq (requiresFilter requiresHandler pushes : Bool) (g : Globals κ μ)
    (handlers : List θ) :
    postConfig ours handler requiresFilter requiresHandler pushes g handlers =
      (if requiresHandler && !pushes then .error else .ok,
        { g with
          prevCycle := some g.ngxCycle
          filters := if decide (g.prevCycle = some g.ngxCycle) || requiresFilter then
            g.filters.push ours else g.filters },
        handlers ++ if requiresHandler && pushes then [handler] else []) := by
  obtain ⟨ngxCycle, prevCycle, filters⟩ := g
  unfold postConfig filterInit
  by_cases hc : prevCycle = some ngxCycle
  · subst hc
    cases requiresHandler <;> cases pushes <;> simp
  · cases requiresFilter <;> cases requiresHandler <;> cases pushes <;> simp [hc]

theorem configure_eq (h : configure base ours handler g b handlers = some (g', handlers')) :
    g'.ngxCycle = g.ngxCycle ∧ g'.prevCycle = some g.ngxCycle ∧
      handlers' = handlers ++ (if b.requiresHandler then [handler] else []) ∧
      (b.Proper ours → g'.filters.Lists base
        (b.members ours (decide (g.prevCycle = some g.ngxCycle) || b.requiresFilter))) := by
  unfold configure at h
  dsimp only at h
  rw [postConfig_eq] at h
  cases hfail : b.requiresHandler && !b.pushes with
  | true => simp [hfail] at h
  | false =>
    have hpushed : (b.requiresHandler && b.pushes) = b.requiresHandler := by
      revert hfail
      cases b.requiresHandler <;> cases b.pushes <;> simp
    rw [hfail, hpushed] at h
    cases h
    refine ⟨rfl, rfl, rfl, fun hp => ?_⟩
    dsimp only
    generalize (decide (g.prevCycle = some g.ngxCycle) || b.requiresFilter) = installed
    have hn : (b.behind.reverse ++ ours :: b.before.reverse).Nodup := hp
    obtain ⟨-, hrest, -⟩ := List.nodup_append.mp hn
    obtain ⟨hours, hnb⟩ := List.nodup_cons.mp hrest
    have hlist : (b.before.foldl Chain.push (g.filters.reset base)).Lists base
        b.before.reverse := by
      simpa using (lists_reset g.filters base).pushAll (by simpa using hnb)
    cases installed with
    | true => exact (hlist.push hours).pushAll hn
    | false =>
      have hnone : (b.members ours false).Nodup := by
        rw [members_eq_filter hp]
        exact List.Nodup.filter _ hp
      exact hlist.pushAll hnone

/-- The last block decides on the chain, and every block behind the first one installs the filter. -/
theorem configureAll_lists (h : configureAll base ours handler g (bs ++ [b]) = some g')
    (hb : b.Proper ours) : ∃ installed : Bool,
      g'.filters.Lists base (b.members ours installed) ∧
        (bs ≠ [] ∨ b.requiresFilter = true → installed = true) := by
  unfold configureAll at h
  rw [List.foldlM_append] at h
  cases hbs : bs.foldlM (fun g b => (configure base ours handler g b []).map Prod.fst) g with
  | none => simp [hbs] at h
  | some g₁ =>
    rw [hbs] at h
    have hlast : (configure base ours handler g₁ b []).map Prod.fst = some g' := by simpa using h
    obtain ⟨⟨g₂, hs⟩, hc, rfl⟩ := Option.map_eq_some_iff.mp hlast
    obtain ⟨-, -, -, hlists⟩ := configure_eq hc
    refine ⟨_, hlists hb, ?_⟩
    rintro (hne | hreq)
    · have hprev : g₁.prevCycle = some g₁.ngxCycle := by
        obtain ⟨init, last, rfl⟩ := (List.eq_nil_or_concat bs).resolve_left hne
        rw [List.concat_eq_append, List.foldlM_append] at hbs
        cases hinit : init.foldlM
            (fun g b => (configure base ours handler g b []).map Prod.fst) g with
        | none => simp [hinit] at hbs
        | some g₀ =>
          rw [hinit] at hbs
          have hl : (configure base ours handler g₀ last []).map Prod.fst = some g₁ := by
            simpa using hbs
          obtain ⟨⟨g₃, hs'⟩, hc', rfl⟩ := Option.map_eq_some_iff.mp hl
          obtain ⟨hcycle, hprev, -⟩ := configure_eq hc'
          rw [hprev, hcycle]
      simp [hprev]
    · simp [hreq]

variable {ι ρ : Type} [DecidableEq ι] [DecidableEq ρ] {compiles : Str → Bool} {intTLen : ℕ}
  {parent : ι → Option ι} {c₀ c : Cycle ι InHandler InField OutHandler OutField}
  {merged : List ι} {i : ι} {path : List ι}

/--
Whatever the process has configured before, once the blocks of a configuration are configured the
header filters of a response in any of their locations run as if this module were always among
them, and so do the handlers of a request.
-/
theorem lazy_installation (h : configureAll base ours handler g (bs ++ [b]) = some g')
    (hb : b.Proper ours) (b' : HttpBlock μ) (hb' : b' ∈ bs ++ [b])
    (hl : Configured compiles intTLen parent c₀ c merged i path)
    (hfilter : c.requiresFilter = b'.requiresFilter)
    (hhandler : c.requiresHandler = b'.requiresHandler) :
    (∀ (cv : ComplexValue → Response → Option Str)
        (run : μ → (Response → Except Fault (Rc × Response)) → Response →
          Except Fault (Rc × Response)) (dead : Response → Except Fault (Rc × Response)) (n : ℕ),
      run ours = headerFilter intTLen cv (c.output.rules i) →
      (∀ k k', run base k = run base k') → (b.members ours true).length < n →
      g'.filters.call run dead n g'.filters.top =
        (b.members ours true).foldr run (run base dead)) ∧
    ∀ (g₁ g₂ : Globals κ μ) (handlers handlers' : List θ),
      configure base ours handler g₁ b' handlers = some (g₂, handlers') →
      handlers' = handlers ++ [handler] ∨ handlers' = handlers ∧
        ∀ (cv : ComplexValue → World ρ → Option Str) (httpVersion : ℕ) (r : ρ) (w : World ρ),
          rewriteHandler intTLen cv (c.input.rules i) httpVersion r w = .ok (.declined, w) := by
  have hflags := hl.flagged
  constructor
  · intro cv run dead n hrun hbase hn
    obtain ⟨installed, hlists, hinstalled⟩ := configureAll_lists h hb
    cases installed with
    | true => exact hlists.call hbase hn
    | false =>
      have hreq : c.requiresFilter = false := by
        rw [hfilter, ← Bool.not_eq_true]
        intro hr
        have hcase : bs ≠ [] ∨ b.requiresFilter = true := by
          cases bs with
          | nil =>
            obtain rfl := List.mem_singleton.mp hb'
            exact Or.inr hr
          | cons x xs => exact Or.inl (List.cons_ne_nil x xs)
        cases hinstalled hcase
      have hskip : ∀ k, run ours k = k := fun k => by
        rw [hrun]
        funext s
        rw [headerFilter, Side.rules, hflags.output hreq i]
        rfl
      rw [members_eq_filter hb] at hlists
      rw [hlists.call hbase ((List.length_filter_le ..).trans_lt hn)]
      apply foldr_filter
      intro x _ hx k
      obtain rfl : x = ours := by simpa using hx
      exact hskip k
  · intro g₁ g₂ handlers handlers' hc
    obtain ⟨-, -, rfl, -⟩ := configure_eq hc
    cases hreq : b'.requiresHandler with
    | true => exact Or.inl rfl
    | false =>
      refine Or.inr ⟨by simp, fun cv httpVersion r w => ?_⟩
      rw [rewriteHandler, Side.rules, hflags.input (hhandler.trans hreq) i]
      rfl

end Install

def serverDirectives : List (Bool × Bool × List Str) :=
  [(true, false, [str "set", str "Server", str "b"])]

def filterRun (c : Cycle Bool InHandler InField OutHandler OutField) (m : ℕ)
    (next : Response → Except Fault (Rc × Response)) : Response → Except Fault (Rc × Response) :=
  if m = 0 then headerFilter 20 (fun text _ => some text) (c.output.rules false) next
  else if m = 1 then fun s => .ok (.ok, s)
  else next

/-- Two blocks, of which the first has a response rule and the second has none. -/
theorem lazy_installation_blocks :
    ∃ (c : Cycle Bool InHandler InField OutHandler OutField) (g' : Globals ℕ ℕ),
      serverDirectives.foldlM (readDirective (fun _ => true) setHandlersIn setHandlersOut)
        .initial = .ok c ∧
      configureAll 1 0 () ⟨7, none, ⟨1, id⟩⟩
        ([⟨[2], [3], true, false, true⟩] ++ [⟨[2, 4], [3], false, false, true⟩]) = some g' ∧
      g'.filters.call (filterRun (c.mergeLocConf 20 true false)) (fun _ => .error .endless) 6
          g'.filters.top =
        headerFilter 20 (fun text _ => some text)
          ((c.mergeLocConf 20 true false).output.rules false) fun s => .ok (.ok, s) := by
  refine ⟨_, _, rfl, rfl, ?_⟩
  have hblocks : configureAll 1 0 () (⟨7, none, ⟨1, id⟩⟩ : Globals ℕ ℕ)
    ([⟨[2], [3], true, false, true⟩] ++ [⟨[2, 4], [3], false, false, true⟩]) = some _ := rfl
  exact (lazy_installation (ρ := Unit) hblocks (by decide) _ (List.mem_cons_self ..)
    (configured_child (fun _ => true) serverDirectives rfl) rfl rfl).1
    (fun text _ => some text) (filterRun _) (fun _ => .error .endless) 6 rfl (fun _ _ => rfl)
    (by decide)

end HeadersControl
