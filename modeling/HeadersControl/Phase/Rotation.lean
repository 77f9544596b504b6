import Mathlib.Data.List.Range
import Mathlib.Logic.Function.Basic
import Mathlib.Logic.Relation
import Mathlib.Tactic.NormNum

/-! # Moving the handler to the end of the rewrite phase

The first request that reaches the handler of the module moves it behind the
other handlers of the phase, in the array that all requests share, and steps its
own index back. Requests in flight hold raw indices into that array. None of
them is behind the handler before the move, and none reaches it twice after. The
rule loop is behind two more returns, for locations without rules and for HTTP 0.9.
-/

namespace HeadersControl.Phase

inductive Checker | rewrite | other (name : ℕ)
  deriving DecidableEq, Repr

/-- `ngx_http_phase_handler_t`. -/
structure PhaseHandler (θ : Type) where
  checker : Checker
  handler : θ
  next : ℕ

/-- How far a request is with the phase. A suspended request waits for one handler. -/
inductive Progress (θ : Type) | outside | running | suspended (handler : θ) | through

/-- What the handler of the module reads of a request: the rules of its location, its version. -/
structure Conf (α : Type) where
  headersIn : Option α
  httpVersion : ℕ

/--
The shared phase engine, and for each request its index, what the handler reads of it, and the
handlers it has run, with that of the module for its rule loop.
-/
structure Engine (ι θ α : Type) where
  handlers : ℕ → PhaseHandler θ
  postponed : Bool
  phaseHandler : ι → ℤ
  progress : ι → Progress θ
  conf : ι → Conf α
  log : ι → List θ

variable {ι θ α : Type} [DecidableEq ι]

def memmove (f : ℕ → PhaseHandler θ) (dst src n : ℕ) : ℕ → PhaseHandler θ :=
  fun k => if dst ≤ k ∧ k < dst + n then f (k - dst + src) else f k

/-- The move, with which `ngx_http_headers_control_handler` starts; it returns then on `false`. -/
def postpone (e : Engine ι θ α) (r : ι) : Bool × Engine ι θ α :=
  if e.postponed then (true, e)
  else
    let e := { e with postponed := true }
    let ph := e.handlers
    let cur := (e.phaseHandler r).toNat
    let last := (ph cur).next - 1
    if cur < last then
      (false,
        { e with
          handlers := Function.update (memmove ph cur (cur + 1) (last - cur)) last (ph cur)
          phaseHandler := Function.update e.phaseHandler r (e.phaseHandler r - 1) })
    else (true, e)

/-- Where the handler returns: at the move, before its rule loop, or behind the loop. -/
inductive Return (α : Type) | moved | skipped | loop (headersIn : α)

/-- `ngx_http_headers_control_handler` up to its rule loop. -/
def handler (e : Engine ι θ α) (r : ι) : Return α × Engine ι θ α :=
  match postpone e r with
  | (false, e) => (.moved, e)
  | (true, e) =>
      match (e.conf r).headersIn with
      | none => (.skipped, e)
      | some h => if (e.conf r).httpVersion < 1000 then (.skipped, e) else (.loop h, e)

/--
`ngx_http_core_rewrite_phase` after a handler declined, with what the request has run by that.
The request is through when its index leaves the phase, which ends at `stop`.
-/
def declined (stop : ℕ) (e : Engine ι θ α) (r : ι) (ran : List θ) : Engine ι θ α :=
  { e with
    phaseHandler := Function.update e.phaseHandler r (e.phaseHandler r + 1)
    progress := Function.update e.progress r
      (if e.phaseHandler r + 1 < stop then .running else .through)
    log := Function.update e.log r (e.log r ++ ran) }

def setProgress (e : Engine ι θ α) (r : ι) (p : Progress θ) : Engine ι θ α :=
  { e with progress := Function.update e.progress r p }

def current (e : Engine ι θ α) (r : ι) : PhaseHandler θ := e.handlers (e.phaseHandler r).toNat

/--
One step of one request; steps of different requests interleave freely. A request enters the phase
with the location it is in, at first and behind an internal redirect.
-/
inductive Step (ours : θ) (start stop : ℕ) : Engine ι θ α → Engine ι θ α → Prop
  | enter {e : Engine ι θ α} {r : ι} {c : Conf α} :
      e.progress r = .outside ∨ e.progress r = .through →
      Step ours start stop e
        { e with
          phaseHandler := Function.update e.phaseHandler r start
          progress := Function.update e.progress r .running
          conf := Function.update e.conf r c
          log := Function.update e.log r [] }
  | other {e : Engine ι θ α} {r : ι} :
      e.progress r = .running → (current e r).handler ≠ ours →
      Step ours start stop e (declined stop e r [(current e r).handler])
  | suspend {e : Engine ι θ α} {r : ι} :
      e.progress r = .running → (current e r).handler ≠ ours →
      Step ours start stop e (setProgress e r (.suspended (current e r).handler))
  | resume {e : Engine ι θ α} {r : ι} {h : θ} :
      e.progress r = .suspended h → Step ours start stop e (setProgress e r .running)
  | leave {e : Engine ι θ α} {r : ι} :
      e.progress r ≠ .through → Step ours start stop e (setProgress e r .outside)
  | moved {e : Engine ι θ α} {r : ι} :
      e.progress r = .running → (current e r).handler = ours → (handler e r).1 = .moved →
      Step ours start stop e (declined stop (handler e r).2 r [])
  | skipped {e : Engine ι θ α} {r : ι} :
      e.progress r = .running → (current e r).handler = ours → (handler e r).1 = .skipped →
      Step ours start stop e (declined stop (handler e r).2 r [])
  | rules {e : Engine ι θ α} {r : ι} {h : α} :
      e.progress r = .running → (current e r).handler = ours → (handler e r).1 = .loop h →
      Step ours start stop e (declined stop (handler e r).2 r [ours])
  | rulesFailed {e : Engine ι θ α} {r : ι} {h : α} :
      e.progress r = .running → (current e r).handler = ours → (handler e r).1 = .loop h →
      Step ours start stop e (setProgress (handler e r).2 r .outside)

/-- The array as nginx built it, with the handler of the module at index `p` of the phase. -/
structure Built (ours : θ) (start stop p : ℕ) (ph : ℕ → PhaseHandler θ) : Prop where
  start_le : start ≤ p
  lt_stop : p < stop
  checker : ∀ k, start ≤ k → k < stop → (ph k).checker = .rewrite
  next : ∀ k, start ≤ k → k < stop → (ph k).next = stop
  ours : ∀ k, start ≤ k → k < stop → ((ph k).handler = ours ↔ k = p)

def initial (ph : ℕ → PhaseHandler θ) : Engine ι θ α :=
  ⟨ph, false, fun _ => 0, fun _ => .outside, fun _ => ⟨none, 0⟩, fun _ => []⟩

/-- The location has request rules, and the request is not older than HTTP 1.0. -/
def Conf.RunsRules (c : Conf α) : Prop := c.headersIn.isSome = true ∧ 1000 ≤ c.httpVersion

instance (c : Conf α) : Decidable c.RunsRules := inferInstanceAs (Decidable (_ ∧ _))

def names (ph : ℕ → PhaseHandler θ) (a b : ℕ) : List θ :=
  (List.range' a (b - a)).map fun k => (ph k).handler

def rotated (stop p : ℕ) (ph : ℕ → PhaseHandler θ) : ℕ → PhaseHandler θ := fun k =>
  if k = stop - 1 then ph p else if p ≤ k ∧ k < stop - 1 then ph (k + 1) else ph k

/-- A request in the phase is at index `k` and has run what stands before it. -/
structure AtIndex (stop p : ℕ) (e : Engine ι θ α) (r : ι) (start k : ℕ) : Prop where
  phaseHandler : e.phaseHandler r = k
  start_le : start ≤ k
  lt_stop : k < stop
  before : e.postponed = false → k ≤ p
  log : e.log r = names e.handlers start k

/--
The invariant. Until the move no request is behind the handler; after it the handler is last,
and every request has run the entries before its index.
-/
structure Inv (ours : θ) (start stop p : ℕ) (ph : ℕ → PhaseHandler θ) (e : Engine ι θ α) :
    Prop where
  handlers : e.handlers = if e.postponed then rotated stop p ph else ph
  running : ∀ r, e.progress r = .running → ∃ k, AtIndex stop p e r start k
  suspended : ∀ r h, e.progress r = .suspended h →
    ∃ k, AtIndex stop p e r start k ∧ (e.handlers k).handler = h ∧ h ≠ ours
  through : ∀ r, e.progress r = .through →
    e.log r = names (rotated stop p ph) start (stop - 1) ++
      if (e.conf r).RunsRules then [ours] else []

section

variable {ours : θ} {start stop p k : ℕ} {ph ph' : ℕ → PhaseHandler θ}

theorem names_succ (h : start ≤ k) :
    names ph start (k + 1) = names ph start k ++ [(ph k).handler] := by
  have hk : k + 1 - start = k - start + 1 := by omega
  simp only [names, hk, List.range'_concat, List.map_append, List.map_singleton]
  congr 4
  omega

theorem names_congr (h : ∀ j, start ≤ j → j < k → ph j = ph' j) :
    names ph start k = names ph' start k :=
  List.map_congr_left fun j hj => by
    rw [List.mem_range'_1] at hj
    rw [h j hj.1 (by omega)]

theorem rotated_of_lt (h : k < p) (hp : p < stop) : rotated stop p ph k = ph k := by
  have : k ≠ stop - 1 := by omega
  have : ¬ p ≤ k := by omega
  simp [rotated, *]

theorem rotated_of_outside (hb : Built ours start stop p ph) (h : k < start ∨ stop ≤ k) :
    rotated stop p ph k = ph k := by
  have := hb.start_le
  have := hb.lt_stop
  have : k ≠ stop - 1 := by omega
  have : ¬ (p ≤ k ∧ k < stop - 1) := by omega
  simp [rotated, *]

theorem rotated_last : rotated stop p ph (stop - 1) = ph p := if_pos rfl

theorem rotated_eq_self (h : p = stop - 1) : rotated stop p ph = ph := by
  funext k
  by_cases hk : k = stop - 1
  · rw [hk, rotated_last, h]
  · have : ¬ (p ≤ k ∧ k < stop - 1) := by omega
    simp [rotated, hk, this]

theorem memmove_eq_rotated (h : p < stop - 1) :
    Function.update (memmove ph p (p + 1) (stop - 1 - p)) (stop - 1) (ph p) =
      rotated stop p ph := by
  funext k
  by_cases hk : k = stop - 1
  · simp [hk, rotated]
  · rw [Function.update_of_ne hk]
    by_cases hr : p ≤ k ∧ k < stop - 1
    · have : k < p + (stop - 1 - p) := by omega
      have : k - p + (p + 1) = k + 1 := by omega
      simp [memmove, rotated, *]
    · have : ¬ (p ≤ k ∧ k < p + (stop - 1 - p)) := by omega
      simp [memmove, rotated, hk, hr, this]

theorem rotated_mem (hb : Built ours start stop p ph) (h : start ≤ k) (h' : k < stop) :
    ∃ j, start ≤ j ∧ j < stop ∧ rotated stop p ph k = ph j := by
  unfold rotated
  split
  · exact ⟨p, hb.start_le, hb.lt_stop, rfl⟩
  · split
    · exact ⟨k + 1, by omega, by omega, rfl⟩
    · exact ⟨k, h, h', rfl⟩

theorem rotated_ours (hb : Built ours start stop p ph) (h : start ≤ k) (h' : k < stop) :
    (rotated stop p ph k).handler = ours ↔ k = stop - 1 := by
  have hs := hb.start_le
  have hp := hb.lt_stop
  by_cases hk : k = stop - 1
  · simp [hk, rotated, (hb.ours p hs hp).mpr rfl]
  · simp only [rotated, hk, if_false, iff_false]
    split
    · rw [hb.ours (k + 1) (by omega) (by omega)]
      omega
    · rw [hb.ours k h h']
      omega

theorem names_rotated (hb : Built ours start stop p ph) :
    names (rotated stop p ph) start (stop - 1) = names ph start p ++ names ph (p + 1) stop := by
  have hs := hb.start_le
  have hp := hb.lt_stop
  obtain ⟨n, rfl⟩ : ∃ n, stop = n + 1 := ⟨stop - 1, by omega⟩
  have hsplit : n - start = (p - start) + (n - p) := by omega
  rw [Nat.add_sub_cancel, names, hsplit, ← List.range'_append_1, List.map_append]
  congr 1
  · exact names_congr fun j _ hj => rotated_of_lt hj hp
  · have hstart : start + (p - start) = p := by omega
    rw [hstart, names, Nat.add_sub_add_right, List.range'_succ_left, List.map_map]
    apply List.map_congr_left
    intro j hj
    rw [List.mem_range'_1] at hj
    have : j ≠ n := by omega
    have : p ≤ j ∧ j < n := by omega
    simp [rotated, *]

variable {e e' : Engine ι θ α} {r : ι}

omit [DecidableEq ι] in
theorem AtIndex.of_eq (h : AtIndex stop p e r start k) (hh : e'.handlers = e.handlers)
    (hp : e'.postponed = e.postponed) (hi : e'.phaseHandler r = e.phaseHandler r)
    (hl : e'.log r = e.log r) : AtIndex stop p e' r start k where
  phaseHandler := hi.trans h.phaseHandler
  start_le := h.start_le
  lt_stop := h.lt_stop
  before := hp ▸ h.before
  log := by rw [hl, hh, h.log]

omit [DecidableEq ι] in
theorem Inv.update (hi : Inv ours start stop p ph e) (hh : e'.handlers = e.handlers)
    (hp : e'.postponed = e.postponed)
    (hne : ∀ r' ≠ r, e'.phaseHandler r' = e.phaseHandler r' ∧ e'.progress r' = e.progress r' ∧
      e'.log r' = e.log r' ∧ e'.conf r' = e.conf r')
    (hrun : e'.progress r = .running → ∃ k, AtIndex stop p e' r start k)
    (hsus : ∀ h, e'.progress r = .suspended h →
      ∃ k, AtIndex stop p e' r start k ∧ (e'.handlers k).handler = h ∧ h ≠ ours)
    (hthr : e'.progress r = .through → e'.log r =
      names (rotated stop p ph) start (stop - 1) ++
        if (e'.conf r).RunsRules then [ours] else []) :
    Inv ours start stop p ph e' := by
  refine ⟨by rw [hh, hp, hi.handlers], fun r' hr => ?_, fun r' h hr => ?_, fun r' hr => ?_⟩ <;>
    by_cases he : r' = r
  · subst he
    exact hrun hr
  · obtain ⟨hph, hpr, hl, -⟩ := hne r' he
    obtain ⟨k, hk⟩ := hi.running r' (hpr ▸ hr)
    exact ⟨k, hk.of_eq hh hp hph hl⟩
  · subst he
    exact hsus h hr
  · obtain ⟨hph, hpr, hl, -⟩ := hne r' he
    obtain ⟨k, hk, hn⟩ := hi.suspended r' h (hpr ▸ hr)
    exact ⟨k, hk.of_eq hh hp hph hl, by rw [hh]; exact hn⟩
  · subst he
    exact hthr hr
  · obtain ⟨-, hpr, hl, hc⟩ := hne r' he
    rw [hl, hc]
    exact hi.through r' (hpr ▸ hr)

omit [DecidableEq ι] in
/-- The move does not disturb a request in flight, which is before the handler or at it. -/
theorem AtIndex.rotate (hk : AtIndex stop p e r start k) (hb : Built ours start stop p ph)
    (hi : Inv ours start stop p ph e) :
    AtIndex stop p { e with postponed := true, handlers := rotated stop p ph } r start k := by
  refine ⟨hk.phaseHandler, hk.start_le, hk.lt_stop, by simp, ?_⟩
  rw [hk.log]
  cases hf : e.postponed with
  | true =>
    have hh : e.handlers = rotated stop p ph := by simpa [hf] using hi.handlers
    rw [hh]
  | false =>
    have hh : e.handlers = ph := by simpa [hf] using hi.handlers
    have := hk.before hf
    rw [hh]
    exact names_congr fun j _ hj => (rotated_of_lt (by omega) hb.lt_stop).symm

omit [DecidableEq ι] in
theorem Inv.rotate (hi : Inv ours start stop p ph e) (hb : Built ours start stop p ph) :
    Inv ours start stop p ph { e with postponed := true, handlers := rotated stop p ph } := by
  refine ⟨rfl, fun r hr => ?_, fun r h hr => ?_, hi.through⟩
  · obtain ⟨k, hk⟩ := hi.running r hr
    exact ⟨k, hk.rotate hb hi⟩
  · obtain ⟨k, hk, hn, ho⟩ := hi.suspended r h hr
    refine ⟨k, hk.rotate hb hi, ?_, ho⟩
    rw [← hn]
    cases hf : e.postponed with
    | true =>
      have hh : e.handlers = rotated stop p ph := by simpa [hf] using hi.handlers
      rw [hh]
    | false =>
      have hh : e.handlers = ph := by simpa [hf] using hi.handlers
      -- a suspended request is not at the handler of the module, so it is before it
      have hkp : k ≠ p := by
        rintro rfl
        rw [hh, (hb.ours k hk.start_le hk.lt_stop).mpr rfl] at hn
        exact ho hn.symm
      have := hk.before hf
      rw [hh]
      exact congrArg PhaseHandler.handler (rotated_of_lt (by omega) hb.lt_stop)

omit [DecidableEq ι] in
theorem AtIndex.current (h : AtIndex stop p e r start k) : current e r = e.handlers k := by
  rw [Phase.current, h.phaseHandler, Int.toNat_natCast]

theorem postpone_last (hb : Built ours start stop p ph) (hi : Inv ours start stop p ph e)
    (hk : AtIndex stop p e r start k) (ho : (current e r).handler = ours)
    (h : (postpone e r).1 = true) :
    (postpone e r).2 = { e with postponed := true, handlers := rotated stop p ph } ∧
      k = stop - 1 := by
  rw [hk.current] at ho
  cases hf : e.postponed with
  | true =>
    have hh : e.handlers = rotated stop p ph := by simpa [hf] using hi.handlers
    rw [hh] at ho
    refine ⟨?_, (rotated_ours hb hk.start_le hk.lt_stop).mp ho⟩
    rw [← hh, ← hf]
    show (postpone e r).2 = e
    simp [postpone, hf]
  | false =>
    have hh : e.handlers = ph := by simpa [hf] using hi.handlers
    rw [hh] at ho
    obtain rfl := (hb.ours k hk.start_le hk.lt_stop).mp ho
    have hnext := hb.next k hk.start_le hk.lt_stop
    have hlast : ¬ k < stop - 1 := by
      intro hlt
      simp [postpone, hf, hk.phaseHandler, hh, hnext, hlt] at h
    have hp : k = stop - 1 := by
      have := hk.lt_stop
      omega
    refine ⟨?_, hp⟩
    rw [rotated_eq_self hp, ← hh]
    simp [postpone, hf, hk.phaseHandler, hh, hnext, hlast]

theorem postpone_moved (hb : Built ours start stop p ph) (hi : Inv ours start stop p ph e)
    (hk : AtIndex stop p e r start k) (ho : (current e r).handler = ours)
    (h : (postpone e r).1 = false) :
    (postpone e r).2 =
      { e with
        postponed := true
        handlers := rotated stop p ph
        phaseHandler := Function.update e.phaseHandler r (k - 1) } := by
  rw [hk.current] at ho
  cases hf : e.postponed with
  | true => simp [postpone, hf] at h
  | false =>
    have hh : e.handlers = ph := by simpa [hf] using hi.handlers
    rw [hh] at ho
    obtain rfl := (hb.ours k hk.start_le hk.lt_stop).mp ho
    have hnext := hb.next k hk.start_le hk.lt_stop
    by_cases hlt : k < stop - 1
    · simp [postpone, hf, hk.phaseHandler, hh, hnext, hlt, memmove_eq_rotated]
    · simp [postpone, hf, hk.phaseHandler, hh, hnext, hlt] at h

omit [DecidableEq ι] in
theorem runsRules_iff {c : Conf α} : c.RunsRules ↔ ∃ h, c.headersIn = some h ∧
    1000 ≤ c.httpVersion := by
  simp [Conf.RunsRules, Option.isSome_iff_exists]

theorem handler_cases (e : Engine ι θ α) (r : ι) :
    (postpone e r).1 = false ∧ handler e r = (.moved, (postpone e r).2) ∨
    (postpone e r).1 = true ∧ ¬ ((postpone e r).2.conf r).RunsRules ∧
      handler e r = (.skipped, (postpone e r).2) ∨
    (postpone e r).1 = true ∧ ((postpone e r).2.conf r).RunsRules ∧
      ∃ h, handler e r = (.loop h, (postpone e r).2) := by
  unfold handler
  obtain ⟨past, e'⟩ := postpone e r
  cases past with
  | false => exact Or.inl ⟨rfl, rfl⟩
  | true =>
    right
    dsimp only
    rw [runsRules_iff]
    cases hconf : (e'.conf r).headersIn with
    | none => exact Or.inl ⟨rfl, by simp, rfl⟩
    | some h =>
      by_cases hold : (e'.conf r).httpVersion < 1000
      · exact Or.inl ⟨rfl, by simp [hold], by simp [hold]⟩
      · exact Or.inr ⟨rfl, by simpa using hold, h, by simp [hold]⟩

theorem Inv.leave (hi : Inv ours start stop p ph e) :
    Inv ours start stop p ph (setProgress e r .outside) :=
  hi.update (r := r) rfl rfl (fun r' hr' => by simp [setProgress, hr'])
    (fun hh => by simp [setProgress] at hh) (fun h hh => by simp [setProgress] at hh)
    (fun hh => by simp [setProgress] at hh)

theorem Inv.other (hi : Inv ours start stop p ph e) (hk : AtIndex stop p e r start k)
    (hpost : e.postponed = true ∨ k < p) (hlt : k + 1 < stop) :
    Inv ours start stop p ph (declined stop e r [(e.handlers k).handler]) := by
  have hprogress : (declined stop e r [(e.handlers k).handler]).progress r = .running := by
    have hlt' : (k : ℤ) + 1 < stop := by exact_mod_cast hlt
    simp [declined, hk.phaseHandler, hlt']
  refine hi.update (r := r) rfl rfl (fun r' hr => by simp [declined, hr]) (fun _ => ?_)
    (fun h hr => ?_) (fun hr => ?_)
  · refine ⟨k + 1, by simp [declined, hk.phaseHandler], ?_, hlt, fun hf => ?_, ?_⟩
    · exact hk.start_le.trans (Nat.le_succ k)
    · have hf' : e.postponed = false := hf
      exact hpost.resolve_left (by simp [hf'])
    · simp [declined, names_succ hk.start_le, hk.log]
  · rw [hprogress] at hr
    cases hr
  · rw [hprogress] at hr
    cases hr

theorem Inv.last (hi : Inv ours start stop p ph e) (hk : AtIndex stop p e r start (stop - 1))
    (hpost : e.postponed = true) :
    Inv ours start stop p ph
      (declined stop e r (if (e.conf r).RunsRules then [ours] else [])) := by
  have hstop := hk.lt_stop
  have hthrough : ¬ ((stop - 1 : ℕ) : ℤ) + 1 < stop := by omega
  have hprogress : (declined stop e r (if (e.conf r).RunsRules then [ours] else [])).progress r =
      .through := by simp [declined, hk.phaseHandler, hthrough]
  have hh : e.handlers = rotated stop p ph := by simpa [hpost] using hi.handlers
  refine hi.update (r := r) rfl rfl (fun r' hr => by simp [declined, hr]) (fun hr => ?_)
    (fun h hr => ?_) (fun _ => by simp [declined, hk.log, hh])
  · rw [hprogress] at hr
    cases hr
  · rw [hprogress] at hr
    cases hr

/-- Behind the move the handler finds itself last, and runs its rule loop or not. -/
theorem handler_last (hb : Built ours start stop p ph) (hi : Inv ours start stop p ph e)
    (hk : AtIndex stop p e r start k) (ho : (current e r).handler = ours)
    (h : (handler e r).1 ≠ .moved) :
    (handler e r).2 = { e with postponed := true, handlers := rotated stop p ph } ∧
      k = stop - 1 ∧ ((handler e r).1 = .skipped ↔ ¬ (e.conf r).RunsRules) := by
  rcases handler_cases e r with ⟨-, he⟩ | ⟨hpast, hno, he⟩ | ⟨hpast, hruns, x, he⟩
  · rw [he] at h
    exact absurd rfl h
  · obtain ⟨hpost, hlast⟩ := postpone_last hb hi hk ho hpast
    rw [hpost] at hno
    rw [he]
    exact ⟨hpost, hlast, iff_of_true rfl hno⟩
  · obtain ⟨hpost, hlast⟩ := postpone_last hb hi hk ho hpast
    rw [hpost] at hruns
    rw [he]
    exact ⟨hpost, hlast, iff_of_false (by simp) (not_not_intro hruns)⟩

theorem Inv.behind (hi : Inv ours start stop p ph e) (hb : Built ours start stop p ph)
    (hk : AtIndex stop p e r start k) (ho : (current e r).handler = ours)
    (h : (handler e r).1 ≠ .moved) :
    Inv ours start stop p ph
      (declined stop (handler e r).2 r (if (e.conf r).RunsRules then [ours] else [])) := by
  obtain ⟨hpost, rfl, -⟩ := handler_last hb hi hk ho h
  have hat : AtIndex stop p { e with postponed := true, handlers := rotated stop p ph } r start
      (stop - 1) := hk.rotate hb hi
  rw [hpost]
  exact (hi.rotate hb).last hat rfl

theorem inv_step (hb : Built ours start stop p ph) (hi : Inv ours start stop p ph e)
    (hs : Step ours start stop e e') : Inv ours start stop p ph e' := by
  cases hs with
  | @enter r c hr =>
    refine hi.update (r := r) rfl rfl (fun r' hr' => by simp [hr'])
      (fun _ => ⟨start, by simp, le_rfl, ?_, fun _ => hb.start_le, by simp [names]⟩)
      (fun h hh => by simp at hh) (fun hh => by simp at hh)
    exact hb.start_le.trans_lt hb.lt_stop
  | @other r hr ho =>
    obtain ⟨k, hk⟩ := hi.running r hr
    rw [hk.current] at ho ⊢
    have hlt := hk.lt_stop
    cases hf : e.postponed with
    | true =>
      have hh : e.handlers = rotated stop p ph := by simpa [hf] using hi.handlers
      rw [hh, ne_eq, rotated_ours hb hk.start_le hlt] at ho
      exact hi.other hk (Or.inl hf) (by omega)
    | false =>
      have hh : e.handlers = ph := by simpa [hf] using hi.handlers
      rw [hh, ne_eq, hb.ours k hk.start_le hlt] at ho
      have hle := hk.before hf
      have hp := hb.lt_stop
      exact hi.other hk (Or.inr (by omega)) (by omega)
  | @suspend r hr ho =>
    obtain ⟨k, hk⟩ := hi.running r hr
    rw [hk.current] at ho ⊢
    refine hi.update (r := r) rfl rfl (fun r' hr' => by simp [setProgress, hr'])
      (fun hh => by simp [setProgress] at hh) (fun h hh => ?_)
      (fun hh => by simp [setProgress] at hh)
    obtain rfl : (e.handlers k).handler = h := by simpa [setProgress] using hh
    exact ⟨k, hk.of_eq rfl rfl rfl rfl, rfl, ho⟩
  | @resume r h hr =>
    obtain ⟨k, hk, -⟩ := hi.suspended r h hr
    exact hi.update (r := r) rfl rfl (fun r' hr' => by simp [setProgress, hr'])
      (fun _ => ⟨k, hk.of_eq rfl rfl rfl rfl⟩) (fun h hh => by simp [setProgress] at hh)
      (fun hh => by simp [setProgress] at hh)
  | @leave r hr => exact hi.leave
  | @moved r hr ho hret =>
    obtain ⟨k, hk⟩ := hi.running r hr
    have hmove : (handler e r).2 =
        { e with
          postponed := true
          handlers := rotated stop p ph
          phaseHandler := Function.update e.phaseHandler r (k - 1) } := by
      rcases handler_cases e r with ⟨hpast, he⟩ | ⟨-, -, he⟩ | ⟨-, -, x, he⟩
      · rw [he]
        exact postpone_moved hb hi hk ho hpast
      · cases (congrArg Prod.fst he).symm.trans hret
      · cases (congrArg Prod.fst he).symm.trans hret
    have hprogress : (declined stop (handler e r).2 r []).progress r = .running := by
      have := hk.lt_stop
      simp [declined, hmove, this]
    refine (hi.rotate hb).update (r := r) (by rw [hmove]; rfl) (by rw [hmove]; rfl)
      (fun r' hr' => by simp [hmove, declined, hr'])
      (fun _ => ⟨k, (hk.rotate hb hi).of_eq ?_ ?_ ?_ ?_⟩)
      (fun h hh => ?_) (fun hh => ?_)
    · rw [hmove]; rfl
    · rw [hmove]; rfl
    · simp [declined, hmove, hk.phaseHandler]
    · simp [declined, hmove]
    · rw [hprogress] at hh
      cases hh
    · rw [hprogress] at hh
      cases hh
  | @skipped r hr ho hret =>
    obtain ⟨k, hk⟩ := hi.running r hr
    have hbehind : (handler e r).1 ≠ .moved := by simp [hret]
    obtain ⟨-, -, hskip⟩ := handler_last hb hi hk ho hbehind
    have hlast := hi.behind hb hk ho hbehind
    rwa [if_neg (hskip.mp hret)] at hlast
  | @rules r x hr ho hret =>
    obtain ⟨k, hk⟩ := hi.running r hr
    have hbehind : (handler e r).1 ≠ .moved := by simp [hret]
    obtain ⟨-, -, hskip⟩ := handler_last hb hi hk ho hbehind
    have hruns : (e.conf r).RunsRules := by
      by_contra hno
      cases hret.symm.trans (hskip.mpr hno)
    have hlast := hi.behind hb hk ho hbehind
    rwa [if_pos hruns] at hlast
  | @rulesFailed r x hr ho hret =>
    obtain ⟨k, hk⟩ := hi.running r hr
    rw [(handler_last hb hi hk ho (by simp [hret])).1]
    exact (hi.rotate hb).leave

omit [DecidableEq ι] in
theorem inv_initial : Inv ours start stop p ph (initial ph : Engine ι θ α) where
  handlers := rfl
  running := fun _ h => by cases h
  suspended := fun _ _ h => by cases h
  through := fun _ h => by cases h

theorem inv_of_run (hb : Built ours start stop p ph)
    (h : Relation.ReflTransGen (Step ours start stop) (initial ph) e) :
    Inv ours start stop p ph e := by
  induction h with
  | refl => exact inv_initial
  | tail _ hs ih => exact inv_step hb ih hs

/--
However the steps of any number of requests interleave, a request that is through the phase has
run every other handler once and in the original order. Then it has run the rule loop once if its
location has rules and its version is not below 1.0, and else has not run it. A suspended request
stays at the handler that suspended it, requests in the phase stay inside it, and entries outside
the phase are those that nginx built.
-/
theorem postponed_move_safe (hb : Built ours start stop p ph)
    (h : Relation.ReflTransGen (Step ours start stop) (initial ph) e) :
    (∀ r, e.progress r = .through →
      e.log r = names ph start p ++ names ph (p + 1) stop ++
        if (e.conf r).RunsRules then [ours] else []) ∧
    (∀ r h, e.progress r = .suspended h → (current e r).handler = h) ∧
    (∀ r, e.progress r = .running → start ≤ e.phaseHandler r ∧ e.phaseHandler r < stop ∧
      (current e r).checker = .rewrite ∧ (current e r).next = stop) ∧
    ∀ k, k < start ∨ stop ≤ k → e.handlers k = ph k := by
  have hi := inv_of_run hb h
  have hout : ∀ k, k < start ∨ stop ≤ k → e.handlers k = ph k := by
    intro k hk
    rw [hi.handlers]
    split
    · exact rotated_of_outside hb hk
    · rfl
  refine ⟨fun r hr => ?_, fun r h hr => ?_, fun r hr => ?_, hout⟩
  · rw [hi.through r hr, names_rotated hb]
  · obtain ⟨k, hk, hn, -⟩ := hi.suspended r h hr
    rw [hk.current, hn]
  · obtain ⟨k, hk⟩ := hi.running r hr
    obtain ⟨j, hj, hj', he⟩ : ∃ j, start ≤ j ∧ j < stop ∧ e.handlers k = ph j := by
      rw [hi.handlers]
      split
      · exact rotated_mem hb hk.start_le hk.lt_stop
      · exact ⟨k, hk.start_le, hk.lt_stop, rfl⟩
    rw [hk.current, hk.phaseHandler, he]
    exact ⟨by exact_mod_cast hk.start_le, by exact_mod_cast hk.lt_stop, hb.checker j hj hj',
      hb.next j hj hj'⟩

end

def sampleArray (k : ℕ) : PhaseHandler ℕ := ⟨if 1 ≤ k ∧ k < 4 then .rewrite else .other k, k, 4⟩

theorem sampleArray_built : Built 1 1 4 1 sampleArray := by
  refine ⟨by decide, by decide, fun k h h' => ?_, fun k _ _ => rfl, fun k _ _ => Iff.rfl⟩
  simp [sampleArray, h, h']

/-- The request that moves the handler of the sample phase runs it last. -/
theorem postponed_move_safe_sample : ∃ e : Engine Unit ℕ Unit,
    Relation.ReflTransGen (Step 1 1 4) (initial sampleArray) e ∧ e.progress () = .through ∧
      e.log () = [2, 3, 1] := by
  have hrun : ∃ e : Engine Unit ℕ Unit,
      Relation.ReflTransGen (Step 1 1 4) (initial sampleArray) e ∧ e.progress () = .through ∧
        (e.conf ()).RunsRules :=
    ⟨_, (((((Relation.ReflTransGen.refl.tail
      (.enter (r := ()) (c := ⟨some (), 1001⟩) (Or.inl rfl))).tail
      (.moved (r := ()) rfl rfl rfl)).tail (.other (r := ()) rfl (by decide))).tail
      (.other (r := ()) rfl (by decide))).tail (.rules (r := ()) (h := ()) rfl rfl rfl)), rfl,
      by decide⟩
  obtain ⟨e, hr, ht, hc⟩ := hrun
  refine ⟨e, hr, ht, ?_⟩
  rw [(postponed_move_safe sampleArray_built hr).1 () ht, if_pos hc]
  rfl

/-- A request of HTTP 0.9 gets through the phase without the rule loop. -/
theorem postponed_move_safe_skipped : ∃ e : Engine Unit ℕ Unit,
    Built 1 1 4 1 sampleArray ∧
    Relation.ReflTransGen (Step 1 1 4) (initial sampleArray) e ∧ e.progress () = .through ∧
      e.conf () = ⟨some (), 9⟩ ∧ e.log () = [2, 3] :=
  ⟨_, sampleArray_built, (((((Relation.ReflTransGen.refl.tail
    (.enter (r := ()) (c := ⟨some (), 9⟩) (Or.inl rfl))).tail
    (.moved (r := ()) rfl rfl rfl)).tail (.other (r := ()) rfl (by decide))).tail
    (.other (r := ()) rfl (by decide))).tail (.skipped (r := ()) rfl rfl rfl)), rfl, rfl, rfl⟩

end HeadersControl.Phase
