import HeadersControl.Rules.Execution
import HeadersControl.Runs.Reordered

/-! # Rules that do not read what they write

Where neither the condition nor the value of a rule depends on the state, what acts
in a pass is settled before it starts. Rules of different names may then change
places: each of them finds the same names locked.
-/

namespace HeadersControl

open Segments Runs

variable {η ο σ : Type}

inductive Verdict | stops | skips | passes | acts (value : Str)
  deriving DecidableEq

def HeaderVal.verdict (cv : ComplexValue → σ → Option Str) (h : HeaderVal η ο) (s : σ) : Verdict :=
  match condition cv h s with
  | none => .stops
  | some false => .skips
  | some true =>
      if h.opcode = .pass then .passes
      else match complexValue cv h.value s with
        | none => .stops
        | some value => .acts value.dropLast

/-- Whether a rule locks its name at its turn, and the value that it acts with. -/
def HeaderVal.turn (h : HeaderVal η ο) (v : Verdict) (names : List (ℕ × Str)) :
    Option (Bool × Option Str) :=
  if !h.wildcard && names.contains (nameKey h.key) then some (false, none)
  else match v with
    | .stops => none
    | .skips => some (false, none)
    | .passes => some (true, none)
    | .acts value => some (true, some value)

/-- The names that are locked behind a turn. -/
def HeaderVal.leave (h : HeaderVal η ο) (ran : Bool) (names : List (ℕ × Str)) :
    List (ℕ × Str) :=
  if ran then h.lock names else names

def plan (verdict : HeaderVal η ο → Verdict) : List (HeaderVal η ο) → List (ℕ × Str) →
    Option (List (HeaderVal η ο × Str))
  | [], _ => some []
  | h :: hs, names =>
      match h.turn (verdict h) names with
      | none => none
      | some (ran, value) => (plan verdict hs (h.leave ran names)).map
          (value.toList.map (h, ·) ++ ·)

section Order

variable {verdict : HeaderVal η ο → Verdict} {h a b : HeaderVal η ο} {v : Verdict}
  {hs hs' : List (HeaderVal η ο)} {names names' : List (ℕ × Str)}
  {log : List (HeaderVal η ο × Str)} {key : ℕ × Str}

theorem mem_leave {ran : Bool} : key ∈ h.leave ran names ↔
    ran = true ∧ h.locks = true ∧ key = nameKey h.key ∨ key ∈ names := by
  unfold HeaderVal.leave HeaderVal.lock
  cases ran with
  | false => simp
  | true => cases h.locks <;> simp

theorem turn_congr (hn : h.wildcard = false → (nameKey h.key ∈ names ↔ nameKey h.key ∈ names')) :
    h.turn v names = h.turn v names' := by
  unfold HeaderVal.turn
  cases hw : h.wildcard with
  | true => simp
  | false => simp [hn hw]

theorem plan_congr (hn : ∀ key, key ∈ names ↔ key ∈ names') :
    plan verdict hs names = plan verdict hs names' := by
  induction hs generalizing names names' with
  | nil => rfl
  | cons h hs ih =>
    simp only [plan, turn_congr fun _ => hn (nameKey h.key)]
    cases h.turn (verdict h) names' with
    | none => rfl
    | some p =>
      obtain ⟨ran, value⟩ := p
      have hrest : plan verdict hs (h.leave ran names) = plan verdict hs (h.leave ran names') := by
        apply ih
        intro key
        rw [mem_leave, mem_leave, hn]
      simp only [hrest]

theorem plan_cons : plan verdict (h :: hs) names = some log ↔ ∃ ran value log',
    h.turn (verdict h) names = some (ran, value) ∧
      plan verdict hs (h.leave ran names) = some log' ∧
      log = value.toList.map (h, ·) ++ log' := by
  rw [plan]
  constructor
  · intro hp
    cases ht : h.turn (verdict h) names with
    | none => simp [ht] at hp
    | some p =>
      obtain ⟨ran, value⟩ := p
      rw [ht] at hp
      obtain ⟨log', hlog, rfl⟩ := Option.map_eq_some_iff.mp hp
      exact ⟨ran, value, log', rfl, hlog, rfl⟩
  · rintro ⟨ran, value, log', ht, hlog, rfl⟩
    rw [ht]
    exact Option.map_eq_some_iff.mpr ⟨log', hlog, rfl⟩

/-- Rules that no name matches both of. -/
def HeaderVal.Independent (h h' : HeaderVal η ο) : Prop :=
  ∀ name, h.matchesName name = false ∨ h'.matchesName name = false

theorem HeaderVal.Independent.symm (hi : a.Independent b) : b.Independent a :=
  fun name => (hi name).symm

theorem HeaderVal.Independent.mem_leave_iff (hi : a.Independent b) (hw : b.wildcard = false)
    (ran : Bool) : nameKey b.key ∈ a.leave ran names ↔ nameKey b.key ∈ names := by
  have hne : a.locks = true → nameKey b.key ≠ nameKey a.key := by
    intro hl hkey
    have hwa : a.wildcard = false := by
      simp only [HeaderVal.locks, Bool.and_eq_true, Bool.not_eq_true'] at hl
      exact hl.1
    rcases hi a.key with hm | hm
    · rw [matchesName_exact hwa, sameName_refl] at hm
      cases hm
    · rw [matchesName_exact hw, sameName_iff.mpr hkey.symm] at hm
      cases hm
  rw [mem_leave]
  constructor
  · rintro (⟨-, hl, hkey⟩ | hm)
    · exact absurd hkey (hne hl)
    · exact hm
  · exact Or.inr

theorem plan_swap (hi : a.Independent b) (hp : plan verdict (a :: b :: hs) names = some log) :
    ∃ log', plan verdict (b :: a :: hs) names = some log' ∧
      Reordered (fun x y => x.1.Independent y.1) log log' := by
  obtain ⟨ran, value, rest, hta, hrest, rfl⟩ := plan_cons.mp hp
  obtain ⟨ran', value', log', htb, hlog, rfl⟩ := plan_cons.mp hrest
  rw [turn_congr fun hw => hi.mem_leave_iff hw ran] at htb
  have hta' : a.turn (verdict a) (b.leave ran' names) = some (ran, value) := by
    rwa [turn_congr fun hw => hi.symm.mem_leave_iff hw ran']
  have hlog' : plan verdict hs (a.leave ran (b.leave ran' names)) = some log' := by
    rw [← hlog]
    apply plan_congr
    intro key
    simp only [mem_leave]
    exact or_left_comm
  refine ⟨_, plan_cons.mpr ⟨ran', value', _, htb, plan_cons.mpr ⟨ran, value, log', hta', hlog', rfl⟩,
    rfl⟩, ?_⟩
  cases value with
  | none => exact .refl _
  | some x =>
    cases value' with
    | none => exact .refl _
    | some y => exact .swap log' hi

/-- A plan survives reordering, and its log is reordered. -/
theorem plan_reordered (hr : Reordered HeaderVal.Independent hs hs')
    (hp : plan verdict hs names = some log) :
    ∃ log', plan verdict hs' names = some log' ∧
      Reordered (fun x y => x.1.Independent y.1) log log' := by
  induction hr generalizing names log with
  | nil => exact ⟨log, hp, .refl _⟩
  | cons h _ ih =>
    obtain ⟨ran, value, rest, ht, hrest, rfl⟩ := plan_cons.mp hp
    obtain ⟨rest', hrest', hlog⟩ := ih hrest
    refine ⟨_, plan_cons.mpr ⟨ran, value, rest', ht, hrest', rfl⟩, ?_⟩
    cases value with
    | none => exact hlog
    | some x => exact .cons (h, x) hlog
  | swap hs hi => exact plan_swap hi hp
  | trans _ _ ih ih' =>
    obtain ⟨log₁, hp₁, hlog₁⟩ := ih hp
    obtain ⟨log₂, hp₂, hlog₂⟩ := ih' hp₁
    exact ⟨log₂, hp₂, hlog₁.trans hlog₂⟩

end Order

section Runs

variable {cv : ComplexValue → σ → Option Str}
  {handle : HeaderVal η ο → Str → σ → Except Fault (Rc × σ)} {verdict : HeaderVal η ο → Verdict}
  {h : HeaderVal η ο} {hs : List (HeaderVal η ο)} {names names' : List (ℕ × Str)}
  {log : List (HeaderVal η ο × Str)} {s s' : σ}

def HeaderVal.Settled (cv : ComplexValue → σ → Option Str) (verdict : HeaderVal η ο → Verdict)
    (h : HeaderVal η ο) : Prop :=
  ∀ s, h.verdict cv s = verdict h

theorem turn_of_locked (hl : h.Locked names) (v : Verdict) :
    h.turn v names = some (false, none) :=
  if_pos (by simpa [HeaderVal.Locked] using hl)

theorem turn_of_free (hl : ¬ h.Locked names) (v : Verdict) :
    h.turn v names = match v with
      | .stops => none
      | .skips => some (false, none)
      | .passes => some (true, none)
      | .acts value => some (true, some value) :=
  if_neg (by simpa [HeaderVal.Locked] using hl)

theorem Pass.plan (hp : Pass cv handle names hs s log names' s')
    (hall : ∀ h ∈ hs, h.Settled cv verdict) : plan verdict hs names = some log := by
  induction hp with
  | nil => rfl
  | locked hl _ ih =>
    have hrest := ih fun x hx => hall x (List.mem_cons_of_mem _ hx)
    exact plan_cons.mpr ⟨false, none, _, turn_of_locked hl _, hrest, rfl⟩
  | @skipped h _ _ _ _ s _ hl hc _ ih =>
    have hv : verdict h = .skips := by
      rw [← hall h List.mem_cons_self s, HeaderVal.verdict, hc]
    have hrest := ih fun x hx => hall x (List.mem_cons_of_mem _ hx)
    exact plan_cons.mpr ⟨false, none, _, by rw [turn_of_free hl, hv], hrest, rfl⟩
  | @passed h _ _ _ _ s _ hl hc ho _ ih =>
    have hv : verdict h = .passes := by
      rw [← hall h List.mem_cons_self s, HeaderVal.verdict, hc]
      exact if_pos ho
    have hrest := ih fun x hx => hall x (List.mem_cons_of_mem _ hx)
    exact plan_cons.mpr ⟨true, none, _, by rw [turn_of_free hl, hv], hrest, rfl⟩
  | @acted h _ _ _ _ s _ _ value hl hc ho hval _ _ ih =>
    have hv : verdict h = .acts value.dropLast := by
      rw [← hall h List.mem_cons_self s, HeaderVal.verdict, hc]
      dsimp only
      rw [if_neg ho, hval]
    have hrest := ih fun x hx => hall x (List.mem_cons_of_mem _ hx)
    exact plan_cons.mpr ⟨true, some _, _, by rw [turn_of_free hl, hv], hrest, rfl⟩

variable (cv) in
theorem verdict_cases (h : HeaderVal η ο) (s : σ) :
    match h.verdict cv s with
    | .stops => True
    | .skips => condition cv h s = some false
    | .passes => condition cv h s = some true ∧ h.opcode = .pass
    | .acts value => condition cv h s = some true ∧ h.opcode ≠ .pass ∧
        ∃ text, complexValue cv h.value s = some text ∧ value = text.dropLast := by
  unfold HeaderVal.verdict
  cases hc : condition cv h s with
  | none => trivial
  | some holds =>
    cases holds with
    | false => exact rfl
    | true =>
      dsimp only
      by_cases ho : h.opcode = .pass
      · rw [if_pos ho]
        exact ⟨rfl, ho⟩
      · rw [if_neg ho]
        cases hv : complexValue cv h.value s with
        | none => trivial
        | some text => exact ⟨rfl, ho, text, rfl, rfl⟩

/-- A run of what the plan says is a run of the reference semantics. -/
theorem reference_of_plan (hp : HeadersControl.plan verdict hs names = some log)
    (hr : Run (Acts handle) s log s') (hall : ∀ h ∈ hs, h.Settled cv verdict) :
    reference (condition cv) (action cv handle) hs names s = .ok (.ok, s') := by
  induction hs generalizing names log s with
  | nil =>
    obtain rfl := Option.some.inj hp
    cases hr
    rfl
  | cons h hs ih =>
    obtain ⟨ran, value, rest, ht, hrest, rfl⟩ := plan_cons.mp hp
    have hall' : ∀ x ∈ hs, x.Settled cv verdict := fun x hx => hall x (List.mem_cons_of_mem _ hx)
    by_cases hl : h.Locked names
    · rw [turn_of_locked hl] at ht
      obtain ⟨rfl, rfl⟩ := Prod.mk.inj (Option.some.inj ht)
      rw [reference, if_pos (by simpa [HeaderVal.Locked] using hl)]
      exact ih hrest hr hall'
    · have hv := verdict_cases cv h s
      rw [hall h List.mem_cons_self s] at hv
      rw [turn_of_free hl] at ht
      rw [reference, if_neg (by simpa [HeaderVal.Locked] using hl)]
      cases hverdict : verdict h with
      | stops =>
        rw [hverdict] at ht
        cases ht
      | skips =>
        rw [hverdict] at ht hv
        obtain ⟨rfl, rfl⟩ := Prod.mk.inj (Option.some.inj ht)
        rw [show condition cv h s = some false from hv]
        exact ih hrest hr hall'
      | passes =>
        rw [hverdict] at ht hv
        obtain ⟨rfl, rfl⟩ := Prod.mk.inj (Option.some.inj ht)
        obtain ⟨hc, ho⟩ := hv
        have ha : action cv handle h s = .ok (.ok, s) := if_pos ho
        rw [hc]
        dsimp only
        rw [ha]
        exact ih hrest hr hall'
      | acts x =>
        rw [hverdict] at ht hv
        obtain ⟨rfl, rfl⟩ := Prod.mk.inj (Option.some.inj ht)
        obtain ⟨hc, ho, text, htext, rfl⟩ := hv
        cases hr with
        | cons hact hr =>
          have ha : action cv handle h s = handle h text.dropLast s := by
            unfold action
            rw [if_neg ho, htext]
          rw [hc]
          dsimp only
          rw [ha, show handle h text.dropLast s = _ from hact]
          exact ih hrest hr hall'

end Runs

end HeadersControl
