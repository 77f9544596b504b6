import Mathlib.Data.List.Basic

/-! # Arrays of entries

Before version 1.23 nginx keeps the entries of a multi-valued header in an array of
pointers. The two sides of the module fill such an array in different ways.
-/

namespace HeadersControl

/--
An `ngx_array_t` of pointers, null before it is initialised. A place that has been pushed and not
been assigned is `none`, and `fails` tells which allocations for the array fail.
-/
structure PtrArray where
  elts : Option (List (Option ℕ))
  nalloc : ℕ
  fails : ℕ → Bool
  tick : ℕ

namespace PtrArray

/-- `ngx_array_init` for two elements. -/
def init (pa : PtrArray) : Bool × PtrArray :=
  if pa.fails pa.tick then (false, { pa with tick := pa.tick + 1 })
  else (true, { pa with elts := some [], nalloc := 2, tick := pa.tick + 1 })

/-- `ngx_array_push`, which doubles the array when it is full. -/
def push (pa : PtrArray) : Bool × PtrArray :=
  let elts := pa.elts.getD []
  if elts.length < pa.nalloc then (true, { pa with elts := some (elts ++ [none]) })
  else if pa.fails pa.tick then (false, { pa with tick := pa.tick + 1 })
  else (true,
    { pa with elts := some (elts ++ [none]), nalloc := 2 * pa.nalloc, tick := pa.tick + 1 })

def assignLast (pa : PtrArray) (h : ℕ) : PtrArray :=
  { pa with elts := pa.elts.map fun elts => elts.dropLast ++ [some h] }

/-- `ngx_array_init` for an array that is in use, which is null where there is no memory. -/
def renew (pa : PtrArray) : Bool × PtrArray :=
  if pa.fails pa.tick then (false, { pa with elts := none, nalloc := 2, tick := pa.tick + 1 })
  else pa.init

/-- The array is emptied where it has elements, and set up where it is new. -/
def reset (pa : PtrArray) : Bool × PtrArray :=
  match if pa.elts.getD [] ≠ [] then pa.renew else (true, pa) with
  | (false, pa) => (false, pa)
  | (true, pa) => if pa.nalloc = 0 then pa.renew else (true, pa)

/-- `ngx_array_push`, which counts a place also where it returns the address of none. -/
def pushPlace (pa : PtrArray) : Bool × PtrArray :=
  if pa.elts.isNone ∧ 0 < pa.nalloc then (false, pa.push.2) else pa.push

/-- The array lists these entries, and memory for it does not run out. -/
structure Lists (pa : PtrArray) (hs : List ℕ) : Prop where
  elts : pa.elts.getD [] = hs.map some
  fresh : pa.elts = none → pa.nalloc = 0
  ample : ∀ n, pa.fails n = false

variable {pa : PtrArray} {hs : List ℕ}

theorem init_spec (hmem : ∀ n, pa.fails n = false) :
    ∃ pa', (if pa.elts.isNone then pa.init else (true, pa)) = (true, pa') ∧
      pa'.elts = some (pa.elts.getD []) ∧ pa'.fails = pa.fails := by
  cases he : pa.elts with
  | none =>
    simp only [Option.isNone_none, if_true, init, hmem, Bool.false_eq_true, if_false]
    exact ⟨_, rfl, rfl, rfl⟩
  | some elts => exact ⟨pa, rfl, he, rfl⟩

theorem push_spec (hmem : ∀ n, pa.fails n = false) :
    ∃ pa', pa.push = (true, pa') ∧ pa'.elts = some (pa.elts.getD [] ++ [none]) ∧
      pa'.fails = pa.fails := by
  unfold push
  dsimp only
  split_ifs with hroom hfail
  · exact ⟨_, rfl, rfl, rfl⟩
  · rw [hmem] at hfail
    cases hfail
  · exact ⟨_, rfl, rfl, rfl⟩

theorem renew_spec (hmem : ∀ n, pa.fails n = false) : ∃ pa', pa.renew = (true, pa') ∧
    pa'.elts = some [] ∧ pa'.nalloc = 2 ∧ pa'.fails = pa.fails := by
  simp only [renew, init, hmem, Bool.false_eq_true, if_false]
  exact ⟨_, rfl, rfl, rfl, rfl⟩

theorem reset_spec (hl : pa.Lists hs) :
    ∃ pa', pa.reset = (true, pa') ∧ pa'.elts = some [] ∧ pa'.Lists [] := by
  have hdone : ∀ {pa' : PtrArray}, pa'.elts = some [] → pa'.fails = pa.fails →
      pa'.Lists [] := by
    intro pa' he hf
    refine ⟨by simp [he], fun hnone => ?_, fun n => by rw [hf, hl.ample]⟩
    cases he.symm.trans hnone
  obtain ⟨pa₁, hnew, helts, hnalloc, hfails⟩ := renew_spec hl.ample
  unfold reset
  split_ifs with hne
  · rw [hnew]
    dsimp only
    rw [if_neg (by simp [hnalloc])]
    exact ⟨pa₁, rfl, helts, hdone helts hfails⟩
  · dsimp only
    split_ifs with hzero
    · exact ⟨pa₁, hnew, helts, hdone helts hfails⟩
    · have hempty : pa.elts = some [] := by
        cases he : pa.elts with
        | none => exact absurd (hl.fresh he) hzero
        | some elts =>
          rw [he, Option.getD_some, not_not] at hne
          rw [hne]
      exact ⟨pa, rfl, hempty, hdone hempty rfl⟩

theorem pushPlace_spec (he : pa.elts = some []) (hl : pa.Lists []) :
    ∃ pa', pa.pushPlace = (true, pa') ∧ ∀ h, (pa'.assignLast h).Lists [h] := by
  obtain ⟨pa', hpush, helts, hfails⟩ := push_spec hl.ample
  rw [he] at helts
  refine ⟨pa', ?_, fun h => ⟨?_, ?_, ?_⟩⟩
  · rw [pushPlace, if_neg (by simp [he]), hpush]
  · simp [assignLast, helts]
  · simp [assignLast, helts]
  · intro n
    exact (congrFun hfails n).trans (hl.ample n)

end PtrArray

end HeadersControl
