import Mathlib.Data.List.Basic
import Mathlib.Logic.Function.Basic

/-! # Chains of hooks

A chain of hooks is a head pointer and, for each member, the pointer that it saved
when it took the head. A member that is called runs what it saved, or ends the
call. As long as no member takes the head twice, a call goes once through the
members, and members that hand every call on may as well be missing.
-/

namespace Hooks

variable {μ α β : Type*}

/-- The head of a chain, and the pointer that each member has saved. -/
structure Chain (μ : Type*) where
  top : μ
  saved : μ → μ

/-- From `m` the saved pointers run through the members of a list to the base. -/
def Links (saved : μ → μ) (base : μ) : List μ → μ → Prop
  | [], m => m = base
  | x :: xs, m => m = x ∧ Links saved base xs (saved x)

def Chain.Lists (c : Chain μ) (base : μ) (ms : List μ) : Prop := Links c.saved base ms c.top

def Chain.reset (c : Chain μ) (base : μ) : Chain μ := { c with top := base }

/-- A call of `m` with fuel: what a member does may run what it saved. -/
def Chain.call (c : Chain μ) (run : μ → (α → β) → α → β) (dead : α → β) : ℕ → μ → α → β
  | 0, _ => dead
  | n + 1, m => run m (c.call run dead n (c.saved m))

section

variable {saved : μ → μ} {base m : μ} {ms : List μ} {c : Chain μ} {run : μ → (α → β) → α → β}
  {dead k : α → β} {n : ℕ}

theorem lists_reset (c : Chain μ) (base : μ) : (c.reset base).Lists base [] := rfl

/-- A call that has fuel runs the members in order, and then the base. -/
theorem Links.call (hbase : ∀ k k', run base k = run base k')
    (h : Links c.saved base ms m) (hn : ms.length < n) :
    c.call run dead n m = ms.foldr run (run base dead) := by
  induction ms generalizing m n with
  | nil =>
    obtain rfl : m = base := h
    cases n with
    | zero => simp at hn
    | succ n => exact hbase _ _
  | cons x ms ih =>
    obtain ⟨rfl, h⟩ := h
    cases n with
    | zero => simp at hn
    | succ n =>
      rw [Chain.call, ih h (by simpa using hn)]
      rfl

theorem foldr_filter {p : μ → Bool} (h : ∀ x ∈ ms, p x = false → ∀ k, run x k = k) :
    (ms.filter p).foldr run k = ms.foldr run k := by
  induction ms with
  | nil => rfl
  | cons x ms ih =>
    have hrest := ih fun y hy => h y (List.mem_cons_of_mem _ hy)
    cases hp : p x with
    | true => rw [List.filter_cons_of_pos hp, List.foldr_cons, hrest, List.foldr_cons]
    | false =>
      rw [List.filter_cons_of_neg (by simp [hp]), hrest, List.foldr_cons,
        h x List.mem_cons_self hp]

theorem Links.congr {saved' : μ → μ} (h : Links saved base ms m)
    (hs : ∀ x ∈ ms, saved' x = saved x) : Links saved' base ms m := by
  induction ms generalizing m with
  | nil => exact h
  | cons x ms ih =>
    obtain ⟨rfl, h⟩ := h
    refine ⟨rfl, ?_⟩
    rw [hs m List.mem_cons_self]
    exact ih h fun y hy => hs y (List.mem_cons_of_mem _ hy)

variable [DecidableEq μ]

def Chain.push (c : Chain μ) (m : μ) : Chain μ where
  top := m
  saved := Function.update c.saved m c.top

theorem Chain.Lists.push (h : c.Lists base ms) (hm : m ∉ ms) :
    (c.push m).Lists base (m :: ms) := by
  refine ⟨rfl, ?_⟩
  have htop : (c.push m).saved m = c.top := Function.update_self ..
  rw [htop]
  apply h.congr
  intro x hx
  have hne : x ≠ m := by
    rintro rfl
    exact hm hx
  exact Function.update_of_ne hne ..

theorem Chain.Lists.pushAll {xs : List μ} (h : c.Lists base ms) (hn : (xs.reverse ++ ms).Nodup) :
    (xs.foldl Chain.push c).Lists base (xs.reverse ++ ms) := by
  induction xs generalizing c ms with
  | nil => exact h
  | cons x xs ih =>
    have hn' : (xs.reverse ++ x :: ms).Nodup := by simpa using hn
    have hx : x ∉ ms := fun hm => by
      have hrest := (List.nodup_append.mp hn').2.1
      exact (List.nodup_cons.mp hrest).1 hm
    simpa using ih (h.push hx) hn'

end

end Hooks
