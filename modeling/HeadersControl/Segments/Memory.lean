import Mathlib.Data.List.Basic
import Mathlib.Data.List.Range
import Mathlib.Logic.Function.Basic

/-! # Memory of segmented lists

A segmented list keeps its elements in parts: blocks of consecutive slots that
are linked by pointers. The first part descriptor is embedded in the list
header, the others are allocations of their own, so that copying a header
duplicates its first part and shares the rest. Slots are addresses in one flat
memory; the pool records which blocks of it are allocated, and whether an
allocation fails.
-/

namespace Segments

/-- Ways in which code over such lists leaves defined behaviour or never returns. -/
inductive Fault | endless | null | unset | overrun | assertion
  deriving DecidableEq, Repr

/-- A part descriptor is embedded in the header of a list or has its own allocation. -/
inductive PartPtr (ρ : Type*) where
  | inline (l : ρ)
  | node (n : ℕ)
  deriving DecidableEq, Repr

structure ListPart (ρ : Type*) where
  elts : ℕ
  nelts : ℕ
  next : Option (PartPtr ρ)
  deriving Repr

structure Header (ρ : Type*) where
  last : Option (PartPtr ρ)
  part : ListPart ρ
  nalloc : ℕ
  deriving Repr

/-- Allocated blocks as (first slot, number of slots), all below the break. -/
structure Pool where
  blocks : List (ℕ × ℕ)
  brk : ℕ
  nodes : ℕ
  fails : ℕ → Bool
  tick : ℕ
  below : ∀ b ∈ blocks, b.1 + b.2 ≤ brk

/-- All headers, part descriptors and the pool; the contents of slots live elsewhere. -/
structure Shape (ρ : Type*) where
  header : ρ → Header ρ
  node : ℕ → ListPart ρ
  pool : Pool

namespace Pool

def Reliable (p : Pool) : Prop := ∀ n, p.fails n = false

def Inside (p : Pool) (a n : ℕ) : Prop := ∃ b ∈ p.blocks, b.1 ≤ a ∧ a + n ≤ b.1 + b.2

def spend (p : Pool) : Pool := { p with tick := p.tick + 1 }

def allocNode (p : Pool) : Option ℕ × Pool :=
  if p.fails p.tick then (none, p.spend)
  else (some p.nodes, { p.spend with nodes := p.nodes + 1 })

def allocSlots (p : Pool) (n : ℕ) : Option ℕ × Pool :=
  if p.fails p.tick then (none, p.spend)
  else (some p.brk,
    { p.spend with
      blocks := (p.brk, n) :: p.blocks
      brk := p.brk + n
      below := by
        intro b hb
        rcases List.mem_cons.mp hb with rfl | hb
        · exact le_rfl
        · exact Nat.le_add_right_of_le (p.below b hb) })

def allocBytes (p : Pool) : Bool × Pool := (!p.fails p.tick, p.spend)

structure Grows (p q : Pool) : Prop where
  blocks : ∀ b ∈ p.blocks, b ∈ q.blocks
  brk : p.brk ≤ q.brk
  nodes : p.nodes ≤ q.nodes
  fails : q.fails = p.fails

theorem Grows.refl (p : Pool) : p.Grows p := ⟨fun _ h => h, le_rfl, le_rfl, rfl⟩

theorem Grows.trans {p q r : Pool} (h : p.Grows q) (h' : q.Grows r) : p.Grows r :=
  ⟨fun b hb => h'.blocks b (h.blocks b hb), h.brk.trans h'.brk, h.nodes.trans h'.nodes,
    h'.fails.trans h.fails⟩

theorem Grows.inside {p q : Pool} (h : p.Grows q) {a n : ℕ} (hi : p.Inside a n) :
    q.Inside a n := by
  obtain ⟨b, hb, hlo, hhi⟩ := hi
  exact ⟨b, h.blocks b hb, hlo, hhi⟩

theorem Grows.reliable {p q : Pool} (h : p.Grows q) : q.Reliable ↔ p.Reliable := by
  simp [Reliable, h.fails]

theorem Inside.mono {p : Pool} {a n a' n' : ℕ} (h : p.Inside a n) (hlo : a ≤ a')
    (hhi : a' + n' ≤ a + n) : p.Inside a' n' := by
  obtain ⟨b, hb, h₁, h₂⟩ := h
  exact ⟨b, hb, h₁.trans hlo, hhi.trans h₂⟩

theorem Inside.le_brk {p : Pool} {a n : ℕ} (h : p.Inside a n) : a + n ≤ p.brk := by
  obtain ⟨b, hb, _, h₂⟩ := h
  exact h₂.trans (p.below b hb)

theorem spend_grows (p : Pool) : p.Grows p.spend := ⟨fun _ h => h, le_rfl, le_rfl, rfl⟩

theorem allocNode_grows (p : Pool) : p.Grows p.allocNode.2 := by
  unfold allocNode
  split
  · exact p.spend_grows
  · exact ⟨fun _ h => h, le_rfl, Nat.le_succ _, rfl⟩

theorem allocSlots_grows (p : Pool) (n : ℕ) : p.Grows (p.allocSlots n).2 := by
  unfold allocSlots
  split
  · exact p.spend_grows
  · exact ⟨fun _ h => List.mem_cons_of_mem _ h, Nat.le_add_right _ _, le_rfl, rfl⟩

theorem allocBytes_grows (p : Pool) : p.Grows p.allocBytes.2 := p.spend_grows

theorem allocNode_eq_some {p q : Pool} {n : ℕ} (h : p.allocNode = (some n, q)) :
    n = p.nodes ∧ q.nodes = p.nodes + 1 ∧ q.brk = p.brk := by
  unfold allocNode at h
  split at h
  · simp at h
  · simp only [Prod.mk.injEq, Option.some.injEq] at h
    exact ⟨h.1.symm, h.2 ▸ rfl, h.2 ▸ rfl⟩

theorem allocNode_eq_none {p q : Pool} (h : p.allocNode = (none, q)) : ¬ p.Reliable := by
  unfold allocNode at h
  split at h
  · rename_i hf
    exact fun hr => by simp [hr p.tick] at hf
  · simp at h

theorem allocSlots_eq_some {p q : Pool} {n a : ℕ} (h : p.allocSlots n = (some a, q)) :
    a = p.brk ∧ q.Inside a n := by
  unfold allocSlots at h
  split at h
  · simp at h
  · simp only [Prod.mk.injEq, Option.some.injEq] at h
    obtain ⟨rfl, rfl⟩ := h
    exact ⟨rfl, (p.brk, n), List.mem_cons_self, le_rfl, le_rfl⟩

theorem allocSlots_eq_none {p q : Pool} {n : ℕ} (h : p.allocSlots n = (none, q)) :
    ¬ p.Reliable := by
  unfold allocSlots at h
  split at h
  · rename_i hf
    exact fun hr => by simp [hr p.tick] at hf
  · simp at h

end Pool

namespace Shape

variable {ρ : Type*} [DecidableEq ρ]

def part (sh : Shape ρ) : PartPtr ρ → ListPart ρ
  | .inline l => (sh.header l).part
  | .node n => sh.node n

def setPart (sh : Shape ρ) (p : PartPtr ρ) (v : ListPart ρ) : Shape ρ :=
  match p with
  | .inline l => { sh with header := Function.update sh.header l { sh.header l with part := v } }
  | .node n => { sh with node := Function.update sh.node n v }

def setLast (sh : Shape ρ) (l : ρ) (p : Option (PartPtr ρ)) : Shape ρ :=
  { sh with header := Function.update sh.header l { sh.header l with last := p } }

def setNalloc (sh : Shape ρ) (l : ρ) (n : ℕ) : Shape ρ :=
  { sh with header := Function.update sh.header l { sh.header l with nalloc := n } }

def setPool (sh : Shape ρ) (q : Pool) : Shape ρ := { sh with pool := q }

variable (sh : Shape ρ) (l m : ρ) (p q : PartPtr ρ) (v : ListPart ρ)

@[simp] theorem part_setPart_self : (sh.setPart p v).part p = v := by
  cases p <;> simp [part, setPart]

theorem part_setPart_of_ne {p q : PartPtr ρ} (h : q ≠ p) :
    (sh.setPart p v).part q = sh.part q := by
  cases p <;> cases q <;> simp only [part, setPart] <;> rw [Function.update_of_ne] <;>
    simpa using h

@[simp] theorem last_setPart : ((sh.setPart p v).header l).last = (sh.header l).last := by
  cases p with
  | inline m => by_cases h : l = m <;> simp [setPart, h]
  | node n => rfl

@[simp] theorem nalloc_setPart : ((sh.setPart p v).header l).nalloc = (sh.header l).nalloc := by
  cases p with
  | inline m => by_cases h : l = m <;> simp [setPart, h]
  | node n => rfl

@[simp] theorem pool_setPart : (sh.setPart p v).pool = sh.pool := by cases p <;> rfl

@[simp] theorem part_setLast (o : Option (PartPtr ρ)) : (sh.setLast l o).part p = sh.part p := by
  cases p with
  | inline m => by_cases h : m = l <;> simp [part, setLast, h]
  | node n => rfl

@[simp] theorem last_setLast (o : Option (PartPtr ρ)) : ((sh.setLast l o).header l).last = o := by
  simp [setLast]

@[simp] theorem nalloc_setLast (o : Option (PartPtr ρ)) :
    ((sh.setLast l o).header m).nalloc = (sh.header m).nalloc := by
  by_cases h : m = l <;> simp [setLast, h]

@[simp] theorem pool_setLast (o : Option (PartPtr ρ)) : (sh.setLast l o).pool = sh.pool := rfl

@[simp] theorem part_setNalloc (n : ℕ) : (sh.setNalloc l n).part p = sh.part p := by
  cases p with
  | inline m => by_cases h : m = l <;> simp [part, setNalloc, h]
  | node n => rfl

@[simp] theorem last_setNalloc (n : ℕ) :
    ((sh.setNalloc l n).header m).last = (sh.header m).last := by
  by_cases h : m = l <;> simp [setNalloc, h]

@[simp] theorem nalloc_setNalloc (n : ℕ) : ((sh.setNalloc l n).header l).nalloc = n := by
  simp [setNalloc]

@[simp] theorem pool_setNalloc (n : ℕ) : (sh.setNalloc l n).pool = sh.pool := rfl

omit [DecidableEq ρ] in
@[simp] theorem part_setPool (r : Pool) : (sh.setPool r).part p = sh.part p := by cases p <;> rfl

omit [DecidableEq ρ] in
@[simp] theorem header_setPool (r : Pool) : (sh.setPool r).header l = sh.header l := rfl

omit [DecidableEq ρ] in
@[simp] theorem pool_setPool (r : Pool) : (sh.setPool r).pool = r := rfl

end Shape

end Segments
