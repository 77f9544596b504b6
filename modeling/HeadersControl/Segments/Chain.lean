import HeadersControl.Segments.Memory
import Mathlib.Data.List.Nodup

/-! # Well-formed segmented lists

`Chain sh l init fin` says that the parts of list `l` are `init` followed by the
final part `fin`, to which `last` points, and that their slot windows are
disjoint and allocated. Such a chain is unique and finite, so the slots in use
can be listed by a bounded walk.
-/

namespace Segments.Shape

variable {ρ : Type*}

def live (sh : Shape ρ) (p : PartPtr ρ) : List ℕ := List.range' (sh.part p).elts (sh.part p).nelts

/-- Following `next` through `ps` visits its parts in order and then reaches `q`. -/
def LinkedTo (sh : Shape ρ) : List (PartPtr ρ) → Option (PartPtr ρ) → Prop
  | [], _ => True
  | p :: ps, q => (sh.part p).next = ps.head?.or q ∧ sh.LinkedTo ps q

/-- At most `n` parts that are reached from `p`. -/
def walk (sh : Shape ρ) : ℕ → PartPtr ρ → List (PartPtr ρ)
  | 0, _ => []
  | n + 1, p => p :: match (sh.part p).next with
      | none => []
      | some q => sh.walk n q

/-- The parts of a list; a chain without repetition has at most `pool.nodes + 1`. -/
def chain (sh : Shape ρ) (l : ρ) : List (PartPtr ρ) := sh.walk (sh.pool.nodes + 1) (.inline l)

def slots (sh : Shape ρ) (l : ρ) : List ℕ := (sh.chain l).flatMap sh.live

/--
The parts of `l` are `init` and then `fin`. Only the last part may have free slots behind its
elements, and only the sole part of a list may be empty.
-/
structure Chain (sh : Shape ρ) (l : ρ) (init : List (PartPtr ρ)) (fin : PartPtr ρ) : Prop where
  head : (init ++ [fin]).head? = some (.inline l)
  linked : sh.LinkedTo init (some fin)
  ends : (sh.part fin).next = none
  allocated : ∀ p ∈ (init ++ [fin]).tail, ∃ n < sh.pool.nodes, p = .node n
  last : (sh.header l).last = some fin
  filled : ∀ p ∈ init, 1 ≤ (sh.part p).nelts
  filled_last : init = [] ∨ 1 ≤ (sh.part fin).nelts
  nalloc_pos : 1 ≤ (sh.header l).nalloc
  room : (sh.part fin).nelts ≤ (sh.header l).nalloc
  inside : ∀ p ∈ init, sh.pool.Inside (sh.part p).elts (sh.part p).nelts
  inside_last : sh.pool.Inside (sh.part fin).elts (sh.header l).nalloc
  disjoint : (init.flatMap sh.live ++
    List.range' (sh.part fin).elts (sh.header l).nalloc).Nodup

/-- `last` is the final part, every part but a sole one is nonempty, windows are disjoint. -/
def WellFormed (sh : Shape ρ) (l : ρ) : Prop := ∃ init fin, sh.Chain l init fin

variable {sh sh' : Shape ρ} {l : ρ} {init : List (PartPtr ρ)} {fin p q : PartPtr ρ}

theorem linkedTo_append {as bs : List (PartPtr ρ)} {o : Option (PartPtr ρ)} :
    sh.LinkedTo (as ++ bs) o ↔ sh.LinkedTo as (bs.head?.or o) ∧ sh.LinkedTo bs o := by
  induction as with
  | nil => simp [LinkedTo]
  | cons a as ih =>
    simp only [List.cons_append, LinkedTo, ih, and_assoc]
    cases as <;> simp

theorem LinkedTo.congr {as : List (PartPtr ρ)} {o : Option (PartPtr ρ)} (h : sh.LinkedTo as o)
    (hn : ∀ p ∈ as, (sh'.part p).next = (sh.part p).next) : sh'.LinkedTo as o := by
  induction as with
  | nil => trivial
  | cons a as ih =>
    exact ⟨(hn a List.mem_cons_self).trans h.1,
      ih h.2 fun p hp => hn p (List.mem_cons_of_mem _ hp)⟩

theorem live_congr (h : sh'.part p = sh.part p) : sh'.live p = sh.live p := by
  rw [live, live, h]

theorem flatMap_live_congr {as : List (PartPtr ρ)} (h : ∀ p ∈ as, sh'.part p = sh.part p) :
    as.flatMap sh'.live = as.flatMap sh.live :=
  List.flatMap_congr fun p hp => live_congr (h p hp)

theorem walk_of_linkedTo {ps : List (PartPtr ρ)} {n : ℕ} (h : sh.LinkedTo (p :: ps) none)
    (hn : ps.length < n) : sh.walk n p = p :: ps := by
  induction ps generalizing p n with
  | nil =>
    obtain ⟨n, rfl⟩ := Nat.exists_eq_add_of_lt hn
    have hp : (sh.part p).next = none := h.1
    simp [walk, hp]
  | cons q ps ih =>
    obtain _ | n := n
    · simp at hn
    · have hp : (sh.part p).next = some q := h.1
      simp only [walk, hp, ih h.2 (by simpa using hn)]

namespace Chain

theorem linkedTo (h : sh.Chain l init fin) : sh.LinkedTo (init ++ [fin]) none :=
  linkedTo_append.mpr ⟨h.linked, h.ends, trivial⟩

theorem live_last_sublist (h : sh.Chain l init fin) :
    (sh.live fin).Sublist (List.range' (sh.part fin).elts (sh.header l).nalloc) :=
  List.range'_sublist_right.mpr h.room

theorem nodup_init (h : sh.Chain l init fin) : init.Nodup := by
  have hd := (List.nodup_flatMap.mp (List.nodup_append.mp h.disjoint).1).2
  refine hd.imp_of_mem fun {p q} hp _ hpq => ?_
  rintro rfl
  have hm : (sh.part p).elts ∈ sh.live p := by simp [live]; exact h.filled p hp
  exact hpq hm hm

theorem not_mem_init (h : sh.Chain l init fin) : fin ∉ init := by
  intro hm
  have he : (sh.part fin).elts ∈ init.flatMap sh.live :=
    List.mem_flatMap.mpr ⟨fin, hm, by simp [live]; exact h.filled fin hm⟩
  have hw : (sh.part fin).elts ∈ List.range' (sh.part fin).elts (sh.header l).nalloc := by
    simp; exact h.nalloc_pos
  exact (List.nodup_append.mp h.disjoint).2.2 _ he _ hw rfl

theorem nodup (h : sh.Chain l init fin) : (init ++ [fin]).Nodup := by
  refine List.nodup_append.mpr ⟨h.nodup_init, List.nodup_singleton _, ?_⟩
  rintro p hp q hq rfl
  exact h.not_mem_init (List.mem_singleton.mp hq ▸ hp)

theorem length_le (h : sh.Chain l init fin) : init.length ≤ sh.pool.nodes := by
  have hs : (init ++ [fin]).tail ⊆ (List.range sh.pool.nodes).map .node := by
    intro p hp
    obtain ⟨n, hn, rfl⟩ := h.allocated p hp
    exact List.mem_map_of_mem (List.mem_range.mpr hn)
  simpa using (h.nodup.sublist (List.tail_sublist _)).length_le_of_subset hs

theorem chain_eq (h : sh.Chain l init fin) : sh.chain l = init ++ [fin] := by
  have hl := h.length_le
  have hd := h.head
  have hk := h.linkedTo
  unfold chain
  cases hps : init ++ [fin] with
  | nil => simp at hps
  | cons p ps =>
    rw [hps] at hd hk
    obtain rfl : p = .inline l := by simpa using hd
    apply walk_of_linkedTo hk
    have := congrArg List.length hps
    simp at this
    omega

theorem slots_eq (h : sh.Chain l init fin) :
    sh.slots l = init.flatMap sh.live ++ sh.live fin := by
  simp [slots, h.chain_eq]

theorem nodup_slots (h : sh.Chain l init fin) : (sh.slots l).Nodup := by
  rw [h.slots_eq]
  exact h.disjoint.sublist (List.Sublist.append_left h.live_last_sublist _)

theorem lt_brk (h : sh.Chain l init fin) {s : ℕ} (hs : s ∈ sh.slots l) : s < sh.pool.brk := by
  rw [h.slots_eq, List.mem_append, List.mem_flatMap] at hs
  rcases hs with ⟨p, hp, hs⟩ | hs
  · have := (h.inside p hp).le_brk
    simp only [live, List.mem_range'_1] at hs
    omega
  · have := h.inside_last.le_brk
    have := h.room
    simp only [live, List.mem_range'_1] at hs
    omega

theorem wellFormed (h : sh.Chain l init fin) : sh.WellFormed l := ⟨init, fin, h⟩

theorem unique {init' : List (PartPtr ρ)} {fin' : PartPtr ρ} (h : sh.Chain l init fin)
    (h' : sh.Chain l init' fin') : init' = init ∧ fin' = fin := by
  have he : init' ++ [fin'] = init ++ [fin] := h'.chain_eq.symm.trans h.chain_eq
  simpa using List.append_inj' he rfl

theorem congr (h : sh.Chain l init fin) (hp : ∀ p ∈ init ++ [fin], sh'.part p = sh.part p)
    (hl : (sh'.header l).last = (sh.header l).last)
    (hn : (sh'.header l).nalloc = (sh.header l).nalloc) (hg : sh.pool.Grows sh'.pool) :
    sh'.Chain l init fin := by
  have hinit : ∀ p ∈ init, sh'.part p = sh.part p := fun p hm => hp p (List.mem_append_left _ hm)
  have hfin : sh'.part fin = sh.part fin := hp fin (by simp)
  exact {
    head := h.head
    linked := h.linked.congr fun p hm => by rw [hinit p hm]
    ends := by rw [hfin]; exact h.ends
    allocated := fun p hm => by
      obtain ⟨n, hlt, rfl⟩ := h.allocated p hm
      exact ⟨n, hlt.trans_le hg.nodes, rfl⟩
    last := hl.trans h.last
    filled := fun p hm => by rw [hinit p hm]; exact h.filled p hm
    filled_last := by rw [hfin]; exact h.filled_last
    nalloc_pos := by rw [hn]; exact h.nalloc_pos
    room := by rw [hfin, hn]; exact h.room
    inside := fun p hm => by rw [hinit p hm]; exact hg.inside (h.inside p hm)
    inside_last := by rw [hfin, hn]; exact hg.inside h.inside_last
    disjoint := by rw [flatMap_live_congr hinit, hfin, hn]; exact h.disjoint }

theorem slots_congr (h : sh.Chain l init fin) (h' : sh'.Chain l init fin)
    (hp : ∀ p ∈ init ++ [fin], sh'.part p = sh.part p) : sh'.slots l = sh.slots l := by
  rw [h'.slots_eq, h.slots_eq, flatMap_live_congr fun p hm => hp p (List.mem_append_left _ hm),
    live_congr (hp fin (by simp))]

theorem setPool (h : sh.Chain l init fin) {r : Pool} (hr : sh.pool.Grows r) :
    (sh.setPool r).Chain l init fin :=
  h.congr (fun p _ => part_setPool sh p r) rfl rfl hr

end Chain

namespace WellFormed

theorem setPool (h : sh.WellFormed l) {r : Pool} (hr : sh.pool.Grows r) :
    (sh.setPool r).WellFormed l := by
  obtain ⟨_, _, h⟩ := h
  exact (h.setPool hr).wellFormed

theorem slots_setPool (h : sh.WellFormed l) {r : Pool} (hr : sh.pool.Grows r) :
    (sh.setPool r).slots l = sh.slots l := by
  obtain ⟨_, _, h⟩ := h
  exact h.slots_congr (h.setPool hr) fun p _ => part_setPool sh p r

theorem chain_setPool (h : sh.WellFormed l) {r : Pool} (hr : sh.pool.Grows r) :
    (sh.setPool r).chain l = sh.chain l := by
  obtain ⟨_, _, h⟩ := h
  rw [(h.setPool hr).chain_eq, h.chain_eq]

theorem nodup_slots (h : sh.WellFormed l) : (sh.slots l).Nodup := by
  obtain ⟨_, _, h⟩ := h
  exact h.nodup_slots

theorem lt_brk (h : sh.WellFormed l) {s : ℕ} (hs : s ∈ sh.slots l) : s < sh.pool.brk := by
  obtain ⟨_, _, h⟩ := h
  exact h.lt_brk hs

theorem inside (h : sh.WellFormed l) {s : ℕ} (hs : s ∈ sh.slots l) : sh.pool.Inside s 1 := by
  obtain ⟨_, _, h⟩ := h
  rw [h.slots_eq, List.mem_append, List.mem_flatMap] at hs
  rcases hs with ⟨p, hp, hs⟩ | hs
  · simp only [live, List.mem_range'_1] at hs
    exact (h.inside p hp).mono hs.1 (by omega)
  · have := h.room
    simp only [live, List.mem_range'_1] at hs
    exact h.inside_last.mono hs.1 (by omega)

theorem length_slots_le (h : sh.WellFormed l) : (sh.slots l).length ≤ sh.pool.brk := by
  have hs : sh.slots l ⊆ List.range sh.pool.brk := fun s hs => List.mem_range.mpr (h.lt_brk hs)
  simpa using h.nodup_slots.length_le_of_subset hs

theorem last_eq (h : sh.WellFormed l) : ∃ fin, (sh.header l).last = some fin := by
  obtain ⟨_, fin, h⟩ := h
  exact ⟨fin, h.last⟩

/-- The final part is the embedded one only when it is the sole part. -/
theorem assertion (h : sh.WellFormed l) (hn : (sh.header l).part.next = none) :
    (sh.header l).last = some (.inline l) := by
  obtain ⟨init, fin, h⟩ := h
  have hd := h.head
  cases init with
  | nil => rw [h.last]; simpa using hd
  | cons p init =>
    obtain rfl : p = .inline l := by simpa using hd
    have hl : (sh.header l).part.next = init.head?.or (some fin) := h.linked.1
    rw [hn] at hl
    cases init <;> simp at hl

end WellFormed

end Segments.Shape
