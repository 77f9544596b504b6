import HeadersControl.Segments.Scan

/-! # Appending to a segmented list

`push` hands out the slot behind the last element, and opens a new part of
`nalloc` slots when the last one is full. It keeps a list well-formed, appends
one slot that was not in use, and stays inside allocated blocks.
-/

namespace Segments.Shape

variable {ρ : Type*}

section Extension

variable {sh : Shape ρ} {l : ρ} {init : List (PartPtr ρ)} {fin p : PartPtr ρ} {s : ℕ}

namespace Chain

theorem node_lt (h : sh.Chain l init fin) {n : ℕ} (hp : .node n ∈ init ++ [fin]) :
    n < sh.pool.nodes := by
  obtain ⟨ps, hps⟩ := h.wellFormed.chain_cons
  have ht := h.allocated (.node n)
  rw [← h.chain_eq, hps] at hp ht
  obtain ⟨m, hm, he⟩ := ht (by simpa using hp)
  exact PartPtr.node.inj he ▸ hm

theorem ne_fresh (h : sh.Chain l init fin) (hp : p ∈ init ++ [fin]) {n : ℕ}
    (hn : sh.pool.nodes ≤ n) : p ≠ .node n := by
  rintro rfl
  exact Nat.not_lt.mpr hn (h.node_lt hp)

theorem ne_fin (h : sh.Chain l init fin) (hp : p ∈ init) : p ≠ fin := by
  rintro rfl
  exact h.not_mem_init hp

theorem extend (h : sh.Chain l init fin) (hf : (sh.part fin).nelts = (sh.header l).nalloc)
    {q : Pool} (hq : sh.pool.Grows q) (hn : sh.pool.nodes < q.nodes)
    (ha : q.Inside sh.pool.brk (sh.header l).nalloc) {sh' : Shape ρ} (hpool : sh'.pool = q)
    (hnew : sh'.part (.node sh.pool.nodes) = ⟨sh.pool.brk, 1, none⟩)
    (hfin : sh'.part fin = { sh.part fin with next := some (.node sh.pool.nodes) })
    (hother : ∀ p ∈ init, sh'.part p = sh.part p)
    (hlast : (sh'.header l).last = some (.node sh.pool.nodes))
    (hnalloc : (sh'.header l).nalloc = (sh.header l).nalloc) :
    sh'.Chain l (init ++ [fin]) (.node sh.pool.nodes) where
  head := by simpa using congrArg (Option.or · (some (.node sh.pool.nodes))) h.head
  linked := linkedTo_append.mpr
    ⟨h.linked.congr fun p hp => by rw [hother p hp], by simp [hfin], trivial⟩
  ends := by rw [hnew]
  allocated := fun p hp => by
    rw [List.tail_append_of_ne_nil (by simp)] at hp
    rcases List.mem_append.mp hp with hp | hp
    · obtain ⟨n, hlt, rfl⟩ := h.allocated p hp
      exact ⟨n, by rw [hpool]; omega, rfl⟩
    · exact ⟨_, by rwa [hpool], List.mem_singleton.mp hp⟩
  last := hlast
  filled := fun p hp => by
    rcases List.mem_append.mp hp with hp | hp
    · rw [hother p hp]; exact h.filled p hp
    · rw [List.mem_singleton.mp hp, hfin]; exact hf.symm ▸ h.nalloc_pos
  filled_last := Or.inr (by rw [hnew])
  nalloc_pos := hnalloc ▸ h.nalloc_pos
  room := by rw [hnew, hnalloc]; exact h.nalloc_pos
  inside := fun p hp => by
    rw [hpool]
    rcases List.mem_append.mp hp with hp | hp
    · rw [hother p hp]; exact hq.inside (h.inside p hp)
    · rw [List.mem_singleton.mp hp, hfin]; exact hq.inside (hf ▸ h.inside_last)
  inside_last := by rw [hpool, hnew, hnalloc]; exact ha
  disjoint := by
    have hlive : (init ++ [fin]).flatMap sh'.live =
        init.flatMap sh.live ++ List.range' (sh.part fin).elts (sh.header l).nalloc := by
      rw [List.flatMap_append, flatMap_live_congr hother]
      simp [live, hfin, hf]
    rw [hlive, hnew, hnalloc]
    refine List.nodup_append.mpr ⟨h.disjoint, List.nodup_range', ?_⟩
    -- old windows end at the break, where the new block starts
    rintro a ha' b hb rfl
    have hold : a < sh.pool.brk := h.lt_brk (by
      rw [h.slots_eq]
      simpa [live, hf] using ha')
    simp only [List.mem_range'_1] at hb
    omega

theorem slots_extend (h : sh.Chain l init fin) {sh' : Shape ρ} {q : PartPtr ρ} {a : ℕ}
    (h' : sh'.Chain l (init ++ [fin]) q)
    (hnew : (sh'.part q).elts = a ∧ (sh'.part q).nelts = 1)
    (hfin : (sh'.part fin).elts = (sh.part fin).elts ∧ (sh'.part fin).nelts = (sh.part fin).nelts)
    (hother : ∀ p ∈ init, sh'.part p = sh.part p) : sh'.slots l = sh.slots l ++ [a] := by
  rw [h'.slots_eq, h.slots_eq, List.flatMap_append, flatMap_live_congr hother]
  simp [live, hnew, hfin]

end Chain

end Extension

variable [DecidableEq ρ]

def bump (sh : Shape ρ) (p : PartPtr ρ) : Shape ρ :=
  sh.setPart p { sh.part p with nelts := (sh.part p).nelts + 1 }

/-- Link a new empty part with the slots from `a` on behind the last part of `l`. -/
def openPart (sh : Shape ρ) (l : ρ) (last : PartPtr ρ) (n a : ℕ) : Shape ρ :=
  let sh := sh.setPart (.node n) ⟨a, 0, none⟩
  let sh := sh.setPart last { sh.part last with next := some (.node n) }
  sh.setLast l (some (.node n))

/-- The new slot, or `none` when an allocation fails. -/
def push (sh : Shape ρ) (l : ρ) : Except Fault (Option ℕ × Shape ρ) :=
  match (sh.header l).last with
  | none => .error .null
  | some last =>
      if (sh.part last).nelts = (sh.header l).nalloc then
        match sh.pool.allocNode with
        | (none, pool) => .ok (none, sh.setPool pool)
        | (some n, pool) =>
            match pool.allocSlots (sh.header l).nalloc with
            | (none, pool) => .ok (none, sh.setPool pool)
            | (some a, pool) =>
                let sh := (sh.setPool pool).openPart l last n a
                .ok (some (sh.addr (.node n) 0), sh.bump (.node n))
      else .ok (some (sh.addr last (sh.part last).nelts), sh.bump last)

variable {sh : Shape ρ} {l : ρ} {init : List (PartPtr ρ)} {fin p : PartPtr ρ} {s : ℕ}

namespace Chain

theorem bump (h : sh.Chain l init fin) (hr : (sh.part fin).nelts < (sh.header l).nalloc) :
    (sh.bump fin).Chain l init fin := by
  have hne : ∀ p ∈ init, (sh.bump fin).part p = sh.part p := fun p hp =>
    part_setPart_of_ne sh _ (h.ne_fin hp)
  exact {
    head := h.head
    linked := h.linked.congr fun p hp => by rw [hne p hp]
    ends := by simpa [Shape.bump] using h.ends
    allocated := by simpa [Shape.bump] using h.allocated
    last := by simpa [Shape.bump] using h.last
    filled := fun p hp => by rw [hne p hp]; exact h.filled p hp
    filled_last := Or.inr (by simp [Shape.bump])
    nalloc_pos := by simpa [Shape.bump] using h.nalloc_pos
    room := by simpa [Shape.bump] using Nat.succ_le_of_lt hr
    inside := fun p hp => by rw [hne p hp]; simpa [Shape.bump] using h.inside p hp
    inside_last := by simpa [Shape.bump] using h.inside_last
    disjoint := by
      rw [flatMap_live_congr hne]
      simpa [Shape.bump] using h.disjoint }

theorem slots_bump (h : sh.Chain l init fin)
    (hr : (sh.part fin).nelts < (sh.header l).nalloc) :
    (sh.bump fin).slots l = sh.slots l ++ [sh.addr fin (sh.part fin).nelts] := by
  have hne : ∀ p ∈ init, (sh.bump fin).part p = sh.part p := fun p hp =>
    part_setPart_of_ne sh _ (h.ne_fin hp)
  rw [(h.bump hr).slots_eq, h.slots_eq, flatMap_live_congr hne, List.append_assoc]
  simp [live, Shape.bump, addr, List.range'_1_concat]

end Chain

theorem push_room (h : sh.Chain l init fin) (hr : (sh.part fin).nelts < (sh.header l).nalloc) :
    sh.push l = .ok (some (sh.addr fin (sh.part fin).nelts), sh.bump fin) := by
  simp [push, h.last, hr.ne]

theorem push_full (h : sh.Chain l init fin) (hf : (sh.part fin).nelts = (sh.header l).nalloc) :
    (∃ q, sh.push l = .ok (none, sh.setPool q) ∧ sh.pool.Grows q ∧ ¬ sh.pool.Reliable) ∨
    ∃ sh', sh.push l = .ok (some sh.pool.brk, sh') ∧ sh.pool.Grows sh'.pool ∧
      sh'.Chain l (init ++ [fin]) (.node sh.pool.nodes) ∧
      sh'.slots l = sh.slots l ++ [sh.pool.brk] := by
  simp only [push, h.last, hf, if_true]
  rcases hA : sh.pool.allocNode with ⟨_ | n, q⟩
  · exact Or.inl ⟨q, rfl, by simpa [hA] using sh.pool.allocNode_grows,
      Pool.allocNode_eq_none hA⟩
  · have hq : sh.pool.Grows q := by simpa [hA] using sh.pool.allocNode_grows
    obtain ⟨rfl, hnodes, hbrk⟩ := Pool.allocNode_eq_some hA
    rcases hB : q.allocSlots (sh.header l).nalloc with ⟨_ | a, q'⟩
    · refine Or.inl ⟨q', by simp [hB],
        hq.trans (by simpa [hB] using q.allocSlots_grows (sh.header l).nalloc), ?_⟩
      exact fun hr => Pool.allocSlots_eq_none hB (hq.reliable.mpr hr)
    · have hq' : q.Grows q' := by simpa [hB] using q.allocSlots_grows (sh.header l).nalloc
      obtain ⟨rfl, hin⟩ := Pool.allocSlots_eq_some hB
      rw [hbrk] at hin
      have hfresh : fin ≠ .node sh.pool.nodes := h.ne_fresh (by simp) le_rfl
      have hne : ∀ p ∈ init, p ≠ fin ∧ p ≠ .node sh.pool.nodes := fun p hp =>
        ⟨h.ne_fin hp, h.ne_fresh (List.mem_append_left _ hp) le_rfl⟩
      let sh' := (sh.setPool q').openPart l fin sh.pool.nodes sh.pool.brk
      have hnew : (sh'.bump (.node sh.pool.nodes)).part (.node sh.pool.nodes) =
          ⟨sh.pool.brk, 1, none⟩ := by
        simp [sh', bump, openPart, part_setPart_of_ne _ _ hfresh.symm]
      have hfin : (sh'.bump (.node sh.pool.nodes)).part fin =
          { sh.part fin with next := some (.node sh.pool.nodes) } := by
        simp [sh', bump, openPart, part_setPart_of_ne _ _ hfresh]
      have hother : ∀ p ∈ init, (sh'.bump (.node sh.pool.nodes)).part p = sh.part p := by
        intro p hp
        simp [sh', bump, openPart, part_setPart_of_ne _ _ (hne p hp).1,
          part_setPart_of_ne _ _ (hne p hp).2]
      have hpool : (sh'.bump (.node sh.pool.nodes)).pool = q' := by simp [sh', bump, openPart]
      have hc : (sh'.bump (.node sh.pool.nodes)).Chain l (init ++ [fin])
          (.node sh.pool.nodes) :=
        h.extend hf (hq.trans hq') (by have := hq'.nodes; omega) hin hpool hnew hfin hother
          (by simp [sh', bump, openPart]) (by simp [sh', bump, openPart])
      refine Or.inr ⟨sh'.bump (.node sh.pool.nodes), ?_, hpool ▸ hq.trans hq', hc,
        h.slots_extend hc (by simp [hnew]) (by simp [hfin]) hother⟩
      simp [hB, hbrk, sh', addr, openPart, part_setPart_of_ne _ _ hfresh.symm]

/-- The slot that `push` hands out where no allocation fails. -/
def nextSlot (sh : Shape ρ) (l : ρ) : ℕ :=
  match (sh.header l).last with
  | none => 0
  | some last =>
      if (sh.part last).nelts = (sh.header l).nalloc then sh.pool.brk
      else sh.addr last (sh.part last).nelts

omit [DecidableEq ρ] in
theorem nextSlot_setPool {q : Pool} (hq : q.brk = sh.pool.brk) :
    (sh.setPool q).nextSlot l = sh.nextSlot l := by
  simp only [nextSlot, header_setPool, part_setPool, pool_setPool, hq]
  rfl

theorem push_nextSlot (h : sh.WellFormed l) {sh' : Shape ρ}
    (hp : sh.push l = .ok (some s, sh')) : s = sh.nextSlot l := by
  obtain ⟨init, fin, h⟩ := h
  rcases h.room.lt_or_eq with hr | hf
  · rw [push_room h hr] at hp
    cases hp
    simp [nextSlot, h.last, hr.ne]
  · rcases push_full h hf with ⟨q, he, -, -⟩ | ⟨sh₁, he, -, -, -⟩
    · rw [he] at hp
      cases hp
    · rw [he] at hp
      cases hp
      simp [nextSlot, h.last, hf]

/--
On a well-formed list `push` appends one slot that was not in use and lies in an allocated
block, or fails without touching the list.
-/
theorem push_spec (h : sh.WellFormed l) :
    (∃ q, sh.push l = .ok (none, sh.setPool q) ∧ sh.pool.Grows q ∧ ¬ sh.pool.Reliable) ∨
    ∃ s sh', sh.push l = .ok (some s, sh') ∧ sh.pool.Grows sh'.pool ∧ sh'.WellFormed l ∧
      sh'.slots l = sh.slots l ++ [s] ∧ s ∉ sh.slots l := by
  obtain ⟨init, fin, h⟩ := h
  rcases h.room.lt_or_eq with hr | hf
  · refine Or.inr ⟨_, _, push_room h hr, by simpa [bump] using Pool.Grows.refl _,
      (h.bump hr).wellFormed, h.slots_bump hr, fun hm => ?_⟩
    have hn := (h.bump hr).nodup_slots
    rw [h.slots_bump hr] at hn
    exact (List.nodup_append.mp hn).2.2 _ hm _ (List.mem_singleton_self _) rfl
  · rcases push_full h hf with hfail | ⟨sh', he, hg, hc, hs⟩
    · exact Or.inl hfail
    · exact Or.inr ⟨_, sh', he, hg, hc.wellFormed, hs, fun hm => Nat.lt_irrefl _ (h.lt_brk hm)⟩

/-- A fresh list with a block of `n` slots, of which the first `k` are in use. -/
def single (k n : ℕ) : Shape ρ where
  header l := ⟨some (.inline l), ⟨0, k, none⟩, n⟩
  node _ := ⟨0, 0, none⟩
  pool := ⟨[(0, n)], n, 0, fun _ => false, 0, by simp⟩

omit [DecidableEq ρ] in
theorem single_wellFormed {k n : ℕ} (hn : 1 ≤ n) (hk : k ≤ n) :
    (single k n : Shape ρ).WellFormed l :=
  ⟨[], .inline l, {
    head := rfl
    linked := trivial
    ends := rfl
    allocated := by simp
    last := rfl
    filled := by simp
    filled_last := Or.inl rfl
    nalloc_pos := hn
    room := hk
    inside := by simp
    inside_last := ⟨(0, n), by simp [single], le_rfl, le_rfl⟩
    disjoint := by simp [List.nodup_range'] }⟩

end Segments.Shape
