import HeadersControl.Segments.Push

/-! # Copying the header of a segmented list

A copied header has a first part of its own and shares the others. Where the list
has other parts, `last` points to one of these, so the copy is as good as the
original. Where it has none, `last` points to the first part of the original, and
the copy is not well-formed.
-/

namespace Segments.Shape

variable {ρ : Type*} {sh sh' : Shape ρ} {l m : ρ} {init : List (PartPtr ρ)} {fin : PartPtr ρ}

/-- `sh'` has the header of `l` at `m`, and the part descriptors and the pool of `sh`. -/
structure Copied (sh sh' : Shape ρ) (l m : ρ) : Prop where
  header : sh'.header m = sh.header l
  node : sh'.node = sh.node
  pool : sh'.pool = sh.pool

namespace Copied

theorem part_inline (hc : sh.Copied sh' l m) : sh'.part (.inline m) = sh.part (.inline l) :=
  congrArg Header.part hc.header

/-- Behind the first part there are only parts of their own allocation, which are shared. -/
theorem part_tail (hc : sh.Copied sh' l m) (h : sh.Chain l (.inline l :: init) fin)
    {p : PartPtr ρ} (hp : p ∈ init ++ [fin]) : sh'.part p = sh.part p := by
  obtain ⟨n, -, rfl⟩ := h.allocated p hp
  exact congrFun hc.node n

theorem flatMap_live (hc : sh.Copied sh' l m) (h : sh.Chain l (.inline l :: init) fin) :
    (.inline m :: init).flatMap sh'.live = (.inline l :: init).flatMap sh.live := by
  rw [List.flatMap_cons, List.flatMap_cons,
    flatMap_live_congr fun p hp => hc.part_tail h (List.mem_append_left _ hp),
    live, hc.part_inline, ← live]

end Copied

theorem Chain.copy (h : sh.Chain l (.inline l :: init) fin) (hc : sh.Copied sh' l m) :
    sh'.Chain m (.inline m :: init) fin := by
  have hlast : sh'.part fin = sh.part fin := hc.part_tail h (by simp)
  have htail : ∀ p ∈ init, sh'.part p = sh.part p := fun p hp =>
    hc.part_tail h (List.mem_append_left _ hp)
  exact {
    head := rfl
    linked := ⟨by rw [hc.part_inline]; exact h.linked.1,
      h.linked.2.congr fun p hp => by rw [htail p hp]⟩
    ends := by rw [hlast]; exact h.ends
    allocated := by rw [hc.pool]; exact h.allocated
    last := by rw [hc.header]; exact h.last
    filled := fun p hp => by
      rcases List.mem_cons.mp hp with rfl | hp
      · rw [hc.part_inline]
        exact h.filled _ List.mem_cons_self
      · rw [htail p hp]
        exact h.filled p (List.mem_cons_of_mem _ hp)
    filled_last := Or.inr (by rw [hlast]; exact h.filled_last.resolve_left (by simp))
    nalloc_pos := by rw [hc.header]; exact h.nalloc_pos
    room := by rw [hlast, hc.header]; exact h.room
    inside := fun p hp => by
      rw [hc.pool]
      rcases List.mem_cons.mp hp with rfl | hp
      · rw [hc.part_inline]
        exact h.inside _ List.mem_cons_self
      · rw [htail p hp]
        exact h.inside p (List.mem_cons_of_mem _ hp)
    inside_last := by rw [hc.pool, hlast, hc.header]; exact h.inside_last
    disjoint := by rw [hc.flatMap_live h, hlast, hc.header]; exact h.disjoint }

theorem Chain.slots_copy (h : sh.Chain l (.inline l :: init) fin) (hc : sh.Copied sh' l m) :
    sh'.slots m = sh.slots l := by
  rw [(h.copy hc).slots_eq, h.slots_eq, hc.flatMap_live h, live_congr (hc.part_tail h (by simp))]

theorem Chain.keep (h : sh.Chain l init fin) (hc : sh.Copied sh' l l) :
    sh'.Chain l init fin ∧ sh'.slots l = sh.slots l := by
  have hp : ∀ p ∈ init ++ [fin], sh'.part p = sh.part p := fun p hp => by
    obtain ⟨ps, hps⟩ := h.wellFormed.chain_cons
    have ht := h.allocated p
    rw [← h.chain_eq, hps] at hp ht
    rcases List.mem_cons.mp hp with rfl | hp
    · exact hc.part_inline
    · obtain ⟨n, -, rfl⟩ := ht hp
      exact congrFun hc.node n
  have h' : sh'.Chain l init fin :=
    h.congr hp (by rw [hc.header]) (by rw [hc.header]) (by rw [hc.pool]; exact Pool.Grows.refl _)
  exact ⟨h', h.slots_congr h' hp⟩

theorem chain_sole (hn : (sh.part (.inline l)).next = none) : sh.chain l = [.inline l] := by
  simp [chain, walk, hn]

namespace WellFormed

theorem keep (h : sh.WellFormed l) (hc : sh.Copied sh' l l) :
    sh'.WellFormed l ∧ sh'.slots l = sh.slots l := by
  obtain ⟨init, fin, h⟩ := h
  exact ⟨(h.keep hc).1.wellFormed, (h.keep hc).2⟩

theorem several (h : sh.WellFormed l) (hn : 2 ≤ (sh.chain l).length) :
    ∃ init fin, sh.Chain l (.inline l :: init) fin := by
  obtain ⟨init, fin, h⟩ := h
  cases init with
  | nil => simp [h.chain_eq] at hn
  | cons p init =>
    obtain rfl : p = .inline l := by simpa using h.head
    exact ⟨init, fin, h⟩

theorem copy (h : sh.WellFormed l) (hc : sh.Copied sh' l m) (hn : 2 ≤ (sh.chain l).length) :
    sh'.WellFormed m := by
  obtain ⟨init, fin, hl⟩ := h.several hn
  exact (hl.copy hc).wellFormed

theorem slots_copy (h : sh.WellFormed l) (hc : sh.Copied sh' l m)
    (hn : 2 ≤ (sh.chain l).length) : sh'.slots m = sh.slots l := by
  obtain ⟨init, fin, hl⟩ := h.several hn
  exact hl.slots_copy hc

/-- In a copied header `last` is the final part exactly when the list has several parts. -/
theorem last_copy_iff (h : sh.WellFormed l) (hc : sh.Copied sh' l m) (hne : m ≠ l) :
    (sh'.header m).last = (sh'.chain m).getLast? ↔ 2 ≤ (sh.chain l).length := by
  constructor
  · intro h'
    by_contra hn
    obtain ⟨init, fin, hl⟩ := h
    rw [hl.chain_eq, List.length_append, List.length_singleton] at hn
    obtain rfl : init = [] := List.eq_nil_of_length_eq_zero (by omega)
    obtain rfl : fin = .inline l := by simpa using hl.head
    rw [chain_sole (by rw [hc.part_inline]; exact hl.ends), hc.header, hl.last] at h'
    exact hne (PartPtr.inline.inj (Option.some.inj h')).symm
  · intro hn
    obtain ⟨init, fin, hl⟩ := h.several hn
    rw [(hl.copy hc).chain_eq, (hl.copy hc).last, List.getLast?_concat]

end WellFormed

/-- The list has, or with one more element will have, a part behind the embedded one. -/
def Spills (sh : Shape ρ) (l : ρ) : Prop :=
  2 ≤ (sh.chain l).length ∨ (sh.header l).part.nelts = (sh.header l).nalloc

instance (sh : Shape ρ) (l : ρ) : Decidable (sh.Spills l) :=
  inferInstanceAs (Decidable (_ ∨ _))

theorem spills_setPool (h : sh.WellFormed l) {r : Pool} (hr : sh.pool.Grows r) :
    (sh.setPool r).Spills l ↔ sh.Spills l := by
  rw [Spills, Spills, h.chain_setPool hr, header_setPool]

section Push

variable [DecidableEq ρ]

/-- A push opens a second part where the first is full. -/
theorem several_of_push {s : ℕ} (h : sh.WellFormed l) (hp : sh.push l = .ok (some s, sh')) :
    2 ≤ (sh'.chain l).length ↔ sh.Spills l := by
  obtain ⟨init, fin, hl⟩ := h
  cases init with
  | nil =>
    obtain rfl : fin = .inline l := by simpa using hl.head
    rcases hl.room.lt_or_eq with hr | hf
    · rw [push_room hl hr] at hp
      obtain rfl := (Prod.mk.inj (Except.ok.inj hp)).2
      have hne : (sh.header l).part.nelts ≠ (sh.header l).nalloc := hr.ne
      simp [Spills, (hl.bump hr).chain_eq, hl.chain_eq, hne]
    · rcases push_full hl hf with ⟨q, hp', -⟩ | ⟨sh₁, hp', -, hl', -⟩
      · rw [hp'] at hp
        cases hp
      · rw [hp'] at hp
        obtain rfl := (Prod.mk.inj (Except.ok.inj hp)).2
        exact iff_of_true (by simp [hl'.chain_eq]) (Or.inr hf)
  | cons p init =>
    have hmany : 2 ≤ (sh.chain l).length := by simp [hl.chain_eq]
    apply iff_of_true _ (Or.inl hmany)
    rcases hl.room.lt_or_eq with hr | hf
    · rw [push_room hl hr] at hp
      obtain rfl := (Prod.mk.inj (Except.ok.inj hp)).2
      simp [(hl.bump hr).chain_eq]
    · rcases push_full hl hf with ⟨q, hp', -⟩ | ⟨sh₁, hp', -, hl', -⟩
      · rw [hp'] at hp
        cases hp
      · rw [hp'] at hp
        obtain rfl := (Prod.mk.inj (Except.ok.inj hp)).2
        simp [hl'.chain_eq]

end Push

end Segments.Shape
