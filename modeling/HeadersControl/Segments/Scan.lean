import HeadersControl.Segments.Chain

/-! # Scanning a segmented list

A scan holds a part and an index into it. `seek` is the head of its loop: it
moves to the next part when the index is past the current one, without asking
whether that part is empty. On a well-formed list a position stands for a suffix
of the slots in use, and `seek` finds the first slot of that suffix.
-/

namespace Segments.Shape

variable {ρ : Type*}

/-- The position that the loop body looks at, or `none` where the loop breaks. -/
def seek (sh : Shape ρ) (p : PartPtr ρ) (i : ℕ) : Option (PartPtr ρ × ℕ) :=
  if i < (sh.part p).nelts then some (p, i)
  else (sh.part p).next.map fun q => (q, 0)

def addr (sh : Shape ρ) (p : PartPtr ρ) (i : ℕ) : ℕ := (sh.part p).elts + i

def Valid (sh : Shape ρ) (l : ρ) (p : PartPtr ρ) (i : ℕ) : Prop :=
  p ∈ sh.chain l ∧ i < (sh.part p).nelts

def At (sh : Shape ρ) (l : ρ) (p : PartPtr ρ) (i : ℕ) (rest : List ℕ) : Prop :=
  ∃ as bs, sh.chain l = as ++ p :: bs ∧ i ≤ (sh.part p).nelts ∧
    rest = (sh.live p).drop i ++ bs.flatMap sh.live

variable {sh : Shape ρ} {l : ρ} {p : PartPtr ρ} {i s : ℕ} {rest : List ℕ}

theorem drop_live (hi : i < (sh.part p).nelts) :
    (sh.live p).drop i = sh.addr p i :: (sh.live p).drop (i + 1) := by
  rw [List.drop_eq_getElem_cons (by simpa [live] using hi)]
  simp [live, addr]

namespace WellFormed

theorem chain_cons (h : sh.WellFormed l) : ∃ ps, sh.chain l = .inline l :: ps := by
  obtain ⟨init, fin, h⟩ := h
  have hd := h.head
  rw [← h.chain_eq] at hd
  exact ⟨_, List.eq_cons_of_mem_head? hd⟩

theorem linkedTo (h : sh.WellFormed l) : sh.LinkedTo (sh.chain l) none := by
  obtain ⟨init, fin, h⟩ := h
  exact h.chain_eq ▸ h.linkedTo

theorem next_eq (h : sh.WellFormed l) {as bs : List (PartPtr ρ)}
    (hc : sh.chain l = as ++ p :: bs) : (sh.part p).next = bs.head? := by
  have hl := h.linkedTo
  rw [hc, linkedTo_append] at hl
  simpa using hl.2.1

/-- Parts behind the first are nonempty, and so is the first when others follow. -/
theorem filled (h : sh.WellFormed l) {as bs : List (PartPtr ρ)}
    (hc : sh.chain l = as ++ p :: bs) (hn : as ≠ [] ∨ bs ≠ []) : 1 ≤ (sh.part p).nelts := by
  obtain ⟨init, fin, h⟩ := h
  have hm : p ∈ init ++ [fin] := by rw [← h.chain_eq, hc]; simp
  rcases List.mem_append.mp hm with hp | hp
  · exact h.filled p hp
  · obtain rfl := List.mem_singleton.mp hp
    apply h.filled_last.resolve_left
    rintro rfl
    have hl := congrArg List.length (h.chain_eq.symm.trans hc)
    rcases hn with hn | hn <;> have := List.length_pos_iff.mpr hn <;> simp at hl <;> omega

theorem at_start (h : sh.WellFormed l) : sh.At l (.inline l) 0 (sh.slots l) := by
  obtain ⟨ps, hps⟩ := h.chain_cons
  exact ⟨[], ps, hps, Nat.zero_le _, by simp [slots, hps]⟩

theorem seek_nil (h : sh.WellFormed l) (ha : sh.At l p i []) : sh.seek p i = none := by
  obtain ⟨as, bs, hc, -, hr⟩ := ha
  obtain ⟨hp, hb⟩ := List.nil_eq_append_iff.mp hr
  have hi : ¬ i < (sh.part p).nelts := by
    intro hi
    rw [drop_live hi] at hp
    simp at hp
  have hbs : bs = [] := by
    cases bs with
    | nil => rfl
    | cons q bs =>
      have hc' : sh.chain l = (as ++ [p]) ++ q :: bs := by simpa using hc
      have hq := h.filled hc' (by simp)
      simp only [List.flatMap_cons, List.append_eq_nil_iff] at hb
      simp [live] at hb
      omega
  subst hbs
  simp [seek, hi, h.next_eq hc]

theorem seek_cons (h : sh.WellFormed l) (ha : sh.At l p i (s :: rest)) :
    ∃ q j, sh.seek p i = some (q, j) ∧ sh.addr q j = s ∧ sh.Valid l q j ∧
      sh.At l q (j + 1) rest := by
  obtain ⟨as, bs, hc, hi, hr⟩ := ha
  rcases Nat.lt_or_ge i (sh.part p).nelts with hlt | hge
  · rw [drop_live hlt, List.cons_append, List.cons.injEq] at hr
    exact ⟨p, i, by simp [seek, hlt], hr.1.symm, ⟨by simp [hc], hlt⟩, as, bs, hc, hlt, hr.2⟩
  · -- the current part is exhausted and the next one starts with a live slot
    rw [List.drop_eq_nil_of_le (by simpa [live] using hge), List.nil_append] at hr
    obtain _ | ⟨q, bs⟩ := bs
    · simp at hr
    · have hc' : sh.chain l = (as ++ [p]) ++ q :: bs := by simpa using hc
      have hq : 0 < (sh.part q).nelts := h.filled hc' (by simp)
      have hn : (sh.part p).next = some q := h.next_eq hc
      have hl : sh.live q = sh.addr q 0 :: (sh.live q).drop 1 := by
        simpa using drop_live hq
      rw [List.flatMap_cons, hl, List.cons_append, List.cons.injEq] at hr
      refine ⟨q, 0, ?_, hr.1.symm, ⟨by simp [hc], hq⟩, as ++ [p], bs, by simp [hc], hq, hr.2⟩
      simp [seek, Nat.not_lt.mpr hge, hn]

end WellFormed

end Segments.Shape
