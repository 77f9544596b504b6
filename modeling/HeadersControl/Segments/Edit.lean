import HeadersControl.Segments.Push

/-! # Editing the parts of a segmented list

The edits that take one slot out of a list in place: narrowing the window of a
part, dropping the final part, unlinking an inner part, overwriting the embedded
part by its successor, and splitting a part in two. Each keeps the chain of the
list, because the new windows lie inside the old ones.
-/

namespace Segments

theorem range'_sublist_range' {a n a' n' : ℕ} (hlo : a ≤ a') (hhi : a' + n' ≤ a + n) :
    (List.range' a' n').Sublist (List.range' a n) := by
  obtain ⟨k, rfl⟩ := Nat.exists_eq_add_of_le hlo
  have hd := List.drop_sublist k (List.range' a n)
  rw [List.drop_range', Nat.mul_one] at hd
  exact (List.range'_sublist_right.mpr (by omega)).trans hd

theorem flatMap_sublist {α β : Type*} {f g : α → List β} {as : List α}
    (h : ∀ a ∈ as, (f a).Sublist (g a)) : (as.flatMap f).Sublist (as.flatMap g) := by
  induction as with
  | nil => simp
  | cons a as ih =>
    simp only [List.flatMap_cons]
    exact (h a List.mem_cons_self).append (ih fun b hb => h b (List.mem_cons_of_mem _ hb))

namespace Shape

variable {ρ : Type*} {sh sh' : Shape ρ} {l : ρ} {init as bs : List (PartPtr ρ)}
  {fin cur p q : PartPtr ρ} {i s : ℕ}

theorem erase_live (hi : i < (sh.part p).nelts) :
    (sh.live p).erase (sh.addr p i) = List.range' (sh.part p).elts i ++
      List.range' ((sh.part p).elts + (i + 1)) ((sh.part p).nelts - i - 1) := by
  have hs : sh.live p = List.range' (sh.part p).elts i ++ sh.addr p i ::
      List.range' ((sh.part p).elts + (i + 1)) ((sh.part p).nelts - i - 1) := by
    have hn : (sh.part p).nelts = i + (1 + ((sh.part p).nelts - i - 1)) := by omega
    conv_lhs => rw [live, hn, ← List.range'_append_1, ← List.range'_append_1]
    simp [addr, Nat.add_assoc]
  rw [hs, List.erase_append_right _ (by simp [addr]), List.erase_cons_head]

namespace Chain

theorem erase_slots (h : sh.Chain l init fin) (hc : init ++ [fin] = as ++ p :: bs)
    (hi : i < (sh.part p).nelts) :
    (sh.slots l).erase (sh.addr p i) = as.flatMap sh.live ++
      ((sh.live p).erase (sh.addr p i) ++ bs.flatMap sh.live) := by
  have hm : sh.addr p i ∈ sh.live p := by simp [live, addr]; exact hi
  have hs : sh.slots l = as.flatMap sh.live ++ (sh.live p ++ bs.flatMap sh.live) := by
    simp [slots, h.chain_eq, hc]
  have hn := h.nodup_slots
  rw [hs] at hn ⊢
  have hna : sh.addr p i ∉ as.flatMap sh.live := fun ha =>
    (List.nodup_append.mp hn).2.2 _ ha _ (List.mem_append_left _ hm) rfl
  rw [List.erase_append_right _ hna, List.erase_append_left _ hm]

theorem cases (h : sh.Chain l init fin) (hc : init ++ [fin] = as ++ cur :: bs) :
    (cur = fin ∧ as = init ∧ bs = []) ∨
    ∃ bs', bs = bs' ++ [fin] ∧ init = as ++ cur :: bs' ∧ cur ≠ fin := by
  rcases List.eq_nil_or_concat bs with rfl | ⟨bs', b, rfl⟩
  · obtain ⟨rfl, he⟩ := List.append_inj' hc rfl
    exact Or.inl ⟨(List.singleton_inj.mp he).symm, rfl, rfl⟩
  · have he : init ++ [fin] = (as ++ cur :: bs') ++ [b] := by simpa using hc
    obtain ⟨hi, hb⟩ := List.append_inj' he rfl
    obtain rfl := List.singleton_inj.mp hb
    exact Or.inr ⟨bs', by simp, hi, h.ne_fin (by simp [hi])⟩

theorem ne_of_split (h : sh.Chain l init fin) (hc : init ++ [fin] = as ++ cur :: bs)
    (hq : q ∈ as ++ bs) : q ≠ cur := by
  rintro rfl
  have hn := h.nodup
  rw [hc] at hn
  simp only [List.nodup_append, List.nodup_cons] at hn
  rcases List.mem_append.mp hq with hq | hq
  · exact hn.2.2 q hq q (by simp) rfl
  · exact hn.2.1.1 hq

theorem ne_inline (h : sh.Chain l init fin) (hc : init ++ [fin] = as ++ p :: cur :: bs) :
    cur ≠ .inline l := by
  rintro rfl
  have hn := h.nodup
  have hd := h.head
  rw [hc] at hn hd
  have he : as ++ p :: .inline l :: bs = (as ++ [p]) ++ .inline l :: bs := by simp
  rw [he] at hn hd
  refine (List.nodup_append.mp hn).2.2 _ ?_ _ List.mem_cons_self rfl
  exact List.mem_of_mem_head? (by cases as <;> simpa using hd)

theorem resize (h : sh.Chain l init fin) (hpool : sh'.pool = sh.pool)
    (hnext : ∀ p ∈ init ++ [fin], (sh'.part p).next = (sh.part p).next)
    (hlast : (sh'.header l).last = some fin)
    (hwin : ∀ p ∈ init, (sh.part p).elts ≤ (sh'.part p).elts ∧
      (sh'.part p).elts + (sh'.part p).nelts ≤ (sh.part p).elts + (sh.part p).nelts ∧
      1 ≤ (sh'.part p).nelts)
    (hfin : (sh.part fin).elts ≤ (sh'.part fin).elts ∧
      (sh'.part fin).elts + (sh'.header l).nalloc ≤
        (sh.part fin).elts + (sh.header l).nalloc)
    (hroom : (sh'.part fin).nelts ≤ (sh'.header l).nalloc)
    (hpos : 1 ≤ (sh'.header l).nalloc)
    (hfilled : init = [] ∨ 1 ≤ (sh'.part fin).nelts) : sh'.Chain l init fin where
  head := h.head
  linked := h.linked.congr fun p hp => hnext p (List.mem_append_left _ hp)
  ends := (hnext fin (by simp)).trans h.ends
  allocated := hpool ▸ h.allocated
  last := hlast
  filled := fun p hp => (hwin p hp).2.2
  filled_last := hfilled
  nalloc_pos := hpos
  room := hroom
  inside := fun p hp => hpool ▸ (h.inside p hp).mono (hwin p hp).1 (hwin p hp).2.1
  inside_last := hpool ▸ h.inside_last.mono hfin.1 hfin.2
  disjoint := h.disjoint.sublist <| (flatMap_sublist fun p hp =>
    range'_sublist_range' (hwin p hp).1 (hwin p hp).2.1).append
      (range'_sublist_range' hfin.1 hfin.2)

theorem dropLast (h : sh.Chain l (as ++ [p]) fin) (hpool : sh'.pool = sh.pool)
    (hpart : ∀ q ∈ as, sh'.part q = sh.part q)
    (hp : sh'.part p = { sh.part p with next := none })
    (hlast : (sh'.header l).last = some p)
    (hnalloc : (sh'.header l).nalloc = (sh.part p).nelts) : sh'.Chain l as p := by
  have hlinked := linkedTo_append.mp h.linked
  have hwin : List.range' (sh.part p).elts (sh'.header l).nalloc = sh.live p := by
    rw [hnalloc, live]
  exact {
    head := by simpa using h.head
    linked := by simpa using hlinked.1.congr fun q hq => by rw [hpart q hq]
    ends := by rw [hp]
    allocated := fun q hq => by
      rw [hpool]
      apply h.allocated q
      rw [List.tail_append_of_ne_nil (by simp)]
      exact List.mem_append_left _ hq
    last := hlast
    filled := fun q hq => by rw [hpart q hq]; exact h.filled q (List.mem_append_left _ hq)
    filled_last := Or.inr (by rw [hp]; exact h.filled p (by simp))
    nalloc_pos := by rw [hnalloc]; exact h.filled p (by simp)
    room := by rw [hp, hnalloc]
    inside := fun q hq => by
      rw [hpart q hq, hpool]; exact h.inside q (List.mem_append_left _ hq)
    inside_last := by rw [hp, hnalloc, hpool]; exact h.inside p (by simp)
    disjoint := by
      rw [flatMap_live_congr hpart, hp, hwin]
      exact h.disjoint.sublist (by simp) }

theorem unlink (h : sh.Chain l (as ++ p :: cur :: bs) fin) (hpool : sh'.pool = sh.pool)
    (hpart : ∀ q ∈ as ++ bs ++ [fin], sh'.part q = sh.part q)
    (hp : sh'.part p = { sh.part p with next := (sh.part cur).next })
    (hlast : (sh'.header l).last = some fin)
    (hnalloc : (sh'.header l).nalloc = (sh.header l).nalloc) :
    sh'.Chain l (as ++ p :: bs) fin := by
  obtain ⟨hla, hlp, hlc, hlb⟩ := linkedTo_append.mp h.linked
  have has : ∀ q ∈ as, sh'.part q = sh.part q := fun q hq => hpart q (by simp [hq])
  have hbs : ∀ q ∈ bs, sh'.part q = sh.part q := fun q hq => hpart q (by simp [hq])
  have hfin : sh'.part fin = sh.part fin := hpart fin (by simp)
  have hmem : ∀ q ∈ as ++ p :: bs, q ∈ as ++ p :: cur :: bs := by
    intro q hq
    simp only [List.mem_append, List.mem_cons] at hq ⊢
    tauto
  have hsame : ∀ q ∈ as ++ p :: bs, sh'.live q = sh.live q ∧
      (sh'.part q).elts = (sh.part q).elts ∧ (sh'.part q).nelts = (sh.part q).nelts := by
    intro q hq
    rcases List.mem_append.mp hq with hq | hq
    · rw [live, has q hq]; exact ⟨rfl, rfl, rfl⟩
    · rcases List.mem_cons.mp hq with rfl | hq
      · rw [live, hp]; exact ⟨rfl, rfl, rfl⟩
      · rw [live, hbs q hq]; exact ⟨rfl, rfl, rfl⟩
  exact {
    head := by
      have := h.head
      cases as <;> simpa using this
    linked := linkedTo_append.mpr ⟨by simpa using hla.congr fun q hq => by rw [has q hq],
      by rw [hp]; exact hlc, hlb.congr fun q hq => by rw [hbs q hq]⟩
    ends := by rw [hfin]; exact h.ends
    allocated := fun q hq => by
      rw [hpool]
      apply h.allocated q
      cases as <;> simp only [List.nil_append, List.cons_append, List.tail_cons] at hq ⊢
      · exact List.mem_cons_of_mem _ hq
      · simp only [List.mem_append, List.mem_cons] at hq ⊢
        tauto
    last := hlast
    filled := fun q hq => by rw [(hsame q hq).2.2]; exact h.filled q (hmem q hq)
    filled_last := Or.inr (by rw [hfin]; exact h.filled_last.resolve_left (by simp))
    nalloc_pos := hnalloc ▸ h.nalloc_pos
    room := by rw [hfin, hnalloc]; exact h.room
    inside := fun q hq => by
      rw [(hsame q hq).2.1, (hsame q hq).2.2, hpool]; exact h.inside q (hmem q hq)
    inside_last := by rw [hfin, hnalloc, hpool]; exact h.inside_last
    disjoint := by
      rw [List.flatMap_congr fun q hq => (hsame q hq).1, hfin, hnalloc]
      refine h.disjoint.sublist (List.Sublist.append_right ?_ _)
      simp only [List.flatMap_append, List.flatMap_cons]
      exact List.Sublist.append_left (List.Sublist.append_left
        (List.sublist_append_right _ _) _) _ }

theorem overwrite_last (h : sh.Chain l [.inline l] fin) (hpool : sh'.pool = sh.pool)
    (hp : sh'.part (.inline l) = sh.part fin)
    (hlast : (sh'.header l).last = some (.inline l))
    (hnalloc : (sh'.header l).nalloc = (sh.part fin).nelts) : sh'.Chain l [] (.inline l) := by
  have hpos : 1 ≤ (sh.part fin).nelts := h.filled_last.resolve_left (by simp)
  exact {
    head := rfl
    linked := trivial
    ends := by rw [hp]; exact h.ends
    allocated := by simp
    last := hlast
    filled := by simp
    filled_last := Or.inl rfl
    nalloc_pos := hnalloc ▸ hpos
    room := by rw [hp, hnalloc]
    inside := by simp
    inside_last := by
      rw [hp, hnalloc, hpool]
      exact h.inside_last.mono le_rfl (by have := h.room; omega)
    disjoint := by simp [List.nodup_range'] }

theorem overwrite (h : sh.Chain l (.inline l :: q :: bs) fin) (hpool : sh'.pool = sh.pool)
    (hp : sh'.part (.inline l) = sh.part q)
    (hpart : ∀ r ∈ bs ++ [fin], sh'.part r = sh.part r)
    (hlast : (sh'.header l).last = some fin)
    (hnalloc : (sh'.header l).nalloc = (sh.header l).nalloc) :
    sh'.Chain l (.inline l :: bs) fin := by
  have hbs : ∀ r ∈ bs, sh'.part r = sh.part r := fun r hr => hpart r (by simp [hr])
  have hfin : sh'.part fin = sh.part fin := hpart fin (by simp)
  obtain ⟨-, hlq, hlb⟩ := h.linked
  exact {
    head := rfl
    linked := ⟨by rw [hp]; exact hlq, hlb.congr fun r hr => by rw [hbs r hr]⟩
    ends := by rw [hfin]; exact h.ends
    allocated := fun r hr => by
      rw [hpool]
      exact h.allocated r (List.mem_cons_of_mem _ hr)
    last := hlast
    filled := fun r hr => by
      rcases List.mem_cons.mp hr with rfl | hr
      · rw [hp]; exact h.filled q (by simp)
      · rw [hbs r hr]; exact h.filled r (by simp [hr])
    filled_last := Or.inr (by rw [hfin]; exact h.filled_last.resolve_left (by simp))
    nalloc_pos := hnalloc ▸ h.nalloc_pos
    room := by rw [hfin, hnalloc]; exact h.room
    inside := fun r hr => by
      rw [hpool]
      rcases List.mem_cons.mp hr with rfl | hr
      · rw [hp]; exact h.inside q (by simp)
      · rw [hbs r hr]; exact h.inside r (by simp [hr])
    inside_last := by rw [hfin, hnalloc, hpool]; exact h.inside_last
    disjoint := by
      have hq : sh'.live (.inline l) = sh.live q := by rw [live, live, hp]
      rw [List.flatMap_cons, hq, flatMap_live_congr hbs, hfin, hnalloc]
      refine h.disjoint.sublist (List.Sublist.append_right ?_ _)
      simp only [List.flatMap_cons]
      exact List.sublist_append_right _ _ }

theorem halves_sublist {a n m : ℕ} (hi : i < n) (hm : n ≤ m) :
    (List.range' a i ++ List.range' (a + (i + 1)) (n - i - 1)).Sublist (List.range' a m) := by
  have hs : List.range' a m = List.range' a i ++ List.range' (a + i) (m - i) := by
    rw [List.range'_append_1]
    congr 1
    omega
  rw [hs]
  exact List.Sublist.append_left (range'_sublist_range' (by omega) (by omega)) _

theorem split (h : sh.Chain l (as ++ cur :: bs) fin) {r : Pool} (hr : sh.pool.Grows r)
    (hn : sh.pool.nodes < r.nodes) (hpool : sh'.pool = r) (hi : 0 < i)
    (hi' : i + 1 < (sh.part cur).nelts)
    (hcur : sh'.part cur =
      ⟨(sh.part cur).elts, i, some (.node sh.pool.nodes)⟩)
    (hnew : sh'.part (.node sh.pool.nodes) =
      ⟨(sh.part cur).elts + (i + 1), (sh.part cur).nelts - i - 1, (sh.part cur).next⟩)
    (hpart : ∀ q ∈ as ++ bs ++ [fin], sh'.part q = sh.part q)
    (hlast : (sh'.header l).last = some fin)
    (hnalloc : (sh'.header l).nalloc = (sh.header l).nalloc) :
    sh'.Chain l (as ++ cur :: .node sh.pool.nodes :: bs) fin := by
  obtain ⟨hla, hlc, hlb⟩ := linkedTo_append.mp h.linked
  have has : ∀ q ∈ as, sh'.part q = sh.part q := fun q hq => hpart q (by simp [hq])
  have hbs : ∀ q ∈ bs, sh'.part q = sh.part q := fun q hq => hpart q (by simp [hq])
  have hfin : sh'.part fin = sh.part fin := hpart fin (by simp)
  have hin := h.inside cur (by simp)
  have hcases : ∀ q ∈ as ++ cur :: .node sh.pool.nodes :: bs,
      (q ∈ as ∨ q ∈ bs) ∨ q = cur ∨ q = .node sh.pool.nodes := by
    intro q hq
    simp only [List.mem_append, List.mem_cons] at hq
    tauto
  have hkeep : ∀ q, q ∈ as ∨ q ∈ bs → q ∈ as ++ cur :: bs ∧ sh'.part q = sh.part q := by
    rintro q (hq | hq)
    · exact ⟨by simp [hq], has q hq⟩
    · exact ⟨by simp [hq], hbs q hq⟩
  exact {
    head := by
      have := h.head
      cases as <;> simpa using this
    linked := linkedTo_append.mpr ⟨by simpa using hla.congr fun q hq => by rw [has q hq],
      by rw [hcur]; rfl, by rw [hnew]; exact hlc, hlb.congr fun q hq => by rw [hbs q hq]⟩
    ends := by rw [hfin]; exact h.ends
    allocated := fun q hq => by
      rw [hpool]
      have hold : q = .node sh.pool.nodes ∨ q ∈ ((as ++ cur :: bs) ++ [fin]).tail := by
        cases as <;> simp only [List.nil_append, List.cons_append, List.tail_cons,
          List.mem_append, List.mem_cons] at hq ⊢ <;> tauto
      rcases hold with rfl | hq
      · exact ⟨_, hn, rfl⟩
      · obtain ⟨n, hlt, rfl⟩ := h.allocated q hq
        exact ⟨n, hlt.trans_le hr.nodes, rfl⟩
    last := hlast
    filled := fun q hq => by
      rcases hcases q hq with hq | rfl | rfl
      · rw [(hkeep q hq).2]; exact h.filled q (hkeep q hq).1
      · rw [hcur]; exact hi
      · rw [hnew]; show 1 ≤ _ - i - 1; omega
    filled_last := Or.inr (by rw [hfin]; exact h.filled_last.resolve_left (by simp))
    nalloc_pos := hnalloc ▸ h.nalloc_pos
    room := by rw [hfin, hnalloc]; exact h.room
    inside := fun q hq => by
      rw [hpool]
      rcases hcases q hq with hq | rfl | rfl
      · rw [(hkeep q hq).2]; exact hr.inside (h.inside q (hkeep q hq).1)
      · rw [hcur]; exact hr.inside (hin.mono le_rfl (by simp only; omega))
      · rw [hnew]; exact hr.inside (hin.mono (by simp only; omega) (by simp only; omega))
    inside_last := by rw [hfin, hnalloc, hpool]; exact hr.inside h.inside_last
    disjoint := by
      rw [hfin, hnalloc]
      refine h.disjoint.sublist (List.Sublist.append_right ?_ _)
      simp only [List.flatMap_append, List.flatMap_cons, flatMap_live_congr has,
        flatMap_live_congr hbs, ← List.append_assoc (sh'.live cur)]
      refine List.Sublist.append_left (List.Sublist.append_right ?_ _) _
      simp only [live, hcur, hnew]
      exact halves_sublist (by omega) le_rfl }

theorem split_last (h : sh.Chain l init fin) {r : Pool} (hr : sh.pool.Grows r)
    (hn : sh.pool.nodes < r.nodes) (hpool : sh'.pool = r) (hi : 0 < i)
    (hi' : i + 1 < (sh.part fin).nelts)
    (hcur : sh'.part fin =
      ⟨(sh.part fin).elts, i, some (.node sh.pool.nodes)⟩)
    (hnew : sh'.part (.node sh.pool.nodes) =
      ⟨(sh.part fin).elts + (i + 1), (sh.part fin).nelts - i - 1, none⟩)
    (hpart : ∀ q ∈ init, sh'.part q = sh.part q)
    (hlast : (sh'.header l).last = some (.node sh.pool.nodes))
    (hnalloc : (sh'.header l).nalloc = (sh.part fin).nelts - i - 1) :
    sh'.Chain l (init ++ [fin]) (.node sh.pool.nodes) := by
  have hroom := h.room
  exact {
    head := by simpa using congrArg (Option.or · (some (.node sh.pool.nodes))) h.head
    linked := linkedTo_append.mpr
      ⟨h.linked.congr fun q hq => by rw [hpart q hq], by simp [hcur], trivial⟩
    ends := by rw [hnew]
    allocated := fun q hq => by
      rw [hpool]
      rw [List.tail_append_of_ne_nil (by simp)] at hq
      rcases List.mem_append.mp hq with hq | hq
      · obtain ⟨n, hlt, rfl⟩ := h.allocated q hq
        exact ⟨n, hlt.trans_le hr.nodes, rfl⟩
      · exact ⟨_, hn, List.mem_singleton.mp hq⟩
    last := hlast
    filled := fun q hq => by
      rcases List.mem_append.mp hq with hq | hq
      · rw [hpart q hq]; exact h.filled q hq
      · rw [List.mem_singleton.mp hq, hcur]; exact hi
    filled_last := Or.inr (by rw [hnew]; show 1 ≤ _ - i - 1; omega)
    nalloc_pos := by omega
    room := by rw [hnew, hnalloc]
    inside := fun q hq => by
      rw [hpool]
      rcases List.mem_append.mp hq with hq | hq
      · rw [hpart q hq]; exact hr.inside (h.inside q hq)
      · rw [List.mem_singleton.mp hq, hcur]
        exact hr.inside (h.inside_last.mono le_rfl (by simp only; omega))
    inside_last := by
      rw [hpool, hnew, hnalloc]
      exact hr.inside (h.inside_last.mono (by simp only; omega) (by simp only; omega))
    disjoint := by
      rw [List.flatMap_append, flatMap_live_congr hpart, hnew, hnalloc, List.append_assoc]
      refine h.disjoint.sublist (List.Sublist.append_left ?_ _)
      simp only [List.flatMap_singleton, live, hcur]
      exact halves_sublist (by omega) h.room }

end Chain

end Shape

end Segments
