import HeadersControl.Base.Nginx
import HeadersControl.Segments.Edit
import Mathlib.Logic.Relation

/-! # Removing an entry of the request header list

`rmHeaderHelper` takes one slot out of a segmented list without moving any other
element: it narrows or splits the part that holds the slot, or drops a part that
becomes empty. On a well-formed list it erases exactly that slot, and runs of
removals and pushes never reuse a slot that is still in the list.
-/

namespace HeadersControl

open Segments Segments.Shape

variable {ρ : Type*} [DecidableEq ρ]

/-- The loop `while (part->next != cur)`; `none` when it runs into NULL. -/
def findPrev (sh : Shape ρ) (cur : PartPtr ρ) : ℕ → PartPtr ρ → Except Fault (Option (PartPtr ρ))
  | 0, _ => .error .endless
  | n + 1, part =>
      if (sh.part part).next = some cur then .ok (some part)
      else match (sh.part part).next with
        | none => .ok none
        | some part' => findPrev sh cur n part'

def rmFirst (sh : Shape ρ) (l : ρ) (cur : PartPtr ρ) : Except Fault (Rc × Shape ρ) :=
  let c := sh.part cur
  let sh := sh.setPart cur { c with elts := c.elts + 1, nelts := c.nelts - 1 }
  if (sh.header l).last = some cur then
    if c.nelts - 1 = 0 then
      if cur = .inline l then .ok (.ok, sh.setPart cur { c with nelts := c.nelts - 1 })
      else do
        match ← findPrev sh cur (sh.pool.nodes + 1) (.inline l) with
        | none => .ok (.error, sh)
        | some part =>
            let sh := sh.setLast l (some part)
            let sh := sh.setPart part { sh.part part with next := none }
            .ok (.ok, sh.setNalloc l (sh.part part).nelts)
    else .ok (.ok, sh.setNalloc l ((sh.header l).nalloc - 1))
  else if c.nelts - 1 = 0 then
    if cur = .inline l then
      match c.next with
      | none => .error .assertion
      | some next =>
          let sh' := sh.setPart (.inline l) (sh.part next)
          if (sh.header l).last = some next then
            let sh' := sh'.setLast l (some (.inline l))
            .ok (.ok, sh'.setNalloc l (sh'.part (.inline l)).nelts)
          else .ok (.ok, sh')
    else do
      match ← findPrev sh cur (sh.pool.nodes + 1) (.inline l) with
      | none => .ok (.error, sh)
      | some part => .ok (.ok, sh.setPart part { sh.part part with next := c.next })
  else .ok (.ok, sh)

def rmMiddle (sh : Shape ρ) (l : ρ) (cur : PartPtr ρ) (i : ℕ) : Except Fault (Rc × Shape ρ) :=
  let c := sh.part cur
  match sh.pool.allocNode with
  | (none, pool) => .ok (.error, sh.setPool pool)
  | (some n, pool) =>
      let new : ListPart ρ := ⟨c.elts + (i + 1), c.nelts - i - 1, c.next⟩
      let sh := (sh.setPool pool).setPart (.node n) new
      let sh := sh.setPart cur { c with nelts := i, next := some (.node n) }
      if (sh.header l).last = some cur then
        .ok (.ok, (sh.setLast l (some (.node n))).setNalloc l new.nelts)
      else .ok (.ok, sh)

/-- Take slot `i` of part `cur` out of the list `l`. -/
def rmHeaderHelper (sh : Shape ρ) (l : ρ) (cur : PartPtr ρ) (i : ℕ) :
    Except Fault (Rc × Shape ρ) :=
  let c := sh.part cur
  if i = 0 then rmFirst sh l cur
  else if i = c.nelts - 1 then
    let sh := sh.setPart cur { c with nelts := c.nelts - 1 }
    if (sh.header l).last = some cur then .ok (.ok, sh.setNalloc l (c.nelts - 1))
    else .ok (.ok, sh)
  else rmMiddle sh l cur i

variable {sh sh' : Shape ρ} {l : ρ} {init as bs : List (PartPtr ρ)} {fin cur p : PartPtr ρ}
  {i s : ℕ}

theorem findPrev_of_linkedTo {o : Option (PartPtr ρ)} {q : PartPtr ρ} {n : ℕ}
    (h : sh.LinkedTo (as ++ p :: cur :: bs) o) (hq : (as ++ [p]).head? = some q)
    (hcur : cur ∉ as ++ [p]) (hn : as.length < n) : findPrev sh cur n q = .ok (some p) := by
  induction as generalizing q n with
  | nil =>
    obtain _ | n := n
    · simp at hn
    · obtain rfl : p = q := by simpa using hq
      have hp : (sh.part p).next = some cur := h.1
      simp [findPrev, hp]
  | cons a as ih =>
    obtain _ | n := n
    · simp at hn
    · obtain rfl : a = q := by simpa using hq
      have hcur' : cur ∉ as ++ [p] := fun hm => hcur (List.mem_cons_of_mem _ hm)
      obtain ⟨b, hb⟩ : ∃ b, (as ++ [p]).head? = some b := by cases as <;> simp
      have ha : (sh.part a).next = some b := by
        rw [h.1]
        cases as <;> simpa using hb
      have hne : b ≠ cur := by
        rintro rfl
        exact hcur' (List.mem_of_mem_head? hb)
      simp only [findPrev, ha, Option.some.injEq, hne, if_false]
      exact ih h.2 hb hcur' (by simpa using hn)

theorem findPrev_setPart (h : sh.Chain l init fin) (hc : init ++ [fin] = as ++ p :: cur :: bs)
    {v : ListPart ρ} (hv : v.next = (sh.part cur).next) :
    findPrev (sh.setPart cur v) cur (sh.pool.nodes + 1) (.inline l) = .ok (some p) := by
  have hnext : ∀ q, ((sh.setPart cur v).part q).next = (sh.part q).next := by
    intro q
    by_cases hq : q = cur
    · simp [hq, hv]
    · rw [part_setPart_of_ne _ _ hq]
  have hn := h.nodup
  have hd := h.head
  have hlen := congrArg List.length hc
  have hle := h.length_le
  rw [hc] at hn hd
  refine findPrev_of_linkedTo (o := none) ((hc ▸ h.linkedTo).congr fun q _ => hnext q) ?_ ?_ ?_
  · cases as <;> simpa using hd
  · intro hm
    have he : as ++ p :: cur :: bs = (as ++ [p]) ++ cur :: bs := by simp
    rw [he] at hn
    exact (List.nodup_append.mp hn).2.2 _ hm _ List.mem_cons_self rfl
  · simp at hlen
    omega

/-- What removing slot `i` of `cur` must leave: the other slots, in order, in a chain. -/
def Removed (sh : Shape ρ) (l : ρ) (cur : PartPtr ρ) (i : ℕ) (sh' : Shape ρ) : Prop :=
  sh.pool.Grows sh'.pool ∧ sh'.WellFormed l ∧ sh'.slots l = (sh.slots l).erase (sh.addr cur i)

omit [DecidableEq ρ] in
theorem erase_first (h : sh.Chain l init fin) (hc : init ++ [fin] = as ++ cur :: bs)
    (hpos : 0 < (sh.part cur).nelts) :
    (sh.slots l).erase (sh.addr cur 0) = as.flatMap sh.live ++
      (List.range' ((sh.part cur).elts + 1) ((sh.part cur).nelts - 1) ++ bs.flatMap sh.live) := by
  rw [h.erase_slots hc hpos, erase_live hpos]
  simp

omit [DecidableEq ρ] in
theorem removed_narrow (as bs : List (PartPtr ρ)) (h : sh.Chain l init fin)
    (hc : init ++ [fin] = as ++ cur :: bs)
    (h' : sh'.Chain l init fin) (hpool : sh'.pool = sh.pool)
    (hcur : (sh'.part cur).elts = (sh.part cur).elts + 1 ∧
      (sh'.part cur).nelts = (sh.part cur).nelts - 1)
    (hpos : 0 < (sh.part cur).nelts)
    (hpart : ∀ q ∈ as ++ bs, sh'.part q = sh.part q) : Removed sh l cur 0 sh' := by
  refine ⟨hpool ▸ Pool.Grows.refl _, h'.wellFormed, ?_⟩
  rw [erase_first h hc hpos, Shape.slots, h'.chain_eq, hc, List.flatMap_append,
    List.flatMap_cons, flatMap_live_congr fun q hq => hpart q (List.mem_append_left _ hq),
    flatMap_live_congr fun q hq => hpart q (List.mem_append_right _ hq)]
  simp [live, hcur]

omit [DecidableEq ρ] in
theorem removed_drop (as bs : List (PartPtr ρ)) {init' : List (PartPtr ρ)} {fin' : PartPtr ρ}
    (h : sh.Chain l init fin)
    (hc : init ++ [fin] = as ++ cur :: bs) (h' : sh'.Chain l init' fin')
    (hpool : sh'.pool = sh.pool) (hone : (sh.part cur).nelts = 1)
    (hlive : (init' ++ [fin']).flatMap sh'.live = (as ++ bs).flatMap sh.live) :
    Removed sh l cur 0 sh' := by
  refine ⟨hpool ▸ Pool.Grows.refl _, h'.wellFormed, ?_⟩
  rw [erase_first h hc (by omega), Shape.slots, h'.chain_eq, hlive, hone]
  simp

theorem rmFirst_sole (h : sh.Chain l [] fin) (hone : (sh.part fin).nelts = 1) :
    ∃ sh', rmFirst sh l fin = .ok (.ok, sh') ∧ Removed sh l fin 0 sh' := by
  obtain rfl : fin = .inline l := by simpa using h.head
  refine ⟨_, by simp [rmFirst, h.last, hone]; rfl, ?_⟩
  have h' : Shape.Chain ((sh.setPart (.inline l)
      { sh.part (.inline l) with elts := (sh.part (.inline l)).elts + 1, nelts := 0 }).setPart
        (.inline l) { sh.part (.inline l) with nelts := 0 }) l [] (.inline l) := h.resize
    (by simp) (by simp) (by simpa using h.last) (by simp) ⟨by simp, by simp⟩ (by simp)
    (by simpa using h.nalloc_pos) (Or.inl rfl)
  exact removed_drop [] [] h rfl h' (by simp) hone (by simp [live])

theorem rmFirst_dropLast (h : sh.Chain l (as ++ [p]) fin) (hone : (sh.part fin).nelts = 1) :
    ∃ sh', rmFirst sh l fin = .ok (.ok, sh') ∧ Removed sh l fin 0 sh' := by
  have hn := h.nodup
  have hc : as ++ [p] ++ [fin] = as ++ p :: fin :: [] := by simp
  have hinl : fin ≠ .inline l := h.ne_inline hc
  have hp : p ≠ fin := h.ne_fin (by simp)
  have has : ∀ q ∈ as, q ≠ p ∧ q ≠ fin := fun q hq =>
    ⟨(List.nodup_append.mp h.nodup_init).2.2 q hq p (by simp), h.ne_fin (by simp [hq])⟩
  have hfind := findPrev_setPart h hc
    (v := { sh.part fin with elts := (sh.part fin).elts + 1, nelts := 0 }) rfl
  refine ⟨_, by simp [rmFirst, h.last, hone, hinl, hfind, bind, Except.bind]; rfl, ?_⟩
  refine removed_drop (as ++ [p]) [] h (by simp)
    (h.dropLast (by simp) (fun q hq => ?_) ?_ (by simp) ?_) (by simp) hone ?_
  · simp [part_setPart_of_ne _ _ (has q hq).1, part_setPart_of_ne _ _ (has q hq).2]
  · simp [part_setPart_of_ne _ _ hp]
  · simp [part_setPart_of_ne _ _ hp]
  · rw [List.append_nil, List.flatMap_append, List.flatMap_append]
    congr 1
    · apply flatMap_live_congr
      intro q hq
      simp [part_setPart_of_ne _ _ (has q hq).1, part_setPart_of_ne _ _ (has q hq).2]
    · simp [live, part_setPart_of_ne _ _ hp]

theorem rmFirst_narrowLast (h : sh.Chain l init fin) (hpos : 1 < (sh.part fin).nelts) :
    ∃ sh', rmFirst sh l fin = .ok (.ok, sh') ∧ Removed sh l fin 0 sh' := by
  have hroom := h.room
  have hnone : (sh.part fin).nelts - 1 ≠ 0 := by omega
  have hne : ∀ v, ∀ q ∈ init, (sh.setPart fin v).part q = sh.part q := fun v q hq =>
    part_setPart_of_ne _ _ (h.ne_fin hq)
  refine ⟨_, by simp [rmFirst, h.last, hnone]; rfl, ?_⟩
  have h' : Shape.Chain ((sh.setPart fin
      { sh.part fin with elts := (sh.part fin).elts + 1, nelts := (sh.part fin).nelts - 1 }
      ).setNalloc l ((sh.header l).nalloc - 1)) l init fin := h.resize (by simp)
    (fun q hq => by
      rcases List.mem_append.mp hq with hq | hq
      · simp [hne _ q hq]
      · simp [List.mem_singleton.mp hq])
    (by simpa using h.last) (fun q hq => by simpa [hne _ q hq] using h.filled q hq)
    ⟨by simp, by simp; omega⟩ (by simp; omega) (by simp; omega) (Or.inr (by simp; omega))
  exact removed_narrow init [] h rfl h' (by simp) (by simp) (by omega)
    fun q hq => by simpa using hne _ q (by simpa using hq)

theorem rmFirst_overwrite (h : sh.Chain l (.inline l :: bs) fin)
    (hone : (sh.part (.inline l)).nelts = 1) :
    ∃ sh', rmFirst sh l (.inline l) = .ok (.ok, sh') ∧ Removed sh l (.inline l) 0 sh' := by
  have hn := h.nodup
  have hfin : PartPtr.inline l ≠ fin := h.ne_fin (by simp)
  cases bs with
  | nil =>
    have hnext : (sh.part (.inline l)).next = some fin := h.linked.1
    refine ⟨_, by simp [rmFirst, h.last, hone, hfin.symm, hnext]; rfl, ?_⟩
    have hpart : (sh.setPart (.inline l) { sh.part (.inline l) with
        elts := (sh.part (.inline l)).elts + 1, nelts := 0 }).part fin = sh.part fin :=
      part_setPart_of_ne _ _ hfin.symm
    refine removed_drop [] [fin] h rfl
      (h.overwrite_last (by simp) ?_ (by simp) ?_) (by simp) hone ?_
    · simp [← hnext, hpart]
    · simp [← hnext, hpart]
    · simp [live, ← hnext, hpart]
  | cons q bs =>
    have hnext : (sh.part (.inline l)).next = some q := h.linked.1
    have hq : q ≠ .inline l := by rintro rfl; simp at hn
    have hqf : fin ≠ q := (h.ne_fin (by simp)).symm
    have hrest : ∀ r ∈ bs ++ [fin], r ≠ .inline l := by
      rintro r hr rfl
      rw [List.cons_append, List.cons_append, List.nodup_cons] at hn
      exact hn.1 (List.mem_cons_of_mem _ hr)
    refine ⟨_, by simp [rmFirst, h.last, hone, hfin.symm, hnext, hqf]; rfl, ?_⟩
    have hpart : ∀ v r, r ≠ .inline l → (sh.setPart (.inline l) v).part r = sh.part r :=
      fun v r hr => part_setPart_of_ne _ _ hr
    refine removed_drop [] (q :: bs ++ [fin]) h rfl
      (h.overwrite (by simp) ?_ (fun r hr => ?_) (by simpa using h.last) (by simp)) (by simp)
      hone ?_
    · simp [← hnext, hpart _ q hq]
    · rw [part_setPart_of_ne _ _ (hrest r hr), hpart _ r (hrest r hr)]
    · rw [List.cons_append, List.flatMap_cons, List.nil_append, List.cons_append,
        List.flatMap_cons]
      congr 1
      · simp [live, ← hnext, hpart _ q hq]
      · apply flatMap_live_congr
        intro r hr
        rw [part_setPart_of_ne _ _ (hrest r hr), hpart _ r (hrest r hr)]

theorem rmFirst_unlink (h : sh.Chain l (as ++ p :: cur :: bs) fin)
    (hone : (sh.part cur).nelts = 1) :
    ∃ sh', rmFirst sh l cur = .ok (.ok, sh') ∧ Removed sh l cur 0 sh' := by
  have hn := h.nodup_init
  have hcf : cur ≠ fin := h.ne_fin (by simp)
  have hc : as ++ p :: cur :: bs ++ [fin] = as ++ p :: cur :: (bs ++ [fin]) := by simp
  have hinl : cur ≠ .inline l := h.ne_inline hc
  have hpc : p ≠ cur := by
    rintro rfl
    simp [List.nodup_append] at hn
  have hpart : ∀ q ∈ as ++ bs ++ [fin], q ≠ p ∧ q ≠ cur := by
    intro q hq
    have hpf : fin ≠ p := (h.ne_fin (by simp)).symm
    simp only [List.nodup_append, List.nodup_cons, List.mem_cons, not_or] at hn
    simp only [List.mem_append, List.mem_singleton] at hq
    rcases hq with (hq | hq) | rfl
    · exact ⟨hn.2.2 q hq p (by simp), hn.2.2 q hq cur (by simp)⟩
    · exact ⟨fun he => hn.2.1.1.2 (he ▸ hq), fun he => hn.2.1.2.1 (he ▸ hq)⟩
    · exact ⟨hpf, hcf.symm⟩
  have hfind := findPrev_setPart h hc
    (v := { sh.part cur with elts := (sh.part cur).elts + 1, nelts := 0 }) rfl
  refine ⟨_, by simp [rmFirst, h.last, hone, hcf.symm, hinl, hfind, bind, Except.bind]; rfl, ?_⟩
  have hsame : ∀ v w, ∀ q ∈ as ++ bs ++ [fin],
      ((sh.setPart cur v).setPart p w).part q = sh.part q := fun v w q hq => by
    rw [part_setPart_of_ne _ _ (hpart q hq).1, part_setPart_of_ne _ _ (hpart q hq).2]
  refine removed_drop (as ++ [p]) (bs ++ [fin]) h (by simp)
    (h.unlink (by simp) (hsame _ _) ?_ (by simpa using h.last) (by simp)) (by simp) hone ?_
  · simp [part_setPart_of_ne _ _ hpc]
  · simp only [List.flatMap_append, List.flatMap_cons, List.append_assoc]
    rw [flatMap_live_congr fun q hq => hsame _ _ q (by simp [hq]),
      flatMap_live_congr fun q hq => hsame _ _ q (by simp [hq])]
    simp [live, part_setPart_of_ne _ _ hpc, hsame _ _ fin (by simp)]

theorem rmFirst_narrow (h : sh.Chain l (as ++ cur :: bs) fin) (hpos : 1 < (sh.part cur).nelts) :
    ∃ sh', rmFirst sh l cur = .ok (.ok, sh') ∧ Removed sh l cur 0 sh' := by
  have hcf : cur ≠ fin := h.ne_fin (by simp)
  have hnone : (sh.part cur).nelts - 1 ≠ 0 := by omega
  have hpart : ∀ q ∈ as ++ (bs ++ [fin]), q ≠ cur := fun q hq => h.ne_of_split (by simp) hq
  have hsame : ∀ v, ∀ q, q ≠ cur → (sh.setPart cur v).part q = sh.part q := fun v q hq =>
    part_setPart_of_ne _ _ hq
  refine ⟨_, by simp [rmFirst, h.last, hcf.symm, hnone]; rfl, ?_⟩
  have h' : Shape.Chain (sh.setPart cur
      { sh.part cur with elts := (sh.part cur).elts + 1, nelts := (sh.part cur).nelts - 1 })
      l (as ++ cur :: bs) fin := h.resize
    (by simp)
    (fun q hq => by
      by_cases hq' : q = cur
      · simp [hq']
      · rw [hsame _ q hq'])
    (by simpa using h.last)
    (fun q hq => by
      by_cases hq' : q = cur
      · subst hq'; simp; omega
      · simpa [hsame _ q hq'] using h.filled q hq)
    (by simp [hsame _ fin hcf.symm]) (by simpa [hsame _ fin hcf.symm] using h.room)
    (by simpa using h.nalloc_pos)
    (Or.inr (by simpa [hsame _ fin hcf.symm] using h.filled_last.resolve_left (by simp)))
  exact removed_narrow as (bs ++ [fin]) h (by simp) h' (by simp) (by simp)
    (by omega) fun q hq => hsame _ q (hpart q hq)

theorem rmFirst_spec (h : sh.Chain l init fin) (hc : init ++ [fin] = as ++ cur :: bs)
    (hpos : 0 < (sh.part cur).nelts) :
    ∃ sh', rmFirst sh l cur = .ok (.ok, sh') ∧ Removed sh l cur 0 sh' := by
  rcases h.cases hc with ⟨rfl, rfl, rfl⟩ | ⟨bs', rfl, rfl, -⟩
  · by_cases hone : (sh.part cur).nelts = 1
    · rcases List.eq_nil_or_concat as with rfl | ⟨as, p, rfl⟩
      · exact rmFirst_sole h hone
      · exact rmFirst_dropLast (by simpa using h) hone
    · exact rmFirst_narrowLast h (by omega)
  · by_cases hone : (sh.part cur).nelts = 1
    · rcases List.eq_nil_or_concat as with rfl | ⟨as, p, rfl⟩
      · obtain rfl : cur = .inline l := by simpa using h.head
        exact rmFirst_overwrite h hone
      · exact rmFirst_unlink (by simpa using h) hone
    · exact rmFirst_narrow h (by omega)

theorem rmLast_spec (h : sh.Chain l init fin) (hc : init ++ [fin] = as ++ cur :: bs)
    (hi : i ≠ 0) (hlast : i + 1 = (sh.part cur).nelts) :
    ∃ sh', rmHeaderHelper sh l cur i = .ok (.ok, sh') ∧ Removed sh l cur i sh' := by
  have hroom := h.room
  have hi' : i = (sh.part cur).nelts - 1 := by omega
  have hsame : ∀ v, ∀ q, q ≠ cur → (sh.setPart cur v).part q = sh.part q := fun v q hq =>
    part_setPart_of_ne _ _ hq
  have hpart : ∀ q ∈ as ++ bs, q ≠ cur := fun q hq => h.ne_of_split hc hq
  -- whichever part it is, its window loses the last element
  have hremoved : ∀ sh', sh'.Chain l init fin → sh'.pool = sh.pool →
      (∀ q, sh'.part q = (sh.setPart cur
        { sh.part cur with nelts := (sh.part cur).nelts - 1 }).part q) →
      Removed sh l cur i sh' := by
    intro sh' h' hpool hp
    refine ⟨hpool ▸ Pool.Grows.refl _, h'.wellFormed, ?_⟩
    rw [h.erase_slots hc (by omega), erase_live (by omega), Shape.slots, h'.chain_eq, hc,
      List.flatMap_append, List.flatMap_cons,
      flatMap_live_congr fun q hq => (hp q).trans (hsame _ q (hpart q (by simp [hq]))),
      flatMap_live_congr fun q hq => (hp q).trans (hsame _ q (hpart q (by simp [hq])))]
    have hz : (sh.part cur).nelts - i - 1 = 0 := by omega
    simp [live, hp, ← hi', hz]
  rcases h.cases hc with ⟨rfl, rfl, rfl⟩ | ⟨bs', rfl, rfl, hcf⟩
  · refine ⟨_, by simp [rmHeaderHelper, hi, ← hi', h.last]; rfl, hremoved _ ?_ (by simp) ?_⟩
    · have hne : ∀ q ∈ as, q ≠ cur := fun q hq => h.ne_fin hq
      exact h.resize (by simp)
        (fun q hq => by
          rcases List.mem_append.mp hq with hq | hq
          · simp [hsame _ q (hne q hq)]
          · simp [List.mem_singleton.mp hq])
        (by simpa using h.last)
        (fun q hq => by simpa [hsame _ q (hne q hq)] using h.filled q hq)
        ⟨by simp, by simp; omega⟩ (by simp [hi']) (by simp; omega) (Or.inr (by simp; omega))
    · intro q
      simp [hi']
  · refine ⟨_, by simp [rmHeaderHelper, hi, ← hi', h.last, hcf.symm]; rfl,
      hremoved _ ?_ (by simp) ?_⟩
    · exact h.resize (by simp)
        (fun q hq => by
          by_cases hq' : q = cur
          · simp [hq']
          · rw [hsame _ q hq'])
        (by simpa using h.last)
        (fun q hq => by
          by_cases hq' : q = cur
          · subst hq'; simp; omega
          · simpa [hsame _ q hq'] using h.filled q hq)
        (by simp [hsame _ fin hcf.symm]) (by simpa [hsame _ fin hcf.symm] using h.room)
        (by simpa using h.nalloc_pos)
        (Or.inr (by simpa [hsame _ fin hcf.symm] using h.filled_last.resolve_left (by simp)))
    · intro q
      rw [hi']

theorem rmMiddle_spec (h : sh.Chain l init fin) (hc : init ++ [fin] = as ++ cur :: bs)
    (hi : 0 < i) (hi' : i + 1 < (sh.part cur).nelts) :
    (∃ q, rmMiddle sh l cur i = .ok (.error, sh.setPool q) ∧ sh.pool.Grows q ∧
      ¬ sh.pool.Reliable) ∨
    ∃ sh', rmMiddle sh l cur i = .ok (.ok, sh') ∧ Removed sh l cur i sh' := by
  unfold rmMiddle
  rcases hA : sh.pool.allocNode with ⟨_ | n, r⟩
  · exact Or.inl ⟨r, by simp, by simpa [hA] using sh.pool.allocNode_grows,
      Pool.allocNode_eq_none hA⟩
  have hr : sh.pool.Grows r := by simpa [hA] using sh.pool.allocNode_grows
  obtain ⟨rfl, hnodes, -⟩ := Pool.allocNode_eq_some hA
  have hfresh : ∀ q ∈ init ++ [fin], q ≠ .node sh.pool.nodes := fun q hq =>
    h.ne_fresh hq le_rfl
  have hcn : cur ≠ .node sh.pool.nodes := hfresh cur (by simp [hc])
  have hpart : ∀ q ∈ as ++ bs, q ≠ cur ∧ q ≠ .node sh.pool.nodes := fun q hq =>
    ⟨h.ne_of_split hc hq, hfresh q (by rw [hc]; simp at hq ⊢; tauto)⟩
  right
  let new : ListPart ρ := ⟨(sh.part cur).elts + (i + 1), (sh.part cur).nelts - i - 1,
    (sh.part cur).next⟩
  let sh' := ((sh.setPool r).setPart (.node sh.pool.nodes) new).setPart cur
    { sh.part cur with nelts := i, next := some (.node sh.pool.nodes) }
  have hcur' : sh'.part cur = ⟨(sh.part cur).elts, i, some (.node sh.pool.nodes)⟩ := by
    simp [sh']
  have hnew' : sh'.part (.node sh.pool.nodes) = new := by
    simp [sh', part_setPart_of_ne _ _ hcn.symm]
  have hsame : ∀ q ∈ as ++ bs, sh'.part q = sh.part q := fun q hq => by
    simp [sh', part_setPart_of_ne _ _ (hpart q hq).1, part_setPart_of_ne _ _ (hpart q hq).2]
  have hremoved : ∀ sh'' init' fin', sh''.Chain l init' fin' →
      (∀ q, sh''.part q = sh'.part q) → sh''.pool = r →
      init' ++ [fin'] = as ++ cur :: .node sh.pool.nodes :: bs → Removed sh l cur i sh'' := by
    intro sh'' init' fin' h'' hp hpool hc''
    refine ⟨hpool ▸ hr, h''.wellFormed, ?_⟩
    rw [h.erase_slots hc (by omega), erase_live (by omega), Shape.slots, h''.chain_eq, hc'',
      List.flatMap_append, List.flatMap_cons, List.flatMap_cons,
      flatMap_live_congr fun q hq => (hp q).trans (hsame q (by simp [hq])),
      flatMap_live_congr fun q hq => (hp q).trans (hsame q (by simp [hq]))]
    simp [live, hp, hcur', hnew', new]
  rcases h.cases hc with ⟨rfl, rfl, rfl⟩ | ⟨bs', rfl, rfl, hcf⟩
  · refine ⟨(sh'.setLast l (some (.node sh.pool.nodes))).setNalloc l new.nelts,
      by simp [h.last, sh', new], ?_⟩
    refine hremoved _ (as ++ [cur]) (.node sh.pool.nodes) (h.split_last hr (by omega)
      (by simp [sh']) hi hi' (by simpa using hcur') ?_ (fun q hq => ?_) (by simp) (by simp [new]))
      (by simp) (by simp [sh']) (by simp)
    · simp [hnew', new, h.ends]
    · simpa using hsame q (by simp [hq])
  · refine ⟨sh', by simp [h.last, sh', new, hcf.symm], ?_⟩
    exact hremoved _ (as ++ cur :: .node sh.pool.nodes :: bs') fin (h.split hr (by omega)
      (by simp [sh']) hi hi' hcur' hnew' (fun q hq => hsame q (by simpa using hq))
      (by simpa [sh'] using h.last) (by simp [sh'])) (fun _ => rfl) (by simp [sh']) (by simp)

/--
On a valid position of a well-formed list the helper erases exactly that slot, or fails for
want of memory without touching the list.
-/
theorem rmHeaderHelper_spec (h : sh.WellFormed l) (hv : sh.Valid l cur i) :
    (∃ q, rmHeaderHelper sh l cur i = .ok (.error, sh.setPool q) ∧ sh.pool.Grows q ∧
      ¬ sh.pool.Reliable) ∨
    ∃ sh', rmHeaderHelper sh l cur i = .ok (.ok, sh') ∧ Removed sh l cur i sh' := by
  obtain ⟨init, fin, h⟩ := h
  obtain ⟨hm, hi⟩ := hv
  rw [h.chain_eq] at hm
  obtain ⟨as, bs, hc⟩ := List.append_of_mem hm
  rcases Nat.eq_zero_or_pos i with rfl | hpos
  · simpa [rmHeaderHelper] using Or.inr (rmFirst_spec h hc hi)
  · rcases (Nat.succ_le_of_lt hi).lt_or_eq with hlt | heq
    · have hne : i ≠ (sh.part cur).nelts - 1 := by omega
      simpa [rmHeaderHelper, hpos.ne', hne] using rmMiddle_spec h hc hpos hlt
    · exact Or.inr (rmLast_spec h hc hpos.ne' heq)

/-! ### Runs of removals and pushes -/

variable {ε : Type*}

abbrev Contents (ρ ε : Type*) := Shape ρ × (ℕ → ε)

def entries (l : ρ) (m : Contents ρ ε) : List (ℕ × ε) := (m.1.slots l).map fun s => (s, m.2 s)

/--
An operation on the list: `rmHeaderHelper` at a valid position, where the caller may scribble
over the removed slot, or `push`, where the caller writes the slot it got.
-/
inductive ListStep (l : ρ) : Contents ρ ε → Contents ρ ε → Prop
  | remove {sh sh' : Shape ρ} {cell : ℕ → ε} {cur : PartPtr ρ} {i : ℕ} (e : ε) :
      sh.Valid l cur i → rmHeaderHelper sh l cur i = .ok (.ok, sh') →
      ListStep l (sh, cell) (sh', Function.update cell (sh.addr cur i) e)
  | push {sh sh' : Shape ρ} {cell : ℕ → ε} {s : ℕ} (e : ε) :
      sh.push l = .ok (some s, sh') → ListStep l (sh, cell) (sh', Function.update cell s e)

/-- What the list is for: a sequence from which elements are taken and to which they are added. -/
inductive SeqStep : List (ℕ × ε) → List (ℕ × ε) → Prop
  | remove {xs : List (ℕ × ε)} (s : ℕ) : SeqStep xs (xs.filter fun x => x.1 ≠ s)
  | push {xs : List (ℕ × ε)} {s : ℕ} (e : ε) : s ∉ xs.map Prod.fst → SeqStep xs (xs ++ [(s, e)])

theorem map_update_of_not_mem {xs : List ℕ} {cell : ℕ → ε} (h : s ∉ xs) (e : ε) :
    xs.map (fun a => (a, Function.update cell s e a)) = xs.map fun a => (a, cell a) :=
  List.map_congr_left fun a ha => by rw [Function.update_of_ne (by rintro rfl; exact h ha)]

theorem ListStep.refines {m m' : Contents ρ ε} (h : m.1.WellFormed l) (hs : ListStep l m m') :
    m'.1.WellFormed l ∧ SeqStep (entries l m) (entries l m') := by
  cases hs with
  | @remove sh sh' cell cur i e hv hr =>
    obtain ⟨q, he, -⟩ | ⟨sh'', he, -, hwf, hslots⟩ := rmHeaderHelper_spec h hv
    · rw [he] at hr
      simp at hr
    · obtain rfl : sh'' = sh' := by rw [he] at hr; simpa using hr
      refine ⟨hwf, ?_⟩
      have hn : sh.addr cur i ∉ sh''.slots l := by
        rw [hslots]
        exact h.nodup_slots.not_mem_erase
      have he' : entries l (sh'', Function.update cell (sh.addr cur i) e) =
          (entries l (sh, cell)).filter fun x => x.1 ≠ sh.addr cur i := by
        rw [entries, map_update_of_not_mem hn, hslots, h.nodup_slots.erase_eq_filter, entries,
          List.filter_map]
        congr 1
        apply List.filter_congr
        intro a _
        by_cases ha : a = sh.addr cur i <;> simp [ha]
      exact he' ▸ .remove _
  | @push sh sh' cell s e hp =>
    obtain ⟨q, he, -⟩ | ⟨s', sh'', he, -, hwf, hslots, hn⟩ := push_spec h
    · rw [he] at hp
      simp at hp
    · obtain ⟨rfl, rfl⟩ : s' = s ∧ sh'' = sh' := by rw [he] at hp; simpa using hp
      refine ⟨hwf, ?_⟩
      have he' : entries l (sh'', Function.update cell s' e) =
          entries l (sh, cell) ++ [(s', e)] := by
        simp only [entries, hslots, List.map_append, map_update_of_not_mem hn]
        simp
      exact he' ▸ .push e (by simpa [entries] using hn)

/-- Any run of removals and pushes keeps the list well-formed and simulates the sequence. -/
theorem run_refines {m m' : Contents ρ ε} (h : m.1.WellFormed l)
    (hr : Relation.ReflTransGen (ListStep l) m m') :
    m'.1.WellFormed l ∧ Relation.ReflTransGen SeqStep (entries l m) (entries l m') := by
  induction hr with
  | refl => exact ⟨h, .refl⟩
  | tail _ hs ih =>
    obtain ⟨hwf, hseq⟩ := hs.refines ih.1
    exact ⟨hwf, ih.2.tail hseq⟩

/--
The representation invariant of the request header list. A removal at a valid position
succeeds, erases exactly its slot from the list of addresses and keeps the list well-formed.
Any run of removals and pushes simulates the sequence and keeps the list well-formed; wherever
it stops, the assertion of the caller holds and a push hands out a slot that is not in use and
lies in an allocated block.
-/
theorem header_list_invariant (l : ρ) :
    (∀ (sh : Shape ρ) (cur : PartPtr ρ) (i : ℕ), sh.WellFormed l → sh.Valid l cur i →
      sh.pool.Reliable → ∃ sh', rmHeaderHelper sh l cur i = .ok (.ok, sh') ∧
        sh'.slots l = (sh.slots l).erase (sh.addr cur i) ∧ sh'.WellFormed l) ∧
    ∀ m m' : Contents ρ ε, m.1.WellFormed l → Relation.ReflTransGen (ListStep l) m m' →
      m'.1.WellFormed l ∧ Relation.ReflTransGen SeqStep (entries l m) (entries l m') ∧
      ¬ ((m'.1.header l).part.next = none ∧ (m'.1.header l).last ≠ some (.inline l)) ∧
      ∀ s sh'', m'.1.push l = .ok (some s, sh'') →
        s ∉ m'.1.slots l ∧ sh''.slots l = m'.1.slots l ++ [s] ∧ sh''.pool.Inside s 1 := by
  constructor
  · intro sh cur i h hv hok
    obtain ⟨q, -, -, hf⟩ | ⟨sh', he, -, hwf, hslots⟩ := rmHeaderHelper_spec h hv
    · exact absurd hok hf
    · exact ⟨sh', he, hslots, hwf⟩
  · intro m m' h hr
    obtain ⟨hwf, hseq⟩ := run_refines h hr
    refine ⟨hwf, hseq, fun ha => ha.2 (hwf.assertion ha.1), fun s sh'' hp => ?_⟩
    obtain ⟨q, he, -⟩ | ⟨s', sh', he, -, hwf', hslots, hn⟩ := push_spec hwf
    · rw [he] at hp
      simp at hp
    · obtain ⟨rfl, rfl⟩ : s' = s ∧ sh' = sh'' := by rw [he] at hp; simpa using hp
      exact ⟨hn, hslots, hwf'.inside (by simp [hslots])⟩

/-- The invariant on a list of three elements in a block of four, whose middle one is removed. -/
theorem header_list_invariant_single :
    ∃ sh', rmHeaderHelper (single 3 4) () (.inline ()) 1 = .ok (.ok, sh') ∧
      sh'.slots () = [0, 2] ∧ sh'.WellFormed () ∧
      ∀ s sh'', sh'.push () = .ok (some s, sh'') → s ∉ sh'.slots () ∧ sh''.pool.Inside s 1 := by
  have hw : (single 3 4).WellFormed () := single_wellFormed (by decide) (by decide)
  have hv : (single 3 4).Valid () (.inline ()) 1 := ⟨by decide, by decide⟩
  obtain ⟨hrm, hrun⟩ := header_list_invariant (ε := ℕ) ()
  obtain ⟨sh', he, hs, hwf⟩ := hrm (single 3 4) (.inline ()) 1 hw hv (fun _ => rfl)
  refine ⟨sh', he, by rw [hs]; decide, hwf, fun s sh'' hp => ?_⟩
  obtain ⟨-, -, -, hpush⟩ := hrun (single 3 4, id) _ hw (.single (.remove 0 hv he))
  exact ⟨(hpush s sh'' hp).1, (hpush s sh'' hp).2.2⟩

end HeadersControl
