import HeadersControl.Request.Removal
import HeadersControl.Request.State
import HeadersControl.Rules.Operators

/-! # The helper that edits the request header list

`setHeaderHelper` scans the list and updates or removes the entries that a rule
names, and appends an entry where the opcode asks for one. It restarts from the
first part after every removal. The scan never reads past a part, and it ends,
because every removal takes an entry that the rule names.
-/

namespace HeadersControl

open Segments Segments.Shape

variable {ρ η ο : Type} [DecidableEq ρ]

/-- How the scan ends: a `return`, or the end of the list with the entry kept so far. -/
inductive ScanEnd | returned (rc : Rc) | done (matched : Option ℕ)
  deriving DecidableEq, Repr

/-- The test of the scan. A wildcard rule hits only where the value is empty. -/
def HeaderVal.hits (hv : HeaderVal η ο) (value name : Str) : Bool :=
  (!hv.wildcard || value.isEmpty) && hv.matchesName name

/-- The loop from `retry` on, at index `i` of a part. -/
def scan (r : ρ) (hv : HeaderVal η ο) (value : Str) (out : OutRef) :
    ℕ → PartPtr ρ → ℕ → Option ℕ → Frame ρ → Except Fault (ScanEnd × Frame ρ)
  | 0, _, _, _, _ => .error .endless
  | n + 1, part, i, matched, fr =>
      match fr.w.shape.seek part i with
      | none => .ok (.done matched, fr)
      | some (part, i) =>
          let h := fr.w.shape.addr part i
          if (fr.w.shape.part part).nelts ≤ i then .error .overrun
          else if hv.hits value (fr.w.cell h).key then
            if hv.opcode = .add then .ok (.returned .ok, fr)
            else if value = [] ∨ (matched ≠ none ∧ matched ≠ some h) then
              let cell := Function.update fr.w.cell h { fr.w.cell h with hash := 0 }
              match rmHeaderHelper fr.w.shape r part i with
              | .error e => .error e
              | .ok (rc, sh) =>
                  let fr := fr.setList sh cell
                  if (sh.header r).part.next = none ∧ (sh.header r).last ≠ some (.inline r) then
                    .error .assertion
                  else if rc = .ok then
                    scan r hv value out n (.inline r) 0 matched (fr.store r out none)
                  else .ok (.returned .error, fr)
            else
              let cell := Function.update fr.w.cell h { fr.w.cell h with value }
              scan r hv value out n part (i + 1) (matched.or (some h))
                ((fr.setList fr.w.shape cell).store r out (some h))
          else scan r hv value out n part (i + 1) matched fr

/-- The code from `create` on. -/
def create (r : ρ) (hv : HeaderVal η ο) (value : Str) (out : OutRef) (fr : Frame ρ) :
    Except Fault (Rc × Frame ρ) :=
  if (fr.w.shape.header r).last = none then .ok (.ok, fr)
  else match fr.w.shape.push r with
    | .error e => .error e
    | .ok (none, sh) => .ok (.error, fr.setList sh fr.w.cell)
    | .ok (some h, sh) =>
        let elt : TableElt :=
          { fr.w.cell h with
            hash := if value = [] then 0 else hv.hash
            key := hv.key
            value
            next := none }
        match sh.pool.allocBytes with
        | (false, pool) =>
            .ok (.error, fr.setList (sh.setPool pool)
              (Function.update fr.w.cell h { elt with lowcaseKey := [] }))
        | (true, pool) =>
            let fr := fr.setList (sh.setPool pool)
              (Function.update fr.w.cell h { elt with lowcaseKey := strlow hv.key })
            let fr := fr.store r out (some h)
            if out = .null then .ok (.ok, fr)
            else .ok (.ok, { fr with w := fr.w.propagate r (fr.w.ancestors r) })

/-- A bound on the iterations of the scan over all its restarts. -/
def scanFuel (sh : Shape ρ) : ℕ := (sh.pool.brk + 1) * (sh.pool.brk + 1)

def setHeaderHelper (r : ρ) (hv : HeaderVal η ο) (value : Str) (out : OutRef) (fr : Frame ρ) :
    Except Fault (Rc × Frame ρ) :=
  if hv.opcode = .append then create r hv value out fr
  else match scan r hv value out (scanFuel fr.w.shape) (.inline r) 0 none fr with
    | .error e => .error e
    | .ok (.returned rc, fr) => .ok (rc, fr)
    | .ok (.done (some _), fr) => .ok (.ok, fr)
    | .ok (.done none, fr) =>
        if value = [] ∨ hv.opcode = .rewrite then .ok (.ok, fr)
        else create r hv value out fr

section Uniform

variable {r : ρ} {hv : HeaderVal η ο} {value : Str} {out : OutRef}

theorem scan_id (id n : ℕ) (p : PartPtr ρ) (i : ℕ) (matched : Option ℕ) (fr : Frame ρ) :
    scan r { hv with id } value out n p i matched fr = scan r hv value out n p i matched fr := by
  have hhits : ∀ name, HeaderVal.hits { hv with id } value name = hv.hits value name :=
    fun _ => rfl
  induction n generalizing p i matched fr with
  | zero => rfl
  | succ n ih => simp only [scan, hhits, ih]

theorem setHeaderHelper_id (id : ℕ) (fr : Frame ρ) :
    setHeaderHelper r { hv with id } value out fr = setHeaderHelper r hv value out fr := by
  unfold setHeaderHelper
  rw [scan_id]
  rfl

theorem scan_ne_declined (n : ℕ) (p : PartPtr ρ) (i : ℕ) (matched : Option ℕ) (fr fr' : Frame ρ) :
    scan r hv value out n p i matched fr ≠ .ok (.returned .declined, fr') := by
  induction n generalizing p i matched fr with
  | zero => simp [scan]
  | succ n ih =>
    unfold scan
    split
    · simp
    · dsimp only
      split_ifs
      · simp
      · simp
      · split
        · simp
        · split_ifs
          · simp
          · exact ih _ _ _ _
          · simp
      · exact ih _ _ _ _
      · exact ih _ _ _ _

theorem create_ne_declined (fr fr' : Frame ρ) :
    create r hv value out fr ≠ .ok (.declined, fr') := by
  unfold create
  split
  · simp
  · split
    · simp
    · simp
    · dsimp only
      split
      · simp
      · split <;> simp

theorem setHeaderHelper_ne_declined (fr fr' : Frame ρ) :
    setHeaderHelper r hv value out fr ≠ .ok (.declined, fr') := by
  unfold setHeaderHelper
  split
  · exact create_ne_declined _ _
  · split
    · simp
    · rename_i rc fr₁ he
      intro h
      rw [Except.ok.injEq, Prod.mk.injEq] at h
      exact scan_ne_declined _ _ _ _ _ _ (h.1 ▸ he)
    · simp
    · split
      · simp
      · exact create_ne_declined _ _

end Uniform

section Step

variable {r : ρ} {hv : HeaderVal η ο} {value : Str} {out : OutRef} {n i s : ℕ} {p : PartPtr ρ}
  {matched : Option ℕ} {fr : Frame ρ} {rest : List ℕ}

theorem scan_nil (hwf : fr.w.shape.WellFormed r) (ha : fr.w.shape.At r p i []) :
    scan r hv value out (n + 1) p i matched fr = .ok (.done matched, fr) := by
  simp [scan, hwf.seek_nil ha]

theorem scan_miss (out : OutRef) (n : ℕ) (matched : Option ℕ) (hwf : fr.w.shape.WellFormed r)
    (ha : fr.w.shape.At r p i (s :: rest))
    (hs : hv.hits value (fr.w.cell s).key = false) :
    ∃ q j, fr.w.shape.At r q (j + 1) rest ∧
      scan r hv value out (n + 1) p i matched fr = scan r hv value out n q (j + 1) matched fr := by
  obtain ⟨q, j, hseek, rfl, hvalid, hrest⟩ := hwf.seek_cons ha
  exact ⟨q, j, hrest, by simp [scan, hseek, hs, Nat.not_le.mpr hvalid.2]⟩

theorem scan_add (hwf : fr.w.shape.WellFormed r) (ha : fr.w.shape.At r p i (s :: rest))
    (hs : hv.hits value (fr.w.cell s).key = true) (ho : hv.opcode = .add) :
    scan r hv value out (n + 1) p i matched fr = .ok (.returned .ok, fr) := by
  obtain ⟨q, j, hseek, rfl, hvalid, -⟩ := hwf.seek_cons ha
  simp [scan, hseek, hs, Nat.not_le.mpr hvalid.2, ho]

theorem scan_keep (out : OutRef) (n : ℕ) (hwf : fr.w.shape.WellFormed r)
    (ha : fr.w.shape.At r p i (s :: rest))
    (hs : hv.hits value (fr.w.cell s).key = true) (ho : hv.opcode ≠ .add) (hne : value ≠ [])
    (hm : matched = none ∨ matched = some s) :
    ∃ q j, fr.w.shape.At r q (j + 1) rest ∧
      scan r hv value out (n + 1) p i matched fr = scan r hv value out n q (j + 1) (some s)
        ((fr.setList fr.w.shape (Function.update fr.w.cell s { fr.w.cell s with value })).store
          r out (some s)) := by
  obtain ⟨q, j, hseek, rfl, hvalid, hrest⟩ := hwf.seek_cons ha
  refine ⟨q, j, hrest, ?_⟩
  rcases hm with rfl | rfl <;> simp [scan, hseek, hs, Nat.not_le.mpr hvalid.2, ho, hne]

def Frame.removed (fr : Frame ρ) (r : ρ) (out : OutRef) (sh : Shape ρ) (s : ℕ) : Frame ρ :=
  (fr.store r out none).setList sh (Function.update fr.w.cell s { fr.w.cell s with hash := 0 })

@[simp] theorem shape_removed (out : OutRef) (sh : Shape ρ) :
    (fr.removed r out sh s).w.shape = sh := by
  simp [Frame.removed]

@[simp] theorem cell_removed (out : OutRef) (sh : Shape ρ) : (fr.removed r out sh s).w.cell =
    Function.update fr.w.cell s { fr.w.cell s with hash := 0 } := by
  simp [Frame.removed]

theorem key_removed (out : OutRef) (sh : Shape ρ) (x : ℕ) :
    ((fr.removed r out sh s).w.cell x).key = (fr.w.cell x).key := by
  by_cases hx : x = s <;> simp [hx]

theorem scan_remove (out : OutRef) (n : ℕ) (matched : Option ℕ) (hwf : fr.w.shape.WellFormed r)
    (ha : fr.w.shape.At r p i (s :: rest))
    (hs : hv.hits value (fr.w.cell s).key = true) (ho : hv.opcode ≠ .add)
    (hm : value = [] ∨ (matched ≠ none ∧ matched ≠ some s)) :
    (∃ fr', scan r hv value out (n + 1) p i matched fr = .ok (.returned .error, fr') ∧
      fr'.w.shape.WellFormed r ∧ ¬ fr.w.shape.pool.Reliable) ∨
    ∃ sh, sh.WellFormed r ∧ fr.w.shape.pool.Grows sh.pool ∧
      sh.slots r = (fr.w.shape.slots r).erase s ∧
      scan r hv value out (n + 1) p i matched fr = scan r hv value out n (.inline r) 0 matched
        (fr.removed r out sh s) := by
  obtain ⟨q, j, hseek, rfl, hvalid, -⟩ := hwf.seek_cons ha
  have hlt : ¬ (fr.w.shape.part q).nelts ≤ j := Nat.not_le.mpr hvalid.2
  rcases rmHeaderHelper_spec hwf hvalid with ⟨pool, he, hg, hf⟩ | ⟨sh, he, hg, hwf', hslots⟩
  · have hwf' := hwf.setPool hg
    have hassert : ¬ ((fr.w.shape.header r).part.next = none ∧
        (fr.w.shape.header r).last ≠ some (.inline r)) := fun hc => hc.2 (hwf.assertion hc.1)
    refine Or.inl ⟨fr.setList (fr.w.shape.setPool pool) (Function.update fr.w.cell
      (fr.w.shape.addr q j) { fr.w.cell (fr.w.shape.addr q j) with hash := 0 }), ?_, hwf', hf⟩
    simp only [scan, hseek, hs, ho, hm, hlt, he, if_true, if_false, header_setPool, hassert,
      reduceCtorEq]
  · have hassert : ¬ ((sh.header r).part.next = none ∧ (sh.header r).last ≠ some (.inline r)) :=
      fun hc => hc.2 (hwf'.assertion hc.1)
    refine Or.inr ⟨sh, hwf', hg, hslots, ?_⟩
    simp only [scan, hseek, hs, ho, hm, hlt, he, if_true, if_false, hassert,
      Frame.store_setList, Frame.removed]

end Step

section Run

variable {r : ρ} {hv : HeaderVal η ο} {value : Str} {out : OutRef} {n N i a : ℕ} {p : PartPtr ρ}
  {fr : Frame ρ} {pre rest : List ℕ}

theorem filter_erase {l : List ℕ} {keep : ℕ → Bool} {s : ℕ} (hl : l.Nodup) (hs : keep s = false) :
    (l.erase s).filter keep = l.filter keep := by
  rw [hl.erase_eq_filter, List.filter_filter]
  apply List.filter_congr
  intro x _
  by_cases hx : x = s <;> simp [hx, hs]

omit [DecidableEq ρ] in
theorem length_erase_le {sh₀ sh : Shape ρ} {s : ℕ} (h : sh.slots r = (sh₀.slots r).erase s)
    (hN : (sh₀.slots r).length ≤ N) : (sh.slots r).length ≤ N := by
  rw [h]
  exact List.length_erase_le.trans hN

omit [DecidableEq ρ] in
/-- The fuel of a restart is paid by the entry that was removed. -/
theorem fuel_erase {sh₀ sh : Shape ρ} {s : ℕ} (h : sh.slots r = (sh₀.slots r).erase s)
    (hs : s ∈ sh₀.slots r) (hN : (sh₀.slots r).length ≤ N)
    (hn : (sh₀.slots r).length * (N + 1) + (s :: rest).length < n + 1) :
    (sh.slots r).length * (N + 1) + (sh.slots r).length < n := by
  have hpos := List.length_pos_of_mem hs
  rw [h, List.length_erase_of_mem hs]
  obtain ⟨L, hL⟩ := Nat.exists_eq_add_of_lt hpos
  rw [hL] at hn hN ⊢
  simp only [Nat.zero_add, Nat.add_sub_cancel, Nat.add_mul, Nat.one_mul, List.length_cons]
    at hn ⊢
  omega

/-- The list `sh` has the slots of `sh₀` that are kept, with their cells. -/
structure Kept (r : ρ) (sh₀ : Shape ρ) (cell₀ : ℕ → TableElt) (keep : ℕ → Bool) (sh : Shape ρ)
    (cell : ℕ → TableElt) : Prop where
  grows : sh₀.pool.Grows sh.pool
  wellFormed : sh.WellFormed r
  slots : sh.slots r = (sh₀.slots r).filter keep
  key : ∀ s, (cell s).key = (cell₀ s).key
  same : ∀ s, keep s = true → cell s = cell₀ s

omit [DecidableEq ρ] in
theorem Kept.refl {keep : ℕ → Bool} {sh : Shape ρ} {cell : ℕ → TableElt} (hwf : sh.WellFormed r)
    (h : ∀ s ∈ sh.slots r, keep s = true) : Kept r sh cell keep sh cell where
  grows := Pool.Grows.refl _
  wellFormed := hwf
  slots := (List.filter_eq_self.mpr h).symm
  key := fun _ => rfl
  same := fun _ _ => rfl

omit [DecidableEq ρ] in
theorem Kept.of_erase {keep : ℕ → Bool} {s : ℕ} {e : TableElt} {sh₀ sh sh' : Shape ρ}
    {cell₀ cell : ℕ → TableElt} (hwf : sh₀.WellFormed r) (hs : keep s = false)
    (he : e.key = (cell₀ s).key) (hg : sh₀.pool.Grows sh.pool)
    (hslots : sh.slots r = (sh₀.slots r).erase s)
    (h : Kept r sh (Function.update cell₀ s e) keep sh' cell) : Kept r sh₀ cell₀ keep sh' cell where
  grows := hg.trans h.grows
  wellFormed := h.wellFormed
  slots := by rw [h.slots, hslots, filter_erase hwf.nodup_slots hs]
  key := fun x => by
    rw [h.key]
    by_cases hx : x = s <;> simp [hx, he]
  same := fun x hx => by
    rw [h.same x hx, Function.update_of_ne]
    rintro rfl
    rw [hs] at hx
    cases hx

/--
A scan that removes every hit, on fuel for each restart. It fails with the allocator only, and
`*output_header` is reset exactly when an entry was removed.
-/
theorem scan_clear (out : OutRef) (ho : hv.opcode ≠ .add) (hv₀ : value = [])
    (hwf : fr.w.shape.WellFormed r)
    (ha : fr.w.shape.At r p i rest) (hslots : fr.w.shape.slots r = pre ++ rest)
    (hpre : ∀ s ∈ pre, hv.hits value (fr.w.cell s).key = false)
    (hN : (fr.w.shape.slots r).length ≤ N)
    (hn : (fr.w.shape.slots r).length * (N + 1) + rest.length < n) :
    (∃ fr', scan r hv value out n p i none fr = .ok (.returned .error, fr') ∧
      fr'.w.shape.WellFormed r ∧ ¬ fr.w.shape.pool.Reliable) ∨
    ∃ sh cell, scan r hv value out n p i none fr = .ok (.done none,
        (if (fr.w.shape.slots r).any fun s => hv.hits value (fr.w.cell s).key
          then fr.store r out none else fr).setList sh cell) ∧
      Kept r fr.w.shape fr.w.cell (fun s => !hv.hits value (fr.w.cell s).key) sh cell := by
  induction n generalizing p i rest pre fr with
  | zero => omega
  | succ n ih =>
    cases rest with
    | nil =>
      rw [List.append_nil] at hslots
      have hnone : ((fr.w.shape.slots r).any fun s => hv.hits value (fr.w.cell s).key) = false := by
        rw [hslots, List.any_eq_false]
        exact fun s hs => by simp [hpre s hs]
      refine Or.inr ⟨fr.w.shape, fr.w.cell, ?_, Kept.refl hwf fun s hs => ?_⟩
      · rw [scan_nil hwf ha, hnone]
        rfl
      · rw [hpre s (hslots ▸ hs)]
        rfl
    | cons s rest =>
      cases hs : hv.hits value (fr.w.cell s).key with
      | false =>
        obtain ⟨q, j, ha', he⟩ := scan_miss out n none hwf ha hs
        have hslots' : fr.w.shape.slots r = (pre ++ [s]) ++ rest := by simpa using hslots
        rw [he]
        refine ih hwf ha' hslots' (fun x hx => ?_) hN ?_
        · rcases List.mem_append.mp hx with hx | hx
          · exact hpre x hx
          · exact List.mem_singleton.mp hx ▸ hs
        · simp only [List.length_cons] at hn
          omega
      | true =>
        have hmem : s ∈ fr.w.shape.slots r := by rw [hslots]; simp
        have hany : ((fr.w.shape.slots r).any fun s => hv.hits value (fr.w.cell s).key) = true :=
          List.any_eq_true.mpr ⟨s, hmem, hs⟩
        rcases scan_remove out n none hwf ha hs ho (Or.inl hv₀) with
          ⟨fr', he, hwf', hf⟩ | ⟨sh, hwf', hg, hsl, he⟩
        · exact Or.inl ⟨fr', he, hwf', hf⟩
        · -- the scan restarts on a list that is shorter by one
          have hreset : ∀ (c : Bool) sh' cell', (if c then (fr.removed r out sh s).store r out none
              else fr.removed r out sh s).setList sh' cell' =
                (fr.store r out none).setList sh' cell' := by
            intro c sh' cell'
            split <;> simp [Frame.removed, Frame.store_setList]
          have hwf₁ : (fr.removed r out sh s).w.shape.WellFormed r := by simpa using hwf'
          have hstart₁ : (fr.removed r out sh s).w.shape.At r (.inline r) 0 (sh.slots r) := by
            simpa using hwf'.at_start
          have hslots₁ : (fr.removed r out sh s).w.shape.slots r = [] ++ sh.slots r := by simp
          have hrec := ih hwf₁ hstart₁ hslots₁ (by simp)
            (by rw [shape_removed]; exact length_erase_le hsl hN)
            (by rw [shape_removed]; exact fuel_erase hsl hmem hN hn)
          rw [he, hany]
          simp only [key_removed] at hrec
          simp only [shape_removed, cell_removed] at hrec
          rcases hrec with ⟨fr', he', hwf'', hf⟩ | ⟨sh', cell', he', hk⟩
          · exact Or.inl ⟨fr', he', hwf'', fun hr => hf (hg.reliable.mpr hr)⟩
          · rw [he', hreset]
            exact Or.inr ⟨sh', cell', rfl, Kept.of_erase (e := { fr.w.cell s with hash := 0 }) hwf
              (by simp [hs]) rfl hg hsl hk⟩

/--
A scan that has kept the hit `a` removes every other one, and leaves `*output_header` at `a`.
It may restart before it has reached `a` again.
-/
theorem scan_unique (out : OutRef) (ho : hv.opcode ≠ .add) (hv₀ : value ≠ [])
    (hwf : fr.w.shape.WellFormed r)
    (ha : fr.w.shape.At r p i rest) (hslots : fr.w.shape.slots r = pre ++ rest)
    (hit : hv.hits value (fr.w.cell a).key = true) (hval : (fr.w.cell a).value = value)
    (hmem : a ∈ fr.w.shape.slots r)
    (hpre : ∀ s ∈ pre, hv.hits value (fr.w.cell s).key = true → s = a)
    (hout : a ∈ pre → fr.store r out (some a) = fr)
    (hN : (fr.w.shape.slots r).length ≤ N)
    (hn : (fr.w.shape.slots r).length * (N + 1) + rest.length < n) :
    (∃ fr', scan r hv value out n p i (some a) fr = .ok (.returned .error, fr') ∧
      fr'.w.shape.WellFormed r ∧ ¬ fr.w.shape.pool.Reliable) ∨
    ∃ sh cell, scan r hv value out n p i (some a) fr = .ok (.done (some a),
        (fr.store r out (some a)).setList sh cell) ∧
      Kept r fr.w.shape fr.w.cell (fun s => !hv.hits value (fr.w.cell s).key || s = a) sh cell := by
  induction n generalizing p i rest pre fr with
  | zero => omega
  | succ n ih =>
    cases rest with
    | nil =>
      rw [List.append_nil] at hslots
      refine Or.inr ⟨fr.w.shape, fr.w.cell, ?_, Kept.refl hwf fun s hs => ?_⟩
      · rw [scan_nil hwf ha, hout (hslots ▸ hmem)]
        rfl
      · cases hs' : hv.hits value (fr.w.cell s).key with
        | false => rfl
        | true => simp [hpre s (hslots ▸ hs) hs']
    | cons s rest =>
      have hlen : (fr.w.shape.slots r).length * (N + 1) + rest.length < n := by
        simp only [List.length_cons] at hn
        omega
      cases hs : hv.hits value (fr.w.cell s).key with
      | false =>
        obtain ⟨q, j, ha', he⟩ := scan_miss out n (some a) hwf ha hs
        have hne : a ≠ s := by
          rintro rfl
          rw [hit] at hs
          cases hs
        have hslots' : fr.w.shape.slots r = (pre ++ [s]) ++ rest := by simpa using hslots
        rw [he]
        refine ih hwf ha' hslots' hit hval hmem (fun x hx hx' => ?_) (fun hx => ?_) hN hlen
        · rcases List.mem_append.mp hx with hx | hx
          · exact hpre x hx hx'
          · rw [List.mem_singleton.mp hx, hs] at hx'
            cases hx'
        · exact hout (by simpa [hne] using hx)
      | true =>
        by_cases hsa : s = a
        · subst hsa
          obtain ⟨q, j, ha', he⟩ := scan_keep out n hwf ha hs ho hv₀ (Or.inr rfl)
          have hsame : Function.update fr.w.cell s { fr.w.cell s with value } = fr.w.cell := by
            rw [Function.update_eq_iff]
            exact ⟨by rw [← hval], fun _ _ => rfl⟩
          rw [he, hsame, Frame.setList_self]
          have hpre' : ∀ x ∈ pre ++ [s], hv.hits value (fr.w.cell x).key = true → x = s := by
            intro x hx hx'
            rcases List.mem_append.mp hx with hx | hx
            · exact hpre x hx hx'
            · exact List.mem_singleton.mp hx
          have hwf' : (fr.store r out (some s)).w.shape.WellFormed r := by simpa using hwf
          have hslots' : (fr.store r out (some s)).w.shape.slots r = (pre ++ [s]) ++ rest := by
            simpa using hslots
          simpa using ih hwf' (by simpa using ha') hslots' (by simpa using hit)
            (by simpa using hval) (by simpa using hmem) (by simpa using hpre') (fun _ => by simp)
            (by simpa using hN) (by simpa using hlen)
        · have hmem' : s ∈ fr.w.shape.slots r := by rw [hslots]; simp
          rcases scan_remove out n (some a) hwf ha hs ho
              (Or.inr ⟨by simp, by simpa using Ne.symm hsa⟩) with
            ⟨fr', he, hwf', hf⟩ | ⟨sh, hwf', hg, hsl, he⟩
          · exact Or.inl ⟨fr', he, hwf', hf⟩
          · have hval₁ : ((fr.removed r out sh s).w.cell a).value = value := by
              rw [cell_removed, Function.update_of_ne (Ne.symm hsa), hval]
            have hmem₁ : a ∈ (fr.removed r out sh s).w.shape.slots r := by
              rw [shape_removed, hsl]
              exact (List.mem_erase_of_ne (Ne.symm hsa)).mpr hmem
            have hwf₁ : (fr.removed r out sh s).w.shape.WellFormed r := by simpa using hwf'
            have hstart₁ : (fr.removed r out sh s).w.shape.At r (.inline r) 0 (sh.slots r) := by
              simpa using hwf'.at_start
            have hslots₁ : (fr.removed r out sh s).w.shape.slots r = [] ++ sh.slots r := by simp
            have hrec := ih hwf₁ hstart₁ hslots₁ (by rw [key_removed]; exact hit) hval₁ hmem₁
              (by simp) (by simp)
              (by rw [shape_removed]; exact length_erase_le hsl hN)
              (by rw [shape_removed]; exact fuel_erase hsl hmem' hN hn)
            rw [he]
            simp only [key_removed] at hrec
            simp only [shape_removed, cell_removed] at hrec
            rcases hrec with ⟨fr', he', hwf'', hf⟩ | ⟨sh', cell', he', hk⟩
            · exact Or.inl ⟨fr', he', hwf'', fun hr => hf (hg.reliable.mpr hr)⟩
            · refine Or.inr ⟨sh', cell', ?_, Kept.of_erase (e := { fr.w.cell s with hash := 0 }) hwf
                (by simp [hs, hsa]) rfl hg hsl hk⟩
              rw [he', Frame.removed, Frame.store_setList, Frame.store_store, Frame.setList_setList]

theorem scan_set (out : OutRef) (ho : hv.opcode ≠ .add) (hv₀ : value ≠ [])
    (hwf : fr.w.shape.WellFormed r)
    (ha : fr.w.shape.At r p i rest) (hslots : fr.w.shape.slots r = pre ++ rest)
    (hpre : ∀ s ∈ pre, hv.hits value (fr.w.cell s).key = false)
    (hN : (fr.w.shape.slots r).length ≤ N)
    (hn : (fr.w.shape.slots r).length * (N + 1) + rest.length < n) :
    (∃ fr', scan r hv value out n p i none fr = .ok (.returned .error, fr') ∧
      fr'.w.shape.WellFormed r ∧ ¬ fr.w.shape.pool.Reliable) ∨
    match rest.find? fun s => hv.hits value (fr.w.cell s).key with
    | none => scan r hv value out n p i none fr = .ok (.done none, fr)
    | some a => ∃ sh cell, scan r hv value out n p i none fr = .ok (.done (some a),
          (fr.store r out (some a)).setList sh cell) ∧
        Kept r fr.w.shape (Function.update fr.w.cell a { fr.w.cell a with value })
          (fun s => !hv.hits value (fr.w.cell s).key || s = a) sh cell := by
  induction rest generalizing p i n pre with
  | nil =>
    obtain _ | n := n
    · omega
    · exact Or.inr (scan_nil hwf ha)
  | cons s rest ih =>
    obtain _ | n := n
    · omega
    have hlen : (fr.w.shape.slots r).length * (N + 1) + rest.length < n := by
      simp only [List.length_cons] at hn
      omega
    cases hs : hv.hits value (fr.w.cell s).key with
    | false =>
      obtain ⟨q, j, ha', he⟩ := scan_miss out n none hwf ha hs
      have hslots' : fr.w.shape.slots r = (pre ++ [s]) ++ rest := by simpa using hslots
      rw [he, List.find?_cons_of_neg (by simp [hs])]
      refine ih ha' hslots' (fun x hx => ?_) hlen
      rcases List.mem_append.mp hx with hx | hx
      · exact hpre x hx
      · exact List.mem_singleton.mp hx ▸ hs
    | true =>
      obtain ⟨q, j, ha', he⟩ := scan_keep out n hwf ha hs ho hv₀ (Or.inl rfl)
      rw [he, List.find?_cons_of_pos (by simp [hs])]
      set fr₁ := (fr.setList fr.w.shape
        (Function.update fr.w.cell s { fr.w.cell s with value })).store r out (some s) with hfr₁
      have hkey : ∀ x, (fr₁.w.cell x).key = (fr.w.cell x).key := fun x => by
        by_cases hx : x = s <;> simp [hfr₁, hx]
      have hshape : fr₁.w.shape = fr.w.shape := by simp [hfr₁]
      have hcell : fr₁.w.cell = Function.update fr.w.cell s { fr.w.cell s with value } := by
        simp [hfr₁]
      have hwf₁ : fr₁.w.shape.WellFormed r := by rwa [hshape]
      have hslots₁ : fr₁.w.shape.slots r = (pre ++ [s]) ++ rest := by simpa [hshape] using hslots
      have hrec := scan_unique out (a := s) (N := N) ho hv₀ hwf₁ (by rwa [hshape]) hslots₁
        (by rw [hkey]; exact hs) (by simp [hcell]) (by rw [hshape, hslots]; simp)
        (fun x hx hx' => ?_) (fun _ => by simp [hfr₁]) (by rwa [hshape]) (by rwa [hshape])
      · simp only [hkey] at hrec
        rw [hshape, hcell] at hrec
        refine hrec.imp id ?_
        rintro ⟨sh, cell, he', hk⟩
        refine ⟨sh, cell, ?_, hk⟩
        rw [he', hfr₁, Frame.store_store, Frame.store_setList, Frame.setList_setList]
      · rw [hkey] at hx'
        rcases List.mem_append.mp hx with hx | hx
        · rw [hpre x hx] at hx'
          cases hx'
        · exact List.mem_singleton.mp hx

theorem scan_none {matched : Option ℕ} (hwf : fr.w.shape.WellFormed r)
    (ha : fr.w.shape.At r p i rest) (hrest : ∀ s ∈ rest, hv.hits value (fr.w.cell s).key = false)
    (hn : rest.length < n) :
    scan r hv value out n p i matched fr = .ok (.done matched, fr) := by
  induction rest generalizing p i n with
  | nil =>
    obtain _ | n := n
    · simp at hn
    · exact scan_nil hwf ha
  | cons s rest ih =>
    obtain _ | n := n
    · simp at hn
    obtain ⟨q, j, ha', he⟩ := scan_miss out n matched hwf ha (hrest s List.mem_cons_self)
    rw [he]
    exact ih ha' (fun x hx => hrest x (List.mem_cons_of_mem _ hx)) (by simpa using hn)

theorem scan_found (ho : hv.opcode = .add) (hwf : fr.w.shape.WellFormed r)
    (ha : fr.w.shape.At r p i rest) (hrest : ∃ s ∈ rest, hv.hits value (fr.w.cell s).key = true)
    (hn : rest.length < n) :
    scan r hv value out n p i none fr = .ok (.returned .ok, fr) := by
  induction rest generalizing p i n with
  | nil => simp at hrest
  | cons s rest ih =>
    obtain _ | n := n
    · simp at hn
    cases hs : hv.hits value (fr.w.cell s).key with
    | false =>
      obtain ⟨q, j, ha', he⟩ := scan_miss out n none hwf ha hs
      rw [he]
      exact ih ha' (by simpa [hs] using hrest) (by simpa using hn)
    | true => exact scan_add hwf ha hs ho

end Run

section Create

variable {r : ρ} {hv : HeaderVal η ο} {value : Str} {out : OutRef} {fr : Frame ρ}

def Frame.propagate (fr : Frame ρ) (r : ρ) (out : OutRef) : Frame ρ :=
  if out = .null then fr else { fr with w := fr.w.propagate r (fr.w.ancestors r) }

theorem create_of_push (hv : HeaderVal η ο) (value : Str) (out : OutRef) {s : ℕ} {sh : Shape ρ}
    (hlast : (fr.w.shape.header r).last ≠ none)
    (hp : fr.w.shape.push r = .ok (some s, sh)) :
    (∃ fr', create r hv value out fr = .ok (.error, fr') ∧ ¬ sh.pool.Reliable ∧
      ∃ pool, sh.pool.Grows pool ∧ fr'.w.shape = sh.setPool pool) ∨
    ∃ pool, sh.pool.Grows pool ∧ create r hv value out fr = .ok (.ok,
      ((fr.setList (sh.setPool pool) (Function.update fr.w.cell s (newElt hv value))).store
        r out (some s)).propagate r out) := by
  have hg := sh.pool.allocBytes_grows
  unfold create
  rw [if_neg hlast, hp]
  dsimp only
  cases ha : sh.pool.allocBytes with
  | mk ok pool =>
    rw [ha] at hg
    cases ok with
    | false =>
      refine Or.inl ⟨_, rfl, fun hr => ?_, pool, hg, rfl⟩
      simp [Pool.allocBytes, hr sh.pool.tick] at ha
    | true =>
      refine Or.inr ⟨pool, hg, ?_⟩
      by_cases hout : out = .null
      · simp only [hout, if_true, Frame.propagate]
        rfl
      · simp only [hout, if_false, Frame.propagate]
        rfl

theorem create_spec (hv : HeaderVal η ο) (value : Str) (out : OutRef)
    (hwf : fr.w.shape.WellFormed r) :
    (∃ fr', create r hv value out fr = .ok (.error, fr') ∧ fr'.w.shape.WellFormed r ∧
      ¬ fr.w.shape.pool.Reliable) ∨
    ∃ s sh, sh.WellFormed r ∧ fr.w.shape.pool.Grows sh.pool ∧
      sh.slots r = fr.w.shape.slots r ++ [s] ∧ s ∉ fr.w.shape.slots r ∧
      create r hv value out fr = .ok (.ok,
        ((fr.setList sh (Function.update fr.w.cell s (newElt hv value))).store r out
          (some s)).propagate r out) := by
  obtain ⟨fin, hfin⟩ := hwf.last_eq
  have hlast : (fr.w.shape.header r).last ≠ none := by simp [hfin]
  rcases push_spec hwf with ⟨q, hp, hg, hf⟩ | ⟨s, sh, hp, hg, hwf', hslots, hs⟩
  · refine Or.inl ⟨fr.setList (fr.w.shape.setPool q) fr.w.cell, ?_, hwf.setPool hg, hf⟩
    simp [create, hlast, hp]
  · rcases create_of_push hv value out hlast hp with
      ⟨fr', he, hf, q, hq, hsh⟩ | ⟨q, hq, he⟩
    · exact Or.inl ⟨fr', he, hsh ▸ hwf'.setPool hq, fun hr => hf (hg.reliable.mpr hr)⟩
    · exact Or.inr ⟨s, sh.setPool q, hwf'.setPool hq, hg.trans hq,
        by rw [hwf'.slots_setPool hq, hslots], hs, he⟩

end Create

def HeaderVal.Hit (hv : HeaderVal η ο) (value : Str) (w : World ρ) (r : ρ) : Prop :=
  ∃ s ∈ w.shape.slots r, hv.hits value (w.cell s).key = true

/-- Everything that `setHeaderHelper` can do where it returns `NGX_OK`. -/
inductive Outcome (r : ρ) (hv : HeaderVal η ο) (value : Str) (out : OutRef) (fr : Frame ρ) :
    Frame ρ → Prop
  | unchanged :
      hv.opcode = .add ∧ hv.Hit value fr.w r ∨
        hv.opcode ≠ .append ∧ ¬ hv.Hit value fr.w r ∧ (value = [] ∨ hv.opcode = .rewrite) →
      Outcome r hv value out fr fr
  | cleared {sh : Shape ρ} {cell : ℕ → TableElt} :
      hv.opcode ≠ .add → hv.opcode ≠ .append → value = [] → hv.Hit value fr.w r →
      Kept r fr.w.shape fr.w.cell (fun s => !hv.hits value (fr.w.cell s).key) sh cell →
      Outcome r hv value out fr ((fr.store r out none).setList sh cell)
  | kept {a : ℕ} {sh : Shape ρ} {cell : ℕ → TableElt} :
      hv.opcode ≠ .add → hv.opcode ≠ .append → value ≠ [] →
      ((fr.w.shape.slots r).find? fun s => hv.hits value (fr.w.cell s).key) = some a →
      Kept r fr.w.shape (Function.update fr.w.cell a { fr.w.cell a with value })
        (fun s => !hv.hits value (fr.w.cell s).key || s = a) sh cell →
      Outcome r hv value out fr ((fr.store r out (some a)).setList sh cell)
  | created {s : ℕ} {sh : Shape ρ} :
      hv.opcode = .append ∨ ¬ hv.Hit value fr.w r ∧ value ≠ [] ∧ hv.opcode ≠ .rewrite →
      sh.WellFormed r → fr.w.shape.pool.Grows sh.pool →
      sh.slots r = fr.w.shape.slots r ++ [s] → s ∉ fr.w.shape.slots r →
      Outcome r hv value out fr
        (((fr.setList sh (Function.update fr.w.cell s (newElt hv value))).store r out
          (some s)).propagate r out)

section Spec

variable {r : ρ} {hv : HeaderVal η ο} {value : Str} {out : OutRef} {fr : Frame ρ}

omit [DecidableEq ρ] in
theorem any_hits_iff : ((fr.w.shape.slots r).any fun s => hv.hits value (fr.w.cell s).key) = true ↔
    hv.Hit value fr.w r :=
  List.any_eq_true

omit [DecidableEq ρ] in
theorem scanFuel_lt (hwf : fr.w.shape.WellFormed r) :
    (fr.w.shape.slots r).length * (fr.w.shape.pool.brk + 1) + (fr.w.shape.slots r).length <
      scanFuel fr.w.shape := by
  have hle := hwf.length_slots_le
  have hmul := Nat.mul_le_mul_right (fr.w.shape.pool.brk + 1) hle
  unfold scanFuel
  rw [Nat.add_mul _ 1, Nat.one_mul]
  omega

theorem setHeaderHelper_add (hwf : fr.w.shape.WellFormed r) (ho : hv.opcode = .add)
    (hit : hv.Hit value fr.w r) : setHeaderHelper r hv value out fr = .ok (.ok, fr) := by
  have hfuel := scanFuel_lt hwf
  unfold setHeaderHelper
  rw [if_neg (by simp [ho]), scan_found ho hwf hwf.at_start hit (by omega)]

theorem setHeaderHelper_no_hit (hwf : fr.w.shape.WellFormed r) (happ : hv.opcode ≠ .append)
    (hno : ¬ hv.Hit value fr.w r) : setHeaderHelper r hv value out fr =
      if value = [] ∨ hv.opcode = .rewrite then .ok (.ok, fr) else create r hv value out fr := by
  have hfuel := scanFuel_lt hwf
  unfold setHeaderHelper
  rw [if_neg happ, scan_none hwf hwf.at_start
    (fun s hs => Bool.eq_false_iff.mpr fun hit => hno ⟨s, hs, hit⟩) (by omega)]

/-- The helper terminates without a fault, and fails with the allocator only. -/
theorem setHeaderHelper_cases (hv : HeaderVal η ο) (value : Str) (out : OutRef) (fr : Frame ρ)
    (hwf : fr.w.shape.WellFormed r) :
    (∃ fr', setHeaderHelper r hv value out fr = .ok (.error, fr') ∧ fr'.w.shape.WellFormed r ∧
      ¬ fr.w.shape.pool.Reliable) ∨
    ∃ fr', setHeaderHelper r hv value out fr = .ok (.ok, fr') ∧ Outcome r hv value out fr fr' := by
  have hcreate : hv.opcode = .append ∨ ¬ hv.Hit value fr.w r ∧ value ≠ [] ∧
      hv.opcode ≠ .rewrite → (∃ fr', create r hv value out fr = .ok (.error, fr') ∧
        fr'.w.shape.WellFormed r ∧ ¬ fr.w.shape.pool.Reliable) ∨
      ∃ fr', create r hv value out fr = .ok (.ok, fr') ∧ Outcome r hv value out fr fr' := by
    intro hc
    rcases create_spec hv value out hwf with
      hf | ⟨s, sh, hwf', hg, hslots, hs, he⟩
    · exact Or.inl hf
    · exact Or.inr ⟨_, he, .created hc hwf' hg hslots hs⟩
  have hfuel := scanFuel_lt hwf
  have hstart := hwf.at_start
  have hslots : fr.w.shape.slots r = [] ++ fr.w.shape.slots r := rfl
  by_cases happ : hv.opcode = .append
  · rw [setHeaderHelper, if_pos happ]
    exact hcreate (Or.inl happ)
  by_cases hany : hv.Hit value fr.w r
  · by_cases hadd : hv.opcode = .add
    · exact Or.inr ⟨fr, setHeaderHelper_add hwf hadd hany, .unchanged (Or.inl ⟨hadd, hany⟩)⟩
    unfold setHeaderHelper
    rw [if_neg happ]
    by_cases hnil : value = []
    · rcases scan_clear out hadd hnil hwf hstart hslots (by simp) hwf.length_slots_le hfuel with
        ⟨fr', he, hwf', hf⟩ | ⟨sh, cell, he, hk⟩
      · exact Or.inl ⟨fr', by rw [he], hwf', hf⟩
      · rw [if_pos (any_hits_iff.mpr hany)] at he
        refine Or.inr ⟨(fr.store r out none).setList sh cell, ?_,
          .cleared hadd happ hnil hany hk⟩
        rw [he]
        exact if_pos (Or.inl hnil)
    · have hset := scan_set out hadd hnil hwf hstart hslots (by simp) hwf.length_slots_le hfuel
      rcases hset with ⟨fr', he, hwf', hf⟩ | hset
      · exact Or.inl ⟨fr', by rw [he], hwf', hf⟩
      · cases hfind : (fr.w.shape.slots r).find? fun s => hv.hits value (fr.w.cell s).key with
        | none =>
          obtain ⟨s, hs, hit⟩ := hany
          exact absurd hit (List.find?_eq_none.mp hfind s hs)
        | some a =>
          rw [hfind] at hset
          obtain ⟨sh, cell, he, hk⟩ := hset
          exact Or.inr ⟨_, by rw [he], .kept hadd happ hnil hfind hk⟩
  · rw [setHeaderHelper_no_hit hwf happ hany]
    by_cases hstop : value = [] ∨ hv.opcode = .rewrite
    · exact Or.inr ⟨fr, if_pos hstop, .unchanged (Or.inr ⟨happ, hany, hstop⟩)⟩
    · rw [if_neg hstop]
      exact hcreate (Or.inr ⟨hany, not_or.mp hstop⟩)

theorem setHeaderHelper_run (hv : HeaderVal η ο) (value : Str) (out : OutRef) (fr : Frame ρ)
    (hwf : fr.w.shape.WellFormed r) :
    ∃ rc fr', setHeaderHelper r hv value out fr = .ok (rc, fr') ∧
      (fr.w.shape.pool.Reliable → rc = .ok) ∧ (rc = .ok → Outcome r hv value out fr fr') := by
  rcases setHeaderHelper_cases hv value out fr hwf with ⟨fr', he, -, hf⟩ | ⟨fr', he, ho⟩
  · exact ⟨.error, fr', he, fun hr => absurd hr hf, nofun⟩
  · exact ⟨.ok, fr', he, fun _ => rfl, fun _ => ho⟩

theorem Outcome.of_run {fr' : Frame ρ} (hwf : fr.w.shape.WellFormed r)
    (he : setHeaderHelper r hv value out fr = .ok (.ok, fr')) : Outcome r hv value out fr fr' := by
  obtain ⟨rc, fr₁, he₁, -, hok⟩ := setHeaderHelper_run hv value out fr hwf
  obtain ⟨rfl, rfl⟩ := Prod.mk.inj (Except.ok.inj (he.symm.trans he₁))
  exact hok rfl

end Spec

end HeadersControl
