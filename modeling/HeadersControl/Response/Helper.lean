import HeadersControl.Response.State
import HeadersControl.Rules.Operators

/-! # The helper that edits the response header list

Entries are never taken out of the list: the helper hides them by setting their
hash to 0. One scan over the visible entries updates the first hit, or hides it
where the value is empty, and hides every later one.
-/

namespace HeadersControl.Response

open Segments Segments.Shape

variable {η ο : Type}

/-- How the scan ends: a `return`, or the end of the list with the flag `matched`. -/
inductive ScanEnd | returned | done (matched : Bool)
  deriving DecidableEq, Repr

/-- The loop over the list, at index `i` of a part. -/
def scan (hv : HeaderVal η ο) (value : Str) (out : Option OutField) :
    ℕ → PartPtr Unit → ℕ → Bool → Response → Except Fault (ScanEnd × Response)
  | 0, _, _, _, _ => .error .endless
  | n + 1, part, i, matched, s =>
      match s.shape.seek part i with
      | none => .ok (.done matched, s)
      | some (part, i) =>
          let h := s.shape.addr part i
          if (s.shape.part part).nelts ≤ i then .error .overrun
          else if (s.cell h).hash = 0 then scan hv value out n part (i + 1) matched s
          else if hv.matchesName (s.cell h).key then
            if hv.opcode = .add then .ok (.returned, s)
            else
              let e := if value = [] ∨ matched then (s.cell h).hide
                else (s.cell h).assign value hv.hash
              scan hv value out n part (i + 1) true ((s.setCell h e).store out h)
          else scan hv value out n part (i + 1) matched s

/-- The code from `append` on. -/
def append (hv : HeaderVal η ο) (value : Str) (out : Option OutField) (s : Response) :
    Except Fault (Rc × Response) :=
  match s.shape.push () with
  | .error e => .error e
  | .ok (none, sh) => .ok (.error, s.setShape sh)
  | .ok (some h, sh) =>
      let elt : TableElt :=
        { s.cell h with
          hash := if value = [] then 0 else hv.hash
          key := hv.key
          value
          next := none }
      match sh.pool.allocBytes with
      | (false, pool) =>
          .ok (.error, (s.setShape (sh.setPool pool)).setCell h { elt with lowcaseKey := [] })
      | (true, pool) =>
          .ok (.ok, ((s.setShape (sh.setPool pool)).setCell h
            { elt with lowcaseKey := strlow hv.key }).store out h)

def scanFuel (sh : Shape Unit) : ℕ := sh.pool.brk + 1

def setHeaderHelper (hv : HeaderVal η ο) (value : Str) (out : Option OutField) (noCreate : Bool)
    (s : Response) : Except Fault (Rc × Response) :=
  let s := s.repairLocation
  if hv.opcode = .append then append hv value out s
  else match scan hv value out (scanFuel s.shape) (.inline ()) 0 false s with
    | .error e => .error e
    | .ok (.returned, s) => .ok (.ok, s)
    | .ok (.done true, s) => .ok (.ok, s)
    | .ok (.done false, s) =>
        if hv.opcode = .rewrite ∨ (hv.wildcard || noCreate) ∧ value = [] then .ok (.ok, s)
        else append hv value out s

section Uniform

variable {hv : HeaderVal η ο} {value : Str} {out : Option OutField} {noCreate : Bool}

theorem scan_id (id n : ℕ) (p : PartPtr Unit) (i : ℕ) (matched : Bool) (s : Response) :
    scan { hv with id } value out n p i matched s = scan hv value out n p i matched s := by
  have hmatches : ∀ name, HeaderVal.matchesName { hv with id } name = hv.matchesName name :=
    fun _ => rfl
  induction n generalizing p i matched s with
  | zero => rfl
  | succ n ih => simp only [scan, hmatches, ih]

theorem setHeaderHelper_id (id : ℕ) (s : Response) :
    setHeaderHelper { hv with id } value out noCreate s =
      setHeaderHelper hv value out noCreate s := by
  unfold setHeaderHelper
  simp only [scan_id]
  rfl

theorem append_ne_declined (s s' : Response) : append hv value out s ≠ .ok (.declined, s') := by
  unfold append
  split
  · simp
  · simp
  · dsimp only
    split <;> simp

theorem setHeaderHelper_ne_declined (s s' : Response) :
    setHeaderHelper hv value out noCreate s ≠ .ok (.declined, s') := by
  unfold setHeaderHelper
  dsimp only
  split
  · exact append_ne_declined _ _
  · split
    · simp
    · simp
    · simp
    · split
      · simp
      · exact append_ne_declined _ _

end Uniform

def hits (s : Response) (hv : HeaderVal η ο) (h : ℕ) : Bool :=
  s.shown h && hv.matchesName (s.cell h).key

def mark (hv : HeaderVal η ο) (value : Str) (keep : Option ℕ) (h : ℕ) (e : TableElt) : TableElt :=
  if keep = some h then e.assign value hv.hash else e.hide

def sweep (s : Response) (hv : HeaderVal η ο) (value : Str) (keep : Option ℕ) (hs : List ℕ)
    (out : Option OutField) : Response :=
  { s with
    cell := fun h => if h ∈ hs then mark hv value keep h (s.cell h) else s.cell h
    ptr :=
      match out, hs.getLast? with
      | some f, some h => Function.update s.ptr f (some h)
      | _, _ => s.ptr }

section Sweep

variable {s : Response} {hv : HeaderVal η ο} {value : Str} {out : Option OutField}
  {keep : Option ℕ} {a n i : ℕ} {p : PartPtr Unit} {hs rest : List ℕ}

@[simp] theorem shape_sweep : (s.sweep hv value keep hs out).shape = s.shape := rfl

theorem sweep_nil : s.sweep hv value keep [] out = s := by
  unfold sweep
  cases out <;> simp

theorem key_mark (keep : Option ℕ) (h : ℕ) (e : TableElt) :
    (mark hv value keep h e).key = e.key := by
  unfold mark
  split <;> rfl

theorem key_sweep (h : ℕ) : ((s.sweep hv value keep hs out).cell h).key = (s.cell h).key := by
  simp only [sweep]
  split
  · exact key_mark _ _ _
  · rfl

theorem next_sweep (h : ℕ) : ((s.sweep hv value keep hs out).cell h).next = (s.cell h).next := by
  simp only [sweep]
  split
  · unfold mark
    split <;> rfl
  · rfl

theorem ptr_sweep_of_ne {f : OutField} (hne : out ≠ some f) :
    (s.sweep hv value keep hs out).ptr f = s.ptr f := by
  cases out with
  | none => rfl
  | some g =>
    have hg : f ≠ g := fun h => hne (congrArg some h.symm)
    cases hlast : hs.getLast? with
    | none => simp [sweep, hlast]
    | some x => simp [sweep, hlast, hg]

theorem ptr_store_of_ne {f : OutField} (hne : out ≠ some f) (x : ℕ) :
    (s.store out x).ptr f = s.ptr f := by
  cases out with
  | none => rfl
  | some g =>
    have hg : f ≠ g := fun h => hne (congrArg some h.symm)
    simp [store, setPtr, hg]

theorem sweep_cons (ha : a ∉ hs) (hk : keep = none ∨ keep = some a) :
    ((s.setCell a (mark hv value keep a (s.cell a))).store out a).sweep hv value none hs out =
      s.sweep hv value keep (a :: hs) out := by
  have hcell : ∀ x, (if x ∈ hs then mark hv value none x
        (Function.update s.cell a (mark hv value keep a (s.cell a)) x)
      else Function.update s.cell a (mark hv value keep a (s.cell a)) x) =
      if x ∈ a :: hs then mark hv value keep x (s.cell x) else s.cell x := by
    intro x
    by_cases hx : x = a
    · subst hx
      simp [ha]
    · have hkx : keep ≠ some x := by
        rcases hk with rfl | rfl <;> simp [Ne.symm hx]
      simp [hx, hkx, mark]
  unfold sweep
  cases out with
  | none =>
    congr 1
    exact funext hcell
  | some f =>
    congr 1
    · exact funext hcell
    · cases hs with
      | nil => rfl
      | cons b hs =>
        rw [List.getLast?_cons_cons]
        cases hl : (b :: hs).getLast? with
        | none => simp at hl
        | some l => simp [store, setPtr]

end Sweep

section Scan

variable {s : Response} {hv : HeaderVal η ο} {value : Str} {out : Option OutField} {n i x : ℕ}
  {p : PartPtr Unit} {rest : List ℕ} {matched : Bool}

theorem hits_eq_false (hs : s.hits hv x = false) :
    (s.cell x).hash = 0 ∨ (s.cell x).hash ≠ 0 ∧ hv.matchesName (s.cell x).key = false := by
  by_cases hx : (s.cell x).hash = 0
  · exact Or.inl hx
  · exact Or.inr ⟨hx, by simpa only [hits, shown, hx, ne_eq, not_false_eq_true, decide_true,
      Bool.true_and] using hs⟩

theorem hits_eq_true (hs : s.hits hv x = true) :
    (s.cell x).hash ≠ 0 ∧ hv.matchesName (s.cell x).key = true := by
  simpa [hits, shown] using hs

theorem scan_nil (hwf : s.shape.WellFormed ()) (ha : s.shape.At () p i []) :
    scan hv value out (n + 1) p i matched s = .ok (.done matched, s) := by
  simp [scan, hwf.seek_nil ha]

theorem scan_miss (value : Str) (out : Option OutField) (n : ℕ) (matched : Bool)
    (hwf : s.shape.WellFormed ()) (ha : s.shape.At () p i (x :: rest))
    (hs : s.hits hv x = false) :
    ∃ q j, s.shape.At () q (j + 1) rest ∧
      scan hv value out (n + 1) p i matched s = scan hv value out n q (j + 1) matched s := by
  obtain ⟨q, j, hseek, rfl, hvalid, hrest⟩ := hwf.seek_cons ha
  refine ⟨q, j, hrest, ?_⟩
  rcases hits_eq_false hs with hd | ⟨hd, hm⟩
  · simp only [scan, hseek, hd, Nat.not_le.mpr hvalid.2, if_true, if_false]
  · simp only [scan, hseek, hd, hm, Nat.not_le.mpr hvalid.2, if_false, Bool.false_eq_true]

theorem scan_hit (value : Str) (out : Option OutField) (n : ℕ) (matched : Bool)
    (hwf : s.shape.WellFormed ()) (ha : s.shape.At () p i (x :: rest))
    (hs : s.hits hv x = true) (ho : hv.opcode ≠ .add) :
    ∃ q j, s.shape.At () q (j + 1) rest ∧
      scan hv value out (n + 1) p i matched s = scan hv value out n q (j + 1) true
        ((s.setCell x (mark hv value (if value = [] ∨ matched then none else some x) x
          (s.cell x))).store out x) := by
  obtain ⟨q, j, hseek, rfl, hvalid, hrest⟩ := hwf.seek_cons ha
  obtain ⟨hd, hm⟩ := hits_eq_true hs
  refine ⟨q, j, hrest, ?_⟩
  by_cases hk : value = [] ∨ matched = true <;>
    simp only [scan, hseek, hd, hm, Nat.not_le.mpr hvalid.2, ho, hk, mark, if_true, if_false,
      reduceCtorEq]

theorem cell_sweep_hit (value : Str) (out : Option OutField) (keep : Option ℕ) (hx : x ∈ rest)
    (hs : s.hits hv x = true) :
    (s.sweep hv value keep (rest.filter (s.hits hv)) out).cell x =
      mark hv value keep x (s.cell x) :=
  if_pos (List.mem_filter.mpr ⟨hx, hs⟩)

theorem cell_sweep_miss {keep : Option ℕ} (hs : s.hits hv x = false) :
    (s.sweep hv value keep (rest.filter (s.hits hv)) out).cell x = s.cell x := by
  apply if_neg
  intro hm
  rw [(List.mem_filter.mp hm).2] at hs
  cases hs

theorem scan_sweep (ho : hv.opcode ≠ .add) (hwf : s.shape.WellFormed ())
    (ha : s.shape.At () p i rest) (hnodup : rest.Nodup) (hn : rest.length < n) :
    scan hv value out n p i matched s =
      .ok (.done (matched || rest.any (s.hits hv)),
        s.sweep hv value (if value = [] ∨ matched then none else rest.find? (s.hits hv))
          (rest.filter (s.hits hv)) out) := by
  induction rest generalizing p i n matched s with
  | nil =>
    obtain _ | n := n
    · simp at hn
    · simp [scan_nil hwf ha, sweep_nil]
  | cons x rest ih =>
    obtain _ | n := n
    · simp at hn
    obtain ⟨hx, hnodup⟩ := List.nodup_cons.mp hnodup
    have hlen : rest.length < n := by simpa using hn
    cases hs : s.hits hv x with
    | false =>
      obtain ⟨q, j, ha', he⟩ := scan_miss value out n matched hwf ha hs
      rw [he, ih hwf ha' hnodup hlen]
      simp [hs]
    | true =>
      obtain ⟨q, j, ha', he⟩ := scan_hit value out n matched hwf ha hs ho
      set keep := if value = [] ∨ matched then none else some x with hkeep
      set s₁ := (s.setCell x (mark hv value keep x (s.cell x))).store out x with hs₁
      have hsame : ∀ y ∈ rest, s₁.hits hv y = s.hits hv y := fun y hy => by
        have hne : y ≠ x := by
          rintro rfl
          exact hx hy
        simp [hits, shown, hs₁, hne]
      have hrec : scan hv value out n q (j + 1) true s₁ = _ :=
        ih (by simpa [hs₁] using hwf) (by simpa [hs₁] using ha') hnodup hlen
      rw [he, hrec, List.filter_congr hsame, List.filter_cons_of_pos hs, List.find?_cons_of_pos hs]
      simp only [or_true, if_true, Bool.true_or, List.any_cons, hs, Bool.or_true, ← hkeep]
      rw [hs₁, sweep_cons (fun hm => hx (List.mem_filter.mp hm).1)]
      rw [hkeep]
      split <;> simp

theorem scan_found (ho : hv.opcode = .add) (hwf : s.shape.WellFormed ())
    (ha : s.shape.At () p i rest) (hrest : rest.any (s.hits hv) = true) (hn : rest.length < n) :
    scan hv value out n p i matched s = .ok (.returned, s) := by
  induction rest generalizing p i n with
  | nil => simp at hrest
  | cons x rest ih =>
    obtain _ | n := n
    · simp at hn
    cases hs : s.hits hv x with
    | false =>
      obtain ⟨q, j, ha', he⟩ := scan_miss value out n matched hwf ha hs
      rw [he]
      exact ih ha' (by simpa [hs] using hrest) (by simpa using hn)
    | true =>
      obtain ⟨q, j, hseek, rfl, hvalid, -⟩ := hwf.seek_cons ha
      obtain ⟨hd, hm⟩ := hits_eq_true hs
      simp only [scan, hseek, hd, hm, Nat.not_le.mpr hvalid.2, ho, if_true, if_false]

theorem scan_none (hwf : s.shape.WellFormed ()) (ha : s.shape.At () p i rest)
    (hrest : rest.any (s.hits hv) = false) (hn : rest.length < n) :
    scan hv value out n p i matched s = .ok (.done matched, s) := by
  induction rest generalizing p i n with
  | nil =>
    obtain _ | n := n
    · simp at hn
    · exact scan_nil hwf ha
  | cons x rest ih =>
    obtain _ | n := n
    · simp at hn
    rw [List.any_cons, Bool.or_eq_false_iff] at hrest
    obtain ⟨q, j, ha', he⟩ := scan_miss value out n matched hwf ha hrest.1
    rw [he]
    exact ih ha' hrest.2 (by simpa using hn)

end Scan

/-- What a failed allocation leaves: the entries of the list are as they were. -/
structure Failed (s s' : Response) : Prop where
  wellFormed : s'.shape.WellFormed ()
  slots : s.shape.slots () <+: s'.shape.slots ()
  same : ∀ h ∈ s.shape.slots (), s'.cell h = s.cell h
  ptr : s'.ptr = s.ptr

/-- Whether the helper leaves the list alone where the scan had no hit. -/
def Stops (hv : HeaderVal η ο) (value : Str) (noCreate : Bool) : Prop :=
  hv.opcode = .rewrite ∨ (hv.wildcard || noCreate) ∧ value = []

/-- Everything that the helper can do to a repaired response where it returns `NGX_OK`. -/
inductive Outcome (hv : HeaderVal η ο) (value : Str) (out : Option OutField) (noCreate : Bool)
    (s : Response) : Response → Prop
  | unchanged :
      hv.opcode = .add ∧ (s.shape.slots ()).any (s.hits hv) = true ∨
        hv.opcode ≠ .append ∧ (s.shape.slots ()).any (s.hits hv) = false ∧
          Stops hv value noCreate →
      Outcome hv value out noCreate s s
  | swept :
      hv.opcode ≠ .add → hv.opcode ≠ .append → (s.shape.slots ()).any (s.hits hv) = true →
      Outcome hv value out noCreate s
        (s.sweep hv value (if value = [] then none else (s.shape.slots ()).find? (s.hits hv))
          ((s.shape.slots ()).filter (s.hits hv)) out)
  | created {a : ℕ} {sh : Shape Unit} :
      hv.opcode = .append ∨
        (s.shape.slots ()).any (s.hits hv) = false ∧ ¬ Stops hv value noCreate →
      sh.WellFormed () → s.shape.pool.Grows sh.pool →
      sh.slots () = s.shape.slots () ++ [a] → a ∉ s.shape.slots () →
      Outcome hv value out noCreate s (((s.setShape sh).setCell a (newElt hv value)).store out a)

section Spec

variable {s : Response} {hv : HeaderVal η ο} {value : Str} {out : Option OutField}
  {noCreate : Bool}

theorem append_spec (hwf : s.shape.WellFormed ()) :
    (∃ s', append hv value out s = .ok (.error, s') ∧ s.Failed s' ∧ ¬ s.shape.pool.Reliable) ∨
    ∃ a sh, sh.WellFormed () ∧ s.shape.pool.Grows sh.pool ∧
      sh.slots () = s.shape.slots () ++ [a] ∧ a ∉ s.shape.slots () ∧
      append hv value out s =
        .ok (.ok, ((s.setShape sh).setCell a (newElt hv value)).store out a) := by
  rcases push_spec hwf with ⟨q, hp, hg, hf⟩ | ⟨a, sh, hp, hg, hwf', hslots, ha⟩
  · exact Or.inl ⟨s.setShape (s.shape.setPool q), by simp [append, hp],
      ⟨hwf.setPool hg, by simp [hwf.slots_setPool hg], fun _ _ => rfl, rfl⟩, hf⟩
  · have hgb := sh.pool.allocBytes_grows
    cases hb : sh.pool.allocBytes with
    | mk ok q =>
      rw [hb] at hgb
      have hslots' : (sh.setPool q).slots () = s.shape.slots () ++ [a] := by
        rw [hwf'.slots_setPool hgb, hslots]
      cases ok with
      | false =>
        refine Or.inl ⟨(s.setShape (sh.setPool q)).setCell a
          { newElt hv value with lowcaseKey := [] }, by simp only [append, hp, hb]; rfl,
          ⟨hwf'.setPool hgb, ?_, ?_, rfl⟩, ?_⟩
        · simp [hslots']
        · intro h hh
          have hne : h ≠ a := by
            rintro rfl
            exact ha hh
          simp [hne]
        · intro hr
          have := hg.reliable.mpr hr sh.pool.tick
          simp [Pool.allocBytes, this] at hb
      | true =>
        exact Or.inr ⟨a, sh.setPool q, hwf'.setPool hgb, hg.trans hgb, hslots', ha,
          by simp only [append, hp, hb]; rfl⟩

theorem setHeaderHelper_no_hit (value : Str) (out : Option OutField) (noCreate : Bool)
    (happ : hv.opcode ≠ .append) (hwf : s.shape.WellFormed ())
    (hno : (s.repairLocation.shape.slots ()).any (s.repairLocation.hits hv) = false) :
    setHeaderHelper hv value out noCreate s =
      if hv.opcode = .rewrite ∨ (hv.wildcard || noCreate) = true ∧ value = [] then
        .ok (.ok, s.repairLocation)
      else append hv value out s.repairLocation := by
  have hwf₀ : s.repairLocation.shape.WellFormed () := by simpa using hwf
  have hfuel : (s.repairLocation.shape.slots ()).length < scanFuel s.repairLocation.shape :=
    Nat.lt_succ_of_le hwf₀.length_slots_le
  unfold setHeaderHelper
  dsimp only
  rw [if_neg happ, scan_none hwf₀ hwf₀.at_start hno hfuel]

theorem setHeaderHelper_hit (value : Str) (out : Option OutField) (noCreate : Bool)
    (happ : hv.opcode ≠ .append) (hadd : hv.opcode ≠ .add) (hwf : s.shape.WellFormed ())
    (hany : (s.repairLocation.shape.slots ()).any (s.repairLocation.hits hv) = true) :
    setHeaderHelper hv value out noCreate s = .ok (.ok, s.repairLocation.sweep hv value
      (if value = [] then none
        else (s.repairLocation.shape.slots ()).find? (s.repairLocation.hits hv))
      ((s.repairLocation.shape.slots ()).filter (s.repairLocation.hits hv)) out) := by
  have hwf₀ : s.repairLocation.shape.WellFormed () := by simpa using hwf
  have hfuel : (s.repairLocation.shape.slots ()).length < scanFuel s.repairLocation.shape :=
    Nat.lt_succ_of_le hwf₀.length_slots_le
  unfold setHeaderHelper
  dsimp only
  rw [if_neg happ, scan_sweep hadd hwf₀ hwf₀.at_start hwf₀.nodup_slots hfuel, hany]
  simp

theorem setHeaderHelper_found (value : Str) (out : Option OutField) (noCreate : Bool)
    (hadd : hv.opcode = .add) (hwf : s.shape.WellFormed ())
    (hany : (s.repairLocation.shape.slots ()).any (s.repairLocation.hits hv) = true) :
    setHeaderHelper hv value out noCreate s = .ok (.ok, s.repairLocation) := by
  have hwf₀ : s.repairLocation.shape.WellFormed () := by simpa using hwf
  have hfuel : (s.repairLocation.shape.slots ()).length < scanFuel s.repairLocation.shape :=
    Nat.lt_succ_of_le hwf₀.length_slots_le
  unfold setHeaderHelper
  dsimp only
  rw [if_neg (by simp [hadd]), scan_found hadd hwf₀ hwf₀.at_start hany hfuel]

theorem setHeaderHelper_cases (hv : HeaderVal η ο) (value : Str) (out : Option OutField)
    (noCreate : Bool) (hwf : s.shape.WellFormed ()) :
    (∃ s', setHeaderHelper hv value out noCreate s = .ok (.error, s') ∧
      s.repairLocation.Failed s' ∧ ¬ s.shape.pool.Reliable) ∨
    ∃ s', setHeaderHelper hv value out noCreate s = .ok (.ok, s') ∧
      Outcome hv value out noCreate s.repairLocation s' := by
  have hwf₀ : s.repairLocation.shape.WellFormed () := by simpa using hwf
  have hcreate : hv.opcode = .append ∨
      (s.repairLocation.shape.slots ()).any (s.repairLocation.hits hv) = false ∧
        ¬ Stops hv value noCreate →
      setHeaderHelper hv value out noCreate s = append hv value out s.repairLocation →
      (∃ s', setHeaderHelper hv value out noCreate s = .ok (.error, s') ∧
        s.repairLocation.Failed s' ∧ ¬ s.shape.pool.Reliable) ∨
      ∃ s', setHeaderHelper hv value out noCreate s = .ok (.ok, s') ∧
        Outcome hv value out noCreate s.repairLocation s' := by
    intro hc he
    rw [he]
    rcases append_spec hwf₀ with ⟨s', hrun, hf, hrel⟩ | ⟨a, sh, hwf', hg, hslots, ha, hrun⟩
    · exact Or.inl ⟨s', hrun, hf, by simpa using hrel⟩
    · exact Or.inr ⟨_, hrun, .created hc hwf' hg hslots ha⟩
  by_cases happ : hv.opcode = .append
  · apply hcreate (Or.inl happ)
    unfold setHeaderHelper
    dsimp only
    rw [if_pos happ]
  cases hany : (s.repairLocation.shape.slots ()).any (s.repairLocation.hits hv) with
  | true =>
    by_cases hadd : hv.opcode = .add
    · exact Or.inr ⟨_, setHeaderHelper_found value out noCreate hadd hwf hany,
        .unchanged (Or.inl ⟨hadd, hany⟩)⟩
    · exact Or.inr ⟨_, setHeaderHelper_hit value out noCreate happ hadd hwf hany,
        .swept hadd happ hany⟩
  | false =>
    have hrun := setHeaderHelper_no_hit value out noCreate happ hwf hany
    by_cases hstop : hv.opcode = .rewrite ∨ (hv.wildcard || noCreate) = true ∧ value = []
    · rw [if_pos hstop] at hrun
      exact Or.inr ⟨_, hrun, .unchanged (Or.inr ⟨happ, hany, hstop⟩)⟩
    · rw [if_neg hstop] at hrun
      exact hcreate (Or.inr ⟨hany, hstop⟩) hrun

theorem setHeaderHelper_run (hv : HeaderVal η ο) (value : Str) (out : Option OutField)
    (noCreate : Bool) (hwf : s.shape.WellFormed ()) :
    ∃ rc s', setHeaderHelper hv value out noCreate s = .ok (rc, s') ∧
      (s.shape.pool.Reliable → rc = .ok) ∧
      (rc = .ok → Outcome hv value out noCreate s.repairLocation s') := by
  rcases setHeaderHelper_cases hv value out noCreate hwf with ⟨s', he, -, hf⟩ | ⟨s', he, ho⟩
  · exact ⟨.error, s', he, fun hr => absurd hr hf, nofun⟩
  · exact ⟨.ok, s', he, fun _ => rfl, fun _ => ho⟩

theorem Outcome.of_stop {s' : Response} (hstop : (hv.wildcard || noCreate) = true)
    (hadd : hv.opcode ≠ .add) (happ : hv.opcode ≠ .append)
    (ho : Outcome hv [] out noCreate s s') :
    s' = s.sweep hv [] none ((s.shape.slots ()).filter (s.hits hv)) out := by
  cases ho with
  | unchanged hu =>
    obtain ⟨-, hno, -⟩ := hu.resolve_left fun h => hadd h.1
    have hnil : (s.shape.slots ()).filter (s.hits hv) = [] := by
      rw [List.filter_eq_nil_iff]
      simpa using hno
    rw [hnil, sweep_nil]
  | swept => rfl
  | created hc => exact absurd (Or.inr ⟨hstop, rfl⟩) (hc.resolve_left happ).2

theorem Outcome.untouched {s' : Response} {h : ℕ} (ho : Outcome hv value out noCreate s s')
    (hh : h ∈ s.shape.slots ()) (hs : s.hits hv h = false) :
    h ∈ s'.shape.slots () ∧ s'.cell h = s.cell h := by
  cases ho with
  | unchanged => exact ⟨hh, rfl⟩
  | swept => exact ⟨hh, cell_sweep_miss hs⟩
  | @created a sh _ _ _ hslots ha =>
    have hne : h ≠ a := by
      rintro rfl
      exact ha hh
    exact ⟨by simp [hslots, hh], by simp [hne]⟩

end Spec

end HeadersControl.Response
