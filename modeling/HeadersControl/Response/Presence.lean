import HeadersControl.Response.Isolation
import HeadersControl.Response.Operators

/-! # Presence and visibility of builtin response headers

The handler of a builtin header takes the header for present when its typed pointer
is set, and writes the one entry behind it. Neither the visibility of that entry
nor the other entries of the name play a part, and the pointer that the helper
hands back is that of the last entry it hid.
-/

namespace HeadersControl

open Segments Segments.Shape

namespace Response

theorem entry_plain : ∀ e ∈ setHandlersOut.entries,
    0 ∉ e.name ∧ e.name.getLast?.map tolower ≠ some 42 ∧ hashStr (strlow e.name) ≠ 0 := by decide

theorem location_entry : ∀ e ∈ setHandlersOut.entries,
    sameName (str "Location") e.name = true → e.offset = some .location := by decide

end Response

theorem HeaderVal.Parsed.of_entry {hv : OutVal} (hp : hv.Parsed setHandlersOut)
    (hbuiltin : hv.handler ≠ .setHeader) :
    ∃ e ∈ setHandlersOut.entries, sameName hv.key e.name = true ∧ hv.handler = e.handler ∧
      hv.offset = e.offset ∧ hv.wildcard = false ∧ hv.hash ≠ 0 ∧ hv.opcode ≠ .append := by
  rcases hp.cases with ⟨e, he, hfind, hname, hhandler, hoff⟩ | ⟨-, hhandler, -⟩
  · obtain ⟨hnul, hlast, hhash⟩ := Response.entry_plain e he
    refine ⟨e, he, hname, hhandler, hoff, ?_, ?_, fun happ => ?_⟩
    · rw [hp.wildcard, decide_eq_false_iff_not]
      intro hstar
      have hend := getLast?_eq_of_sameName hname hnul
      rw [hstar] at hend
      exact hlast (hend.symm.trans (by decide))
    · rwa [hp.hash, hashKeyLc_eq, strlow_eq_of_sameName hname hnul]
    · rw [hp.append happ] at hfind
      cases hfind
  · exact absurd hhandler hbuiltin

namespace Response

variable {s s' s₀ : Response} {hv : OutVal} {value name : Str} {f : OutField} {h : ℕ}

def named (s : Response) (name : Str) : List ℕ :=
  (s.shape.slots ()).filter fun h => s.shown h && sameName (s.cell h).key name

def valuesOf (s : Response) (name : Str) : List Str :=
  (s.visible.filter fun e => sameName e.1 name).map Prod.snd

theorem valuesOf_eq (s : Response) (name : Str) :
    s.valuesOf name = (s.named name).map fun h => (s.cell h).value := by
  simp only [valuesOf, visible, named, List.filter_map, List.map_map, List.filter_filter,
    Function.comp_def, Bool.and_comm]

theorem valuesOf_eq_nil : s.valuesOf name = [] ↔ s.named name = [] := by
  rw [valuesOf_eq, List.map_eq_nil_iff]

theorem mem_named : h ∈ s.named name ↔
    h ∈ s.shape.slots () ∧ s.shown h = true ∧ sameName (s.cell h).key name = true := by
  rw [named, List.mem_filter, Bool.and_eq_true]

theorem named_of_cell {t : Response} (hshape : t.shape = s.shape) (hcell : t.cell = s.cell)
    (name : Str) : t.named name = s.named name := by
  unfold named Response.shown
  rw [hshape, hcell]

theorem repaired_of_cell {t : Response} (hcell : t.cell = s.cell) (hptr : t.ptr = s.ptr) :
    t.repairLocation.cell = s.repairLocation.cell := by
  unfold repairLocation
  rw [hptr]
  cases s.ptr .location with
  | none => exact hcell
  | some h =>
    dsimp only
    rw [hcell]
    split
    · simp [hcell]
    · exact hcell

theorem nodup_named (hwf : s.shape.WellFormed ()) : (s.named name).Nodup :=
  hwf.nodup_slots.filter _

theorem length_valuesOf : (s.valuesOf name).length = (s.named name).length := by
  rw [valuesOf_eq, List.length_map]

theorem filter_hits (hw : hv.wildcard = false) :
    (s.shape.slots ()).filter (s.hits hv) = s.named hv.key := by
  unfold named
  congr 1
  funext h
  rw [hits, matchesName_exact hw]

theorem any_hits (hw : hv.wildcard = false) :
    (s.shape.slots ()).any (s.hits hv) = true ↔ s.named hv.key ≠ [] := by
  rw [← filter_hits hw, ne_eq, List.filter_eq_nil_iff, List.any_eq_true]
  push Not
  rfl

theorem length_chain_le {head : Option ℕ} {x : ℕ} {hs : List ℕ} (hwf : s.shape.WellFormed ())
    (hc : Chained s.cell head (x :: hs)) (hsub : x :: hs ⊆ s.shape.slots ()) :
    hs.length ≤ s.shape.pool.brk := by
  have hle := (hc.nodup.length_le_of_subset hsub).trans hwf.length_slots_le
  exact (Nat.le_succ _).trans hle

theorem eq_singleton_iff {l : List ℕ} {a : ℕ} (ha : a ∈ l) : l = [a] ↔ l.length ≤ 1 := by
  constructor
  · rintro rfl
    exact le_rfl
  · intro hlen
    cases l with
    | nil => cases ha
    | cons b t =>
      obtain rfl : t = [] := List.length_eq_zero_iff.mp (by simpa using hlen)
      rw [List.mem_singleton.mp ha]

theorem all_eq_iff {l : List ℕ} {a : ℕ} (hn : l.Nodup) (ha : a ∈ l) :
    (∀ x ∈ l, x = a) ↔ l = [a] := by
  constructor
  · intro hall
    have hrep := List.eq_replicate_of_mem hall
    rw [hrep, List.nodup_replicate] at hn
    exact (eq_singleton_iff ha).mpr hn
  · rintro rfl x hx
    exact List.mem_singleton.mp hx

theorem named_setCell_shown {e : TableElt} {a : ℕ} (ha : a ∈ s.shape.slots ()) (he : e.hash ≠ 0)
    (hname : sameName e.key name = true) :
    ∀ h, h ∈ (s.setCell a e).named name ↔ h = a ∨ h ∈ s.named name := by
  intro h
  rw [mem_named, mem_named, shape_setCell, Response.shown, Response.shown, cell_setCell]
  by_cases hh : h = a
  · subst hh
    rw [Function.update_self]
    exact iff_of_true ⟨ha, decide_eq_true he, hname⟩ (Or.inl rfl)
  · simp [hh]

theorem mem_valuesOf_setCell {e : TableElt} {a : ℕ} (ha : a ∈ s.shape.slots ()) (he : e.hash ≠ 0)
    (hname : sameName e.key name = true) : e.value ∈ (s.setCell a e).valuesOf name := by
  have hself := (named_setCell_shown ha he hname a).mpr (Or.inl rfl)
  rw [valuesOf_eq]
  exact List.mem_map.mpr ⟨a, hself, by simp⟩

theorem named_setCell_hidden {e : TableElt} {a : ℕ} (he : e.hash = 0) :
    ∀ h, h ∈ (s.setCell a e).named name ↔ h ≠ a ∧ h ∈ s.named name := by
  intro h
  simp only [mem_named, shape_setCell, Response.shown, cell_setCell]
  by_cases hh : h = a
  · subst hh
    simp [he]
  · simp [hh]

theorem valuesOf_setCell_iff {e : TableElt} {a : ℕ} (hwf : s.shape.WellFormed ())
    (ha : a ∈ s.shape.slots ()) (he : e.hash ≠ 0) (hname : sameName e.key name = true) :
    (s.setCell a e).valuesOf name = [e.value] ↔ ∀ h ∈ s.named name, h = a := by
  have hmem : ∀ h, h ∈ (s.setCell a e).named name ↔ h = a ∨ h ∈ s.named name :=
    named_setCell_shown ha he hname
  have hself : a ∈ (s.setCell a e).named name := (hmem a).mpr (Or.inl rfl)
  have hn : ((s.setCell a e).named name).Nodup := nodup_named hwf
  have hall : (∀ h ∈ (s.setCell a e).named name, h = a) ↔ ∀ h ∈ s.named name, h = a := by
    simp only [hmem, forall_eq_or_imp, true_and]
  rw [← hall, all_eq_iff hn hself]
  constructor
  · intro hv
    have hlen := congrArg List.length hv
    rw [length_valuesOf] at hlen
    exact (eq_singleton_iff hself).mpr hlen.le
  · intro hone
    rw [valuesOf_eq, hone]
    simp

section Write

variable (hplain : hv.handler = .setBuiltinHeader)
include hplain

theorem handleOut_write (hoff : hv.offset = some f) {a : ℕ} (hptr : s.ptr f = some a)
    (hadd : hv.opcode ≠ .add) : handleOut hv value s = .ok (.ok, s.setCell a
      (if value = [] then { s.cell a with hash := 0, value }
        else { s.cell a with hash := hv.hash, key := hv.key, value })) := by
  simp only [handleOut, hplain, setBuiltinHeader, hoff, Option.bind_some, hptr, hadd, if_false]
  split <;> rfl

theorem handleOut_helper (hoff : hv.offset = some f) (hptr : s.ptr f = none)
    (hre : hv.opcode ≠ .rewrite) :
    handleOut hv value s = setHeaderHelper hv value (some f) false s := by
  simp only [handleOut, hplain, setBuiltinHeader, hoff, Option.bind_some, hptr, hre, if_false]

theorem hash_of_plain (hp : hv.Parsed setHandlersOut) : hv.hash ≠ 0 ∧ hv.wildcard = false := by
  obtain ⟨-, -, -, -, -, hw, hhash, -⟩ := hp.of_entry (by simp [hplain])
  exact ⟨hhash, hw⟩

end Write

/--
Where the typed pointer of a builtin header designates a visible entry of its name, `set` leaves
the value as the only one, and `clear` none, exactly where it was the only visible entry.
-/
theorem builtin_acts_on_all (s : Response) (hv : OutVal) (f : OutField) (value : Str) (a : ℕ)
    (hwf : s.shape.WellFormed ()) (hp : hv.Parsed setHandlersOut)
    (hplain : hv.handler = .setBuiltinHeader) (hoff : hv.offset = some f)
    (hop : hv.opcode = .set ∨ hv.opcode = .clear ∧ value = []) (hptr : s.ptr f = some a)
    (ha : a ∈ s.named hv.key) :
    ∃ s', handleOut hv value s = .ok (.ok, s') ∧
      (s'.valuesOf hv.key = (if value = [] then [] else [value]) ↔
        (s.valuesOf hv.key).length ≤ 1) := by
  have hadd : hv.opcode ≠ .add := by rcases hop with hop | ⟨hop, -⟩ <;> simp [hop]
  refine ⟨_, handleOut_write hplain hoff hptr hadd, ?_⟩
  have hn : (s.named hv.key).Nodup := nodup_named hwf
  rw [length_valuesOf, ← eq_singleton_iff ha, ← all_eq_iff hn ha]
  by_cases hv₀ : value = []
  · rw [if_pos hv₀, if_pos hv₀, valuesOf_eq_nil, List.eq_nil_iff_forall_not_mem]
    simp only [named_setCell_hidden, not_and, not_imp_not]
  · rw [if_neg hv₀, if_neg hv₀]
    exact valuesOf_setCell_iff hwf (mem_named.mp ha).1 (hash_of_plain hplain hp).1 (sameName_refl _)

def serverResponse (values : List Str) (p : Option ℕ) : Response :=
  .ofElts (values.map fun v => ⟨1, str "Server", v, str "server", none⟩) 4
    fun f => if f = .server then p else none

/-- `set Server b` on a response with one `Server` entry. -/
theorem builtin_acts_on_all_single : ∃ (hv : OutVal) (s' : Response),
    parseDirective (fun _ => true) setHandlersOut 0 [str "set", str "Server", str "b"] = .ok hv ∧
    handleOut hv (str "b") (serverResponse [str "a"] (some 0)) = .ok (.ok, s') ∧
    s'.valuesOf (str "Server") = [str "b"] := by
  have hp := (parseDirective_eq_ok (rfl : parseDirective (fun _ => true) setHandlersOut 0
    [str "set", str "Server", str "b"] = .ok _)).2
  obtain ⟨s', he, hiff⟩ := builtin_acts_on_all (serverResponse [str "a"] (some 0)) _ .server
    (str "b") 0 (single_wellFormed (by decide) (by decide)) hp rfl rfl (Or.inl rfl) rfl (by decide)
  exact ⟨_, s', rfl, he, (hiff.mpr (by decide)).trans (if_neg (by decide))⟩

/-- On a response with two of them the one that the typed pointer does not designate is left. -/
theorem builtin_acts_on_all_twice : ∃ (hv : OutVal) (s' : Response),
    (serverResponse [str "a", str "c"] (some 0)).shape.WellFormed () ∧
    0 ∈ (serverResponse [str "a", str "c"] (some 0)).named (str "Server") ∧
    parseDirective (fun _ => true) setHandlersOut 0 [str "set", str "Server", str "b"] = .ok hv ∧
    handleOut hv (str "b") (serverResponse [str "a", str "c"] (some 0)) = .ok (.ok, s') ∧
    s'.valuesOf (str "Server") = [str "b", str "c"] :=
  ⟨_, _, single_wellFormed (by decide) (by decide), by decide, rfl, rfl, by decide⟩

section HandedBack

theorem head?_eq_getLast?_iff {l : List ℕ} (hn : l.Nodup) (hne : l ≠ []) :
    l.head? = l.getLast? ↔ l.length ≤ 1 := by
  obtain ⟨a, t, rfl⟩ := List.exists_cons_of_ne_nil hne
  rw [← eq_singleton_iff List.mem_cons_self, List.head?_cons]
  constructor
  · intro hlast
    by_contra ht
    have hmem : a ∈ t := by
      cases t with
      | nil => exact absurd rfl ht
      | cons b t =>
        rw [List.getLast?_cons_cons] at hlast
        exact List.mem_of_getLast? hlast.symm
    exact (List.nodup_cons.mp hn).1 hmem
  · intro ht
    rw [ht]
    rfl

/-- The first of the hits is kept, the last of them is handed back. -/
theorem swept_handsBack (value : Str) (f : OutField) (hw : hv.wildcard = false)
    (hhash : hv.hash ≠ 0) (hne : s.named hv.key ≠ []) :
    ∃ p, (s.sweep hv value ((s.shape.slots ()).find? (s.hits hv))
        ((s.shape.slots ()).filter (s.hits hv)) (some f)).ptr f = some p ∧
      p ∈ s.shape.slots () ∧
      (∀ h, h ∈ (s.sweep hv value ((s.shape.slots ()).find? (s.hits hv))
        ((s.shape.slots ()).filter (s.hits hv)) (some f)).named hv.key ↔
          (s.named hv.key).head? = some h) ∧
      (s.named hv.key).getLast? = some p := by
  have hfind : (s.shape.slots ()).find? (s.hits hv) = (s.named hv.key).head? := by
    rw [← filter_hits hw, List.head?_filter]
  cases hl : (s.named hv.key).getLast? with
  | none => exact absurd (List.getLast?_eq_none_iff.mp hl) hne
  | some p =>
    have hp := List.mem_of_getLast? hl
    refine ⟨p, ?_, (mem_named.mp hp).1, fun h => ?_, rfl⟩
    · rw [filter_hits hw]
      simp [sweep, hl]
    · rw [mem_named, shape_sweep, key_sweep]
      constructor
      · rintro ⟨hh, hs, hname⟩
        rw [shown_sweep (fun _ => hhash) hh, Bool.and_eq_true] at hs
        rw [← matchesName_exact hw] at hname
        simpa [hname, hfind] using hs.2
      · intro hhead
        obtain ⟨hh, hs, hname⟩ := mem_named.mp (List.mem_of_head? hhead)
        refine ⟨hh, ?_, hname⟩
        rw [shown_sweep (fun _ => hhash) hh, hs, hfind, hhead]
        simp

theorem Outcome.handsBack (hwf : s.shape.WellFormed ()) (hw : hv.wildcard = false)
    (hhash : hv.hash ≠ 0) (hop : hv.opcode = .set) (hv₀ : value ≠ []) {noCreate : Bool}
    (ho : Outcome hv value (some f) noCreate s s') :
    ∃ p, s'.ptr f = some p ∧ p ∈ s'.shape.slots () ∧
      ((∀ h ∈ s'.named hv.key, h = p) ↔ (s.named hv.key).length ≤ 1) ∧
      (p ∈ s'.named hv.key ∧ (s'.cell p).value = value ↔ (s.named hv.key).length ≤ 1) := by
  have hn : (s.named hv.key).Nodup := nodup_named hwf
  cases ho with
  | unchanged hu =>
    rcases hu with ⟨hadd, -⟩ | ⟨-, -, hstop⟩
    · cases hop.symm.trans hadd
    · rcases hstop with hre | ⟨-, hnil⟩
      · cases hop.symm.trans hre
      · exact absurd hnil hv₀
  | swept _ _ hany =>
    have hne := (any_hits hw).mp hany
    rw [if_neg hv₀]
    obtain ⟨p, hptr, hslot, hnamed, hlast⟩ :=
      swept_handsBack value f hw hhash hne
    obtain ⟨x, hhead⟩ := Option.ne_none_iff_exists'.mp fun h0 => hne (List.head?_eq_none_iff.mp h0)
    refine ⟨p, hptr, hslot, ?_, ?_⟩
    · simp only [hnamed, ← head?_eq_getLast?_iff hn hne, hlast, hhead, Option.some.injEq]
      constructor
      · intro hall
        exact hall x rfl
      · rintro rfl h rfl
        rfl
    · rw [hnamed, ← head?_eq_getLast?_iff hn hne, hlast]
      apply and_iff_left_of_imp
      intro hfirst
      obtain ⟨hh, hs, hname⟩ := mem_named.mp (List.mem_of_head? hfirst)
      have hit : s.hits hv p = true := by
        rw [hits, matchesName_exact hw, hs, hname]
        rfl
      rw [cell_sweep_hit _ _ _ hh hit, ← List.head?_filter, filter_hits hw, hfirst]
      simp [mark, TableElt.assign]
  | @created a sh hc hwf' _ hslots ha =>
    have hnone : s.named hv.key = [] := by
      rcases hc with happ | ⟨hno, -⟩
      · cases hop.symm.trans happ
      · by_contra hne
        rw [(any_hits hw).mpr hne] at hno
        cases hno
    have hmem : ∀ h, h ∈ ((((s.setShape sh).setCell a (newElt hv value)).store (some f) a).named
        hv.key) ↔ h = a := by
      intro h
      rw [mem_named, Response.shown, shape_store, cell_store]
      by_cases hh : h = a
      · subst hh
        simp only [cell_setCell, shape_setCell, shape_setShape, Function.update_self, newElt, hv₀,
          if_false, hslots]
        simpa using hhash
      · have hold : ¬ (h ∈ s.shape.slots () ∧ s.shown h = true ∧
            sameName (s.cell h).key hv.key = true) := by
          rw [← mem_named, hnone]
          exact List.not_mem_nil
        simpa [hslots, hh, Response.shown] using hold
    have hlen : (s.named hv.key).length ≤ 1 := by simp [hnone]
    refine ⟨a, by simp [store, setPtr], by simp [hslots],
      iff_of_true (fun h hh => (hmem h).mp hh) hlen,
      iff_of_true ⟨(hmem a).mpr rfl, by simp [newElt]⟩ hlen⟩

end HandedBack

theorem offset_unique : ∀ e ∈ setHandlersOut.entries, ∀ e' ∈ setHandlersOut.entries,
    e.offset = e'.offset → e.offset ≠ none → e.name = e'.name := by decide

theorem sameName_of_offset {hv' : OutVal} (hp : hv.Parsed setHandlersOut)
    (hp' : hv'.Parsed setHandlersOut) (hoff : hv.offset = some f) (hoff' : hv'.offset = some f) :
    sameName hv.key hv'.key = true := by
  rcases hp.cases with ⟨e, he, -, hname, -, ho⟩ | ⟨-, -, hnone⟩
  · rcases hp'.cases with ⟨e', he', -, hname', -, ho'⟩ | ⟨-, -, hnone⟩
    · have heq := offset_unique e he e' he' (ho.symm.trans (hoff.trans (hoff'.symm.trans ho')))
        (by rw [← ho, hoff]; simp)
      rw [sameName_congr hname, sameName_comm, heq, hname']
    · cases hnone.symm.trans hoff'
  · cases hnone.symm.trans hoff

def Accepts (hv : OutVal) (value : Str) : Prop :=
  hv.handler = .setContentLengthHeader → atosz value ≠ none

theorem pointer_handler : ∀ e ∈ setHandlersOut.entries, e.offset ≠ none →
    e.offset ≠ some .cacheControl → e.handler ∈ [OutHandler.setBuiltinHeader,
      .setAcceptRangesHeader, .setContentLengthHeader] := by decide

theorem handleOut_pointer (s : Response) (hp : hv.Parsed setHandlersOut) (hoff : hv.offset = some f)
    (hf : f ≠ .cacheControl) (hv₀ : value ≠ []) :
    hv.handler ≠ .setHeader ∧ ∃ t : Response, t.shape = s.shape ∧ t.cell = s.cell ∧ t.ptr = s.ptr ∧
      (Accepts hv value → handleOut hv value s = setBuiltinHeader hv value t) ∧
      (¬ Accepts hv value → handleOut hv value s = .ok (.error, s)) := by
  have hmem : hv.handler ∈ [OutHandler.setBuiltinHeader, .setAcceptRangesHeader,
      .setContentLengthHeader] := by
    rcases hp.cases with ⟨e, he, -, -, hhandler, ho⟩ | ⟨-, -, hnone⟩
    · rw [hhandler]
      exact pointer_handler e he (by simp [← ho, hoff]) (by simpa [← ho, hoff] using hf)
    · cases hnone.symm.trans hoff
  unfold handleOut Accepts
  cases hh : hv.handler with
  | setBuiltinHeader =>
    exact ⟨by simp, s, rfl, rfl, rfl, fun _ => rfl, fun hno => absurd (by simp) hno⟩
  | setAcceptRangesHeader =>
    refine ⟨by simp, s, rfl, rfl, rfl, fun _ => ?_, fun hno => absurd (by simp) hno⟩
    simp [setAcceptRangesHeader, hv₀]
  | setContentLengthHeader =>
    dsimp only
    unfold setContentLengthHeader
    rw [if_neg hv₀]
    cases hlen : atosz value with
    | none => exact ⟨by simp, s, rfl, rfl, rfl, fun hacc => absurd rfl (hacc rfl), fun _ => rfl⟩
    | some len =>
      exact ⟨by simp, { s with contentLengthN := len }, rfl, rfl, rfl, fun _ => rfl,
        fun hno => absurd (by simp) hno⟩
  | setHeader => simp [hh] at hmem
  | setContentTypeHeader => simp [hh] at hmem
  | setBuiltinMultiHeader => simp [hh] at hmem

section SetTwice

variable {hv' : OutVal} {value' : Str}

theorem set_twice_pointer (hwf : s.shape.WellFormed ()) (hp : hv.Parsed setHandlersOut)
    (hp' : hv'.Parsed setHandlersOut) (hoff : hv.offset = some f) (hoff' : hv'.offset = some f)
    (hf : f ≠ .cacheControl) (hop : hv.opcode = .set) (hop' : hv'.opcode = .set)
    (hv₀ : value ≠ []) (hv₀' : value' ≠ []) (hptr : s.ptr f = none) :
    ∃ rc s₁, handleOut hv value s = .ok (rc, s₁) ∧
      (s.shape.pool.Reliable → Accepts hv value → rc = .ok) ∧
      (rc = .ok → ∃ rc' s₂, handleOut hv' value' s₁ = .ok (rc', s₂) ∧
        (Accepts hv' value' → rc' = .ok) ∧ (rc' = .ok →
          (s₂.valuesOf hv.key = [value'] ↔ (s.repairLocation.named hv.key).length ≤ 1))) := by
  obtain ⟨hbuiltin, t, hshape, hcell, hptr_t, hrun, hrej⟩ :=
    handleOut_pointer s hp hoff hf hv₀
  by_cases hacc : Accepts hv value
  swap
  · exact ⟨.error, s, hrej hacc, fun _ h => absurd h hacc, fun hrc => by cases hrc⟩
  obtain ⟨-, -, -, -, -, hw, hhash, -⟩ := hp.of_entry hbuiltin
  have hnull : (hv.offset.bind t.ptr) = none := by simp [hoff, hptr_t, hptr]
  have hrepair : t.repairLocation.named hv.key = s.repairLocation.named hv.key :=
    named_of_cell (by simp [hshape]) (repaired_of_cell hcell hptr_t) _
  have hwf_t : t.repairLocation.shape.WellFormed () := by simpa [hshape] using hwf
  obtain ⟨rc, s₁, he, hrel, hok⟩ := setHeaderHelper_run hv value (some f) false (hshape ▸ hwf)
  rw [hrun hacc, setBuiltinHeader, hnull]
  dsimp only
  rw [if_neg (by simp [hop]), hoff]
  refine ⟨rc, s₁, he, fun hr _ => hrel (hshape ▸ hr), fun hrc => ?_⟩
  obtain ⟨p, hp₁, hslot, hall, -⟩ := (hok hrc).handsBack hwf_t hw hhash hop hv₀
  obtain ⟨hbuiltin', t', hshape', hcell', hptr', hrun', hrej'⟩ :=
    handleOut_pointer s₁ hp' hoff' hf hv₀'
  by_cases hacc' : Accepts hv' value'
  swap
  · exact ⟨.error, s₁, hrej' hacc', fun h => absurd h hacc', fun hrc => by cases hrc⟩
  obtain ⟨-, -, -, -, -, -, hhash', -⟩ := hp'.of_entry hbuiltin'
  have hset : hv'.offset.bind t'.ptr = some p := by simp [hoff', hptr', hp₁]
  rw [hrun' hacc', setBuiltinHeader, hset]
  dsimp only
  rw [if_neg (by simp [hop']), if_neg hv₀']
  refine ⟨.ok, _, rfl, fun _ => rfl, fun _ => ?_⟩
  rw [← hrepair, ← hall, ← named_of_cell hshape' hcell' hv.key]
  refine valuesOf_setCell_iff (hshape' ▸ (hok hrc).wellFormed hwf_t) (hshape' ▸ hslot) hhash' ?_
  rw [sameName_comm]
  exact sameName_of_offset hp hp' hoff hoff'

theorem multi_handler : ∀ e ∈ setHandlersOut.entries, e.offset = some .cacheControl →
    e.handler = .setBuiltinMultiHeader := by decide

theorem set_twice_chain (hwf : s.shape.WellFormed ()) (hp : hv.Parsed setHandlersOut)
    (hp' : hv'.Parsed setHandlersOut) (hoff : hv.offset = some .cacheControl)
    (hoff' : hv'.offset = some .cacheControl) (hv₀ : value ≠ []) (hv₀' : value' ≠ [])
    (hptr : s.ptr .cacheControl = none) :
    ∃ rc s₁, handleOut hv value s = .ok (rc, s₁) ∧ (s.shape.pool.Reliable → rc = .ok) ∧
      (rc = .ok → ∃ s₂, handleOut hv' value' s₁ = .ok (.ok, s₂) ∧
        (s₂.valuesOf hv.key = [value'] ↔ s.named hv.key = [])) := by
  have hmulti : ∀ {hv : OutVal}, hv.Parsed setHandlersOut → hv.offset = some .cacheControl →
      hv.handler = .setBuiltinMultiHeader := by
    intro hv hp hoff
    rcases hp.cases with ⟨e, he, -, -, hhandler, ho⟩ | ⟨-, -, hnone⟩
    · exact hhandler.trans (multi_handler e he (ho.symm.trans hoff))
    · cases hnone.symm.trans hoff
  have hh := hmulti hp hoff
  have hh' := hmulti hp' hoff'
  have hname := (multi_of_handler hp hh).2
  obtain ⟨-, -, -, -, -, -, hhash, -⟩ := hp.of_entry (by simp [hh])
  obtain ⟨-, -, -, -, -, -, hhash', -⟩ := hp'.of_entry (by simp [hh'])
  have hfirst : handleOut hv value s = setBuiltinMultiHeader hv value s := by
    simp only [handleOut, hh]
  rw [hfirst, setBuiltinMultiHeader, hoff]
  dsimp only
  rw [hptr]
  dsimp only
  rw [if_neg hv₀]
  rcases push_spec hwf with ⟨q, hpush, -, hrel⟩ | ⟨a, sh, hpush, -, hwf₁, hslots, ha⟩
  · rw [hpush]
    exact ⟨.error, _, rfl, fun hr => absurd hr hrel, fun hrc => by cases hrc⟩
  rw [hpush]
  refine ⟨.ok, _, rfl, fun _ => rfl, fun _ => ?_⟩
  generalize hs₁ : (((s.setShape sh).setCell a { s.cell a with
    value, hash := hv.hash, key := str "Cache-Control", next := none }).setPtr .cacheControl
      (some a)) = s₁
  have hshape : s₁.shape = sh := by rw [← hs₁]; rfl
  have hcell : s₁.cell = Function.update s.cell a { s.cell a with
      value, hash := hv.hash, key := str "Cache-Control", next := none } := by rw [← hs₁]; rfl
  have hchain : Chained s₁.cell (s₁.ptr .cacheControl) [a] := by
    rw [hcell, ← hs₁]
    exact ⟨by simp [setPtr], by simp [Chained]⟩
  have hwrite : writeChain hv' value' s₁ a [] =
      s₁.setCell a { s₁.cell a with value := value', hash := hv'.hash } := by
    unfold writeChain setCell
    congr 1
    funext h
    by_cases hha : h = a <;> simp [hha, hv₀']
  have hsecond : handleOut hv' value' s₁ = .ok (.ok, writeChain hv' value' s₁ a []) := by
    simp only [handleOut, hh']
    exact setBuiltinMultiHeader_write hoff' hchain (by simp)
  have hkey : sameName (s₁.cell a).key hv.key = true := by
    rw [hcell, Function.update_self, sameName_comm]
    exact hname
  have hmem : ∀ h, h ∈ s₁.named hv.key ↔ h = a ∨ h ∈ s.named hv.key := by
    intro h
    rw [mem_named, mem_named, Response.shown, Response.shown, hshape, hslots]
    by_cases hha : h = a
    · subst hha
      rw [hcell, Function.update_self]
      exact iff_of_true ⟨by simp, by simpa using hhash, by rwa [sameName_comm]⟩ (Or.inl rfl)
    · simp [hcell, hha]
  have hslot : a ∈ s₁.shape.slots () := by simp [hshape, hslots]
  refine ⟨_, hsecond, ?_⟩
  rw [hwrite]
  refine (valuesOf_setCell_iff (e := { s₁.cell a with value := value', hash := hv'.hash })
    (hshape ▸ hwf₁) hslot hhash' hkey).trans ?_
  rw [List.eq_nil_iff_forall_not_mem]
  constructor
  · intro hall h hh
    obtain rfl := hall h ((hmem h).mpr (Or.inr hh))
    exact ha (mem_named.mp hh).1
  · intro hnone h hh
    exact ((hmem h).mp hh).resolve_right (hnone h)

end SetTwice

/-- The entries of the name that the first of two rules `set` may find. -/
def OneNamed (s : Response) (f : OutField) (name : Str) : Prop :=
  if f = .cacheControl then s.named name = [] else (s.repairLocation.named name).length ≤ 1

/--
The helper, given an output header, hands back a visible entry with the value exactly where one
visible entry of the name was there at most. So does a rule `set -n` followed by `set` leave the
second value as the only one, where the typed pointer of the name was null, whichever builtin
header has the pointer. The chain of `Cache-Control` is not looked for in the list.
-/
theorem helper_hands_back (s : Response) (hwf : s.shape.WellFormed ()) :
    (∀ (hv : OutVal) (value : Str) (f : OutField) (noCreate : Bool), hv.wildcard = false →
      hv.hash ≠ 0 → hv.opcode = .set → value ≠ [] →
      ∃ rc s', setHeaderHelper hv value (some f) noCreate s = .ok (rc, s') ∧
        (s.shape.pool.Reliable → rc = .ok) ∧
        (rc = .ok →
          ((∃ p ∈ s'.named hv.key, s'.ptr f = some p ∧ (s'.cell p).value = value) ↔
            (s.repairLocation.named hv.key).length ≤ 1))) ∧
    ∀ (hv hv' : OutVal) (value value' : Str) (f : OutField), hv.Parsed setHandlersOut →
      hv'.Parsed setHandlersOut → hv.offset = some f → hv'.offset = some f →
      hv.opcode = .set → hv'.opcode = .set → value ≠ [] → value' ≠ [] → s.ptr f = none →
      ∃ rc s₁, handleOut hv value s = .ok (rc, s₁) ∧
        (s.shape.pool.Reliable → Accepts hv value → rc = .ok) ∧
        (rc = .ok → ∃ rc' s₂, handleOut hv' value' s₁ = .ok (rc', s₂) ∧
          (Accepts hv' value' → rc' = .ok) ∧
          (rc' = .ok → (s₂.valuesOf hv.key = [value'] ↔ s.OneNamed f hv.key))) := by
  constructor
  · intro hv value f noCreate hw hhash hop hv₀
    obtain ⟨rc, s', he, hrel, hok⟩ := setHeaderHelper_run hv value (some f) noCreate hwf
    refine ⟨rc, s', he, hrel, fun hrc => ?_⟩
    obtain ⟨p, hptr, -, -, hback⟩ := (hok hrc).handsBack (by simpa using hwf) hw hhash hop hv₀
    rw [← hback]
    constructor
    · rintro ⟨q, hq, hptr', hval⟩
      obtain rfl := Option.some.inj (hptr.symm.trans hptr')
      exact ⟨hq, hval⟩
    · rintro ⟨hmem, hval⟩
      exact ⟨p, hmem, hptr, hval⟩
  · intro hv hv' value value' f hp hp' hoff hoff' hop hop' hv₀ hv₀' hptr
    unfold OneNamed
    by_cases hf : f = .cacheControl
    · subst hf
      rw [if_pos rfl]
      obtain ⟨rc, s₁, he, hrel, hset⟩ := set_twice_chain hwf hp hp' hoff hoff' hv₀ hv₀' hptr
      refine ⟨rc, s₁, he, fun hr _ => hrel hr, fun hrc => ?_⟩
      obtain ⟨s₂, he₂, hiff⟩ := hset hrc
      exact ⟨.ok, s₂, he₂, fun _ => rfl, fun _ => hiff⟩
    · rw [if_neg hf]
      exact set_twice_pointer hwf hp hp' hoff hoff' hf hop hop' hv₀ hv₀' hptr

/-- `set -n Server a` and `set Server b` on a response with one `Server` entry. -/
theorem helper_hands_back_single : ∃ (hv hv' : OutVal) (s₁ s₂ : Response),
    parseDirective (fun _ => true) setHandlersOut 0
      [str "set", str "-n", str "Server", str "a"] = .ok hv ∧
    parseDirective (fun _ => true) setHandlersOut 1 [str "set", str "Server", str "b"] = .ok hv' ∧
    handleOut hv (str "a") (serverResponse [str "x"] none) = .ok (.ok, s₁) ∧
    handleOut hv' (str "b") s₁ = .ok (.ok, s₂) ∧ s₂.valuesOf (str "Server") = [str "b"] := by
  have hp := (parseDirective_eq_ok (rfl : parseDirective (fun _ => true) setHandlersOut 0
    [str "set", str "-n", str "Server", str "a"] = .ok _)).2
  have hp' := (parseDirective_eq_ok (rfl : parseDirective (fun _ => true) setHandlersOut 1
    [str "set", str "Server", str "b"] = .ok _)).2
  obtain ⟨rc, s₁, he, hrel, hset⟩ := (helper_hands_back (serverResponse [str "x"] none)
    (single_wellFormed (by decide) (by decide))).2 _ _ (str "a") (str "b") .server hp hp' rfl rfl
    rfl rfl (by decide) (by decide) rfl
  obtain rfl := hrel (fun _ => rfl) fun hh => by cases hh
  obtain ⟨rc', s₂, he₂, hacc, hiff⟩ := hset rfl
  obtain rfl := hacc fun hh => by cases hh
  exact ⟨_, _, s₁, s₂, rfl, rfl, he, he₂, (hiff rfl).mpr (by unfold OneNamed; decide)⟩

/--
On a response with two of them the first rule hands back the hidden one, and the second rule
makes it visible again.
-/
theorem helper_hands_back_twice : ∃ (hv hv' : OutVal) (s₁ s₂ : Response),
    (serverResponse [str "x", str "y"] none).shape.WellFormed () ∧
    parseDirective (fun _ => true) setHandlersOut 0
      [str "set", str "-n", str "Server", str "a"] = .ok hv ∧
    parseDirective (fun _ => true) setHandlersOut 1 [str "set", str "Server", str "b"] = .ok hv' ∧
    setHeaderHelper hv (str "a") (some .server) false (serverResponse [str "x", str "y"] none) =
      .ok (.ok, s₁) ∧
    handleOut hv (str "a") (serverResponse [str "x", str "y"] none) = .ok (.ok, s₁) ∧
    s₁.ptr .server = some 1 ∧ s₁.shown 1 = false ∧
    handleOut hv' (str "b") s₁ = .ok (.ok, s₂) ∧
    s₂.valuesOf (str "Server") = [str "a", str "b"] :=
  ⟨_, _, _, _, single_wellFormed (by decide) (by decide), rfl, rfl, rfl, rfl, rfl, by decide, rfl,
    by decide⟩

section Runs

def RuleStep (cv : ComplexValue → Response → Option Str) (s s' : Response) : Prop :=
  ∃ (hv : OutVal) (rc : Rc), hv.Parsed setHandlersOut ∧ execOutputHeader cv hv s = .ok (rc, s')

theorem shape_hideChain {n : ℕ} {head : Option ℕ} (he : hideChain n head s = some s') :
    s'.shape = s.shape := by
  induction n generalizing head s with
  | zero =>
    cases head with
    | none =>
      obtain rfl := Option.some.inj he
      rfl
    | some h => cases he
  | succ n ih =>
    cases head with
    | none =>
      obtain rfl := Option.some.inj he
      rfl
    | some h => exact (ih (s := s.setCell h (s.cell h).hide) he).trans rfl

theorem setHeaderHelper_wellFormed {out : Option OutField} {noCreate : Bool} {rc : Rc}
    (he : setHeaderHelper hv value out noCreate s = .ok (rc, s')) (hwf : s.shape.WellFormed ()) :
    s'.shape.WellFormed () := by
  rcases setHeaderHelper_cases hv value out noCreate hwf with ⟨s₁, he₁, hf, -⟩ | ⟨s₁, he₁, ho⟩
  · obtain rfl := (Prod.mk.inj (Except.ok.inj (he.symm.trans he₁))).2
    exact hf.wellFormed
  · obtain rfl := (Prod.mk.inj (Except.ok.inj (he.symm.trans he₁))).2
    exact ho.wellFormed (by simpa using hwf)

theorem setBuiltinHeader_wellFormed {rc : Rc} (he : setBuiltinHeader hv value s = .ok (rc, s'))
    (hwf : s.shape.WellFormed ()) : s'.shape.WellFormed () := by
  unfold setBuiltinHeader at he
  split at he
  · split at he
    · cases he
      exact hwf
    · exact setHeaderHelper_wellFormed he hwf
  · split_ifs at he <;> (cases he; exact hwf)

theorem setBuiltinMultiHeader_wellFormed {rc : Rc}
    (he : setBuiltinMultiHeader hv value s = .ok (rc, s')) (hwf : s.shape.WellFormed ()) :
    s'.shape.WellFormed () := by
  unfold setBuiltinMultiHeader at he
  split at he
  · cases he
  · split at he
    · split at he
      · cases he
      · rename_i hhide
        cases he
        simpa [shape_hideChain hhide] using hwf
    · split at he
      · cases he
        exact hwf
      · rcases push_spec hwf with ⟨q, hp, hg, -⟩ | ⟨a, sh, hp, -, hwf', -, -⟩
        · rw [hp] at he
          cases he
          exact hwf.setPool hg
        · rw [hp] at he
          cases he
          exact hwf'

theorem handleOut_wellFormed {rc : Rc} (he : handleOut hv value s = .ok (rc, s'))
    (hwf : s.shape.WellFormed ()) : s'.shape.WellFormed () := by
  obtain ⟨t, v, hshape, -, -, hcall⟩ := handleOut_calls hv value s
  have hwf_t : t.shape.WellFormed () := hshape ▸ hwf
  rcases hcall with hrun | ⟨noCreate, hrun⟩ | ⟨-, hrun⟩ | ⟨-, hrun⟩
  · cases hrun.symm.trans he
    exact hwf_t
  · exact setHeaderHelper_wellFormed (hrun.symm.trans he) hwf_t
  · exact setBuiltinHeader_wellFormed (hrun.symm.trans he) hwf_t
  · exact setBuiltinMultiHeader_wellFormed (hrun.symm.trans he) hwf_t

theorem RuleStep.wellFormed {cv : ComplexValue → Response → Option Str} (hs : RuleStep cv s s')
    (hwf : s.shape.WellFormed ()) : s'.shape.WellFormed () := by
  obtain ⟨hv, rc, -, he⟩ := hs
  rcases execHeader_inv he with ⟨rfl, -⟩ | ⟨-, value, -, he⟩
  · exact hwf
  · exact handleOut_wellFormed he hwf

theorem wellFormed_of_run {cv : ComplexValue → Response → Option Str}
    (hrun : Relation.ReflTransGen (RuleStep cv) s s') (hwf : s.shape.WellFormed ()) :
    s'.shape.WellFormed () := by
  induction hrun with
  | refl => exact hwf
  | tail _ hstep ih => exact hstep.wellFormed ih

end Runs

section Presence

def AddFollows (name value : Str) (s s' : Response) : Prop :=
  (s.valuesOf name = [] → value ∈ s'.valuesOf name) ∧
    (s.valuesOf name ≠ [] → s'.visible = s.visible)

def RewriteFollows (name value : Str) (s s' : Response) : Prop :=
  (s.valuesOf name ≠ [] → value ∈ s'.valuesOf name) ∧
    (s.valuesOf name = [] → s'.visible = s.visible)

def Listed (s : Response) (f : OutField) : Prop := ∃ h ∈ s.shape.slots (), s.ptr f = some h

theorem named_of_repairLocation (hname : sameName (str "Location") name = false)
    (hh : h ∈ s.repairLocation.named name) : h ∈ s.named name := by
  obtain ⟨hslot, hs, hn⟩ := mem_named.mp hh
  rw [shape_repairLocation] at hslot
  rcases s.cell_repairLocation h with hc | ⟨-, -, hc⟩
  · rw [Response.shown, hc] at hs
    rw [hc] at hn
    exact mem_named.mpr ⟨hslot, hs, hn⟩
  · rw [hc, hname] at hn
    cases hn

theorem named_of_repaired (hp : hv.Parsed setHandlersOut) (hoff : hv.offset = some f)
    (hptr : s.ptr f = none) (hh : h ∈ s.repairLocation.named hv.key) : h ∈ s.named hv.key := by
  cases hname : sameName (str "Location") hv.key with
  | false => exact named_of_repairLocation hname hh
  | true =>
    rcases hp.cases with ⟨e, he, -, hkey, -, ho⟩ | ⟨-, -, hnone⟩
    · have hloc := location_entry e he ((sameName_congr hname _).trans hkey)
      obtain rfl := Option.some.inj (hoff.symm.trans (ho.trans hloc))
      rwa [repairLocation_of_none hptr] at hh
    · cases hnone.symm.trans hoff

theorem length_visible_repairLocation :
    s.visible.length ≤ s.repairLocation.visible.length := by
  simp only [visible, List.length_map, shape_repairLocation]
  apply List.Sublist.length_le
  apply List.monotone_filter_right
  intro h hs
  unfold Response.shown at hs ⊢
  rcases s.cell_repairLocation h with hc | ⟨-, -, hc⟩
  · rwa [hc]
  · rw [hc]
    exact decide_eq_true locationHash_ne_zero

theorem visible_setCell_of_not_mem {e : TableElt} (hh : h ∉ s.shape.slots ()) :
    (s.setCell h e).visible = s.visible := by
  have hne : ∀ x ∈ s.shape.slots (), x ≠ h := fun x hx => by
    rintro rfl
    exact hh hx
  unfold visible
  rw [shape_setCell, List.filter_congr (q := s.shown) fun x hx => by
    simp [Response.shown, hne x hx]]
  apply List.map_congr_left
  intro x hx
  simp [hne x (List.mem_filter.mp hx).1]

theorem mem_valuesOf : value ∈ s.valuesOf name ↔
    ∃ key, (key, value) ∈ s.visible ∧ sameName key name = true := by
  simp [valuesOf]

theorem Outcome.of_add {out : Option OutField} (hw : hv.wildcard = false) (hhash : hv.hash ≠ 0)
    (hop : hv.opcode = .add) (ho : Outcome hv value out false s s') :
    s.named hv.key ≠ [] ∧ s' = s ∨ s.named hv.key = [] ∧
      s'.visible = s.visible ++ if value = [] then [] else [(hv.key, value)] := by
  cases ho with
  | unchanged hu =>
    rcases hu with ⟨-, hany⟩ | ⟨-, -, hstop⟩
    · exact Or.inl ⟨(any_hits hw).mp hany, rfl⟩
    · rcases hstop with hre | ⟨hno, -⟩
      · cases hop.symm.trans hre
      · simp [hw] at hno
  | swept hadd => exact absurd hop hadd
  | created hc _ _ hslots ha =>
    obtain ⟨hno, -⟩ := hc.resolve_left (by simp [hop])
    refine Or.inr ⟨?_, by rw [visible_store, visible_created hslots ha hhash]⟩
    by_contra hne
    rw [(any_hits hw).mpr hne] at hno
    cases hno

/-- An entry that the repair has renamed is not made up for by one behind the others. -/
theorem renamed_visible_ne (hnone : s.repairLocation.named name = []) (hne : s.valuesOf name ≠ [])
    (es : List (Str × Str)) : s.repairLocation.visible ++ es ≠ s.visible := by
  intro heq
  have hlonger := s.length_visible_repairLocation
  have hlen := congrArg List.length heq
  rw [List.length_append] at hlen
  have hnil : es = [] := List.length_eq_zero_iff.mp (by omega)
  rw [hnil, List.append_nil] at heq
  apply hne
  rw [valuesOf, ← heq, ← valuesOf, valuesOf_eq_nil, hnone]

theorem add_follows_iff (hwf : s.shape.WellFormed ()) (hp : hv.Parsed setHandlersOut)
    (hplain : hv.handler = .setBuiltinHeader) (hoff : hv.offset = some f) (hv₀ : value ≠ [])
    (hop : hv.opcode = .add) :
    ∃ rc s', handleOut hv value s = .ok (rc, s') ∧ (s.shape.pool.Reliable → rc = .ok) ∧
      (rc = .ok → (AddFollows hv.key value s s' ↔
        (s.valuesOf hv.key = [] → s.ptr f = none) ∧
          (s.valuesOf hv.key ≠ [] → s.ptr f ≠ none ∨ s.LocationNamed))) := by
  obtain ⟨hhash, hw⟩ := hash_of_plain hplain hp
  cases hptr : s.ptr f with
  | some a =>
    have he : handleOut hv value s = .ok (.ok, s) := by
      simp [handleOut, hplain, setBuiltinHeader, hoff, hptr, hop]
    refine ⟨.ok, s, he, fun _ => rfl, fun _ => ?_⟩
    constructor
    · rintro ⟨hshow, -⟩
      refine ⟨fun hnil => ?_, fun _ => Or.inl (by simp)⟩
      have hmem := hshow hnil
      rw [hnil] at hmem
      cases hmem
    · rintro ⟨hnone, -⟩
      exact ⟨fun hnil => absurd (hnone hnil) (by simp), fun _ => rfl⟩
  | none =>
    rw [handleOut_helper hplain hoff hptr (by simp [hop])]
    obtain ⟨rc, s', he, hrel, hok⟩ := setHeaderHelper_run hv value (some f) false hwf
    refine ⟨rc, s', he, hrel, fun hrc => ?_⟩
    rcases (hok hrc).of_add hw hhash hop with ⟨hany, rfl⟩ | ⟨hnone, hvis⟩
    · obtain ⟨h, hh⟩ := List.exists_mem_of_ne_nil _ hany
      have hne : s.valuesOf hv.key ≠ [] := fun hnil =>
        List.ne_nil_of_mem (named_of_repaired hp hoff hptr hh) (valuesOf_eq_nil.mp hnil)
      simp [AddFollows, hne, visible_repairLocation_iff hwf]
    · rw [if_neg hv₀] at hvis
      have hmem : value ∈ s'.valuesOf hv.key := by
        rw [mem_valuesOf, hvis]
        exact ⟨hv.key, by simp, sameName_refl _⟩
      by_cases hnil : s.valuesOf hv.key = []
      · simp [AddFollows, hnil, hmem]
      · have hne : s'.visible ≠ s.visible := hvis ▸ renamed_visible_ne hnone hnil _
        have hrepair : ¬ s.LocationNamed := fun hl =>
          renamed_visible_ne hnone hnil [] (by simpa using visible_repairLocation hl)
        simp [AddFollows, hnil, hne, hrepair]

theorem rewrite_follows_iff (hp : hv.Parsed setHandlersOut)
    (hplain : hv.handler = .setBuiltinHeader) (hoff : hv.offset = some f) (hv₀ : value ≠ [])
    (hop : hv.opcode = .rewrite) :
    ∃ s', handleOut hv value s = .ok (.ok, s') ∧ (RewriteFollows hv.key value s s' ↔
      (s.valuesOf hv.key = [] → ¬ s.Listed f) ∧
        (s.valuesOf hv.key ≠ [] → s.Listed f ∨ value ∈ s.valuesOf hv.key)) := by
  cases hptr : s.ptr f with
  | none =>
    refine ⟨s, by simp [handleOut, hplain, setBuiltinHeader, hoff, hptr, hop], ?_⟩
    simp [RewriteFollows, Listed, hptr]
  | some a =>
    refine ⟨_, handleOut_write hplain hoff hptr (by simp [hop]), ?_⟩
    rw [if_neg hv₀]
    have hlisted : s.Listed f ↔ a ∈ s.shape.slots () := by simp [Listed, hptr]
    rw [hlisted]
    by_cases ha : a ∈ s.shape.slots ()
    · have hmem := mem_valuesOf_setCell (e := { s.cell a with
        hash := hv.hash, key := hv.key, value }) ha (hash_of_plain hplain hp).1
        (sameName_refl hv.key)
      have hchanged : s.valuesOf hv.key = [] → (s.setCell a { s.cell a with
          hash := hv.hash, key := hv.key, value }).visible ≠ s.visible := fun hnil heq => by
        rw [valuesOf, heq, ← valuesOf, hnil] at hmem
        cases hmem
      constructor
      · rintro ⟨-, hkeep⟩
        exact ⟨fun hnil _ => hchanged hnil (hkeep hnil), fun _ => Or.inl ha⟩
      · rintro ⟨hno, -⟩
        exact ⟨fun _ => hmem, fun hnil => absurd ha (hno hnil)⟩
    · have hvis : (s.setCell a { s.cell a with hash := hv.hash, key := hv.key, value }).visible =
          s.visible := visible_setCell_of_not_mem ha
      simp [RewriteFollows, ha, valuesOf, hvis]

/--
In every state that a run of rules reaches, `add` and `rewrite` of a builtin header follow the
visible entries of its name exactly where its typed pointer agrees with them.
-/
theorem presence_after_run (cv : ComplexValue → Response → Option Str) (s₀ s : Response)
    (hwf : s₀.shape.WellFormed ()) (hrun : Relation.ReflTransGen (RuleStep cv) s₀ s) (hv : OutVal)
    (f : OutField) (value : Str) (hp : hv.Parsed setHandlersOut)
    (hplain : hv.handler = .setBuiltinHeader) (hoff : hv.offset = some f) (hv₀ : value ≠ []) :
    (hv.opcode = .add → ∃ rc s', handleOut hv value s = .ok (rc, s') ∧
      (s.shape.pool.Reliable → rc = .ok) ∧ (rc = .ok → (AddFollows hv.key value s s' ↔
        (s.valuesOf hv.key = [] → s.ptr f = none) ∧
          (s.valuesOf hv.key ≠ [] → s.ptr f ≠ none ∨ s.LocationNamed)))) ∧
    (hv.opcode = .rewrite → ∃ s', handleOut hv value s = .ok (.ok, s') ∧
      (RewriteFollows hv.key value s s' ↔ (s.valuesOf hv.key = [] → ¬ s.Listed f) ∧
        (s.valuesOf hv.key ≠ [] → s.Listed f ∨ value ∈ s.valuesOf hv.key))) :=
  ⟨add_follows_iff (wellFormed_of_run hrun hwf) hp hplain hoff hv₀,
    rewrite_follows_iff hp hplain hoff hv₀⟩

/-- `rewrite Server b` behind a rule `set -n Server a`. -/
theorem presence_after_run_set : ∃ (hv : OutVal) (s s' : Response),
    Relation.ReflTransGen (RuleStep fun text _ => some text) (serverResponse [] none) s ∧
    s.valuesOf (str "Server") = [str "a"] ∧
    parseDirective (fun _ => true) setHandlersOut 1
      [str "rewrite", str "Server", str "b"] = .ok hv ∧
    handleOut hv (str "b") s = .ok (.ok, s') ∧ str "b" ∈ s'.valuesOf (str "Server") := by
  have hset := (parseDirective_eq_ok (rfl : parseDirective (fun _ => true) setHandlersOut 0
    [str "set", str "-n", str "Server", str "a"] = .ok _)).2
  have hp := (parseDirective_eq_ok (rfl : parseDirective (fun _ => true) setHandlersOut 1
    [str "rewrite", str "Server", str "b"] = .ok _)).2
  have hrun : Relation.ReflTransGen (RuleStep fun text _ => some text) (serverResponse [] none) _ :=
    .single ⟨_, .ok, hset, rfl⟩
  obtain ⟨s', he, hiff⟩ := (presence_after_run _ (serverResponse [] none) _
    (single_wellFormed (by decide) (by decide)) hrun _ .server (str "b") hp rfl rfl
    (by decide)).2 rfl
  exact ⟨_, _, s', hrun, by decide, rfl, he,
    (hiff.mpr ⟨fun hnil => absurd hnil (by decide), fun _ => Or.inl ⟨0, by decide, rfl⟩⟩).1
      (by decide)⟩

/--
Behind a rule `clear -n Server` no `Server` entry is visible, but `add` makes none visible and
`rewrite` does.
-/
theorem presence_after_run_clear : ∃ (hv hv' : OutVal) (s s₁ s₂ : Response),
    (serverResponse [str "a"] (some 0)).shape.WellFormed () ∧
    Relation.ReflTransGen (RuleStep fun text _ => some text) (serverResponse [str "a"] (some 0)) s ∧
    s.valuesOf (str "Server") = [] ∧
    parseDirective (fun _ => true) setHandlersOut 1 [str "add", str "Server", str "b"] = .ok hv ∧
    handleOut hv (str "b") s = .ok (.ok, s₁) ∧ s₁.valuesOf (str "Server") = [] ∧
    parseDirective (fun _ => true) setHandlersOut 1
      [str "rewrite", str "Server", str "b"] = .ok hv' ∧
    handleOut hv' (str "b") s = .ok (.ok, s₂) ∧ s₂.valuesOf (str "Server") = [str "b"] := by
  have hclear := (parseDirective_eq_ok (rfl : parseDirective (fun _ => true) setHandlersOut 0
    [str "clear", str "-n", str "Server"] = .ok _)).2
  exact ⟨_, _, _, _, _, single_wellFormed (by decide) (by decide), .single ⟨_, .ok, hclear, rfl⟩,
    by decide, rfl, rfl, by decide, rfl, rfl, by decide⟩

end Presence

end Response

end HeadersControl
