import HeadersControl.Response.HashMark
import HeadersControl.Response.Wildcard

/-! # The chain of `Cache-Control` entries

The handler of `Cache-Control` writes the head of a chain of entries and hides the
rest of it, and a wildcard rule reaches the same entries through the list. Rules of
other names leave them alone, so that the chain keeps listing exactly the entries
of that name, and the last rule that writes them decides which are visible.
-/

namespace HeadersControl.Response

open Segments Segments.Shape

def cacheEntries (s : Response) : List ℕ :=
  (s.shape.slots ()).filter fun h => sameName (s.cell h).key (str "Cache-Control")

def ChainExact (s : Response) : Prop :=
  ∃ hs, Chained s.cell (s.ptr .cacheControl) hs ∧ ∀ h, h ∈ hs ↔ h ∈ s.cacheEntries

def Apart (s : Response) : Prop :=
  ∀ f h, f ≠ .cacheControl → s.ptr f = some h →
    h ∈ s.shape.slots () ∧ sameName (s.cell h).key (str "Cache-Control") = false

/-- What every rule keeps. -/
structure CacheChain (s : Response) : Prop where
  wellFormed : s.shape.WellFormed ()
  chain : s.ChainExact
  apart : s.Apart

/-- The entries of `Cache-Control` and the head of their chain are as they were. -/
structure Spares (s s' : Response) : Prop where
  entries : s'.cacheEntries = s.cacheEntries
  cell : ∀ h ∈ s.cacheEntries, s'.cell h = s.cell h
  head : s'.ptr .cacheControl = s.ptr .cacheControl
  apart : s'.Apart

variable {s s' s₁ : Response} {hv : OutVal} {value : Str} {f : OutField} {out : Option OutField}
  {h : ℕ} {hs : List ℕ}

theorem mem_cacheEntries : h ∈ s.cacheEntries ↔
    h ∈ s.shape.slots () ∧ sameName (s.cell h).key (str "Cache-Control") = true :=
  List.mem_filter

theorem named_cacheControl : s.named (str "Cache-Control") = s.cacheEntries.filter s.shown := by
  rw [named, cacheEntries, List.filter_filter]

section Spares

namespace Spares

theorem congr (ha : s.Apart) (hshape : s'.shape = s.shape) (hcell : s'.cell = s.cell)
    (hptr : s'.ptr = s.ptr) : s.Spares s' where
  entries := by rw [cacheEntries, hshape, hcell, cacheEntries]
  cell := fun h _ => by rw [hcell]
  head := by rw [hptr]
  apart := by
    intro f h hf hp
    rw [hptr] at hp
    rw [hshape, hcell]
    exact ha f h hf hp

theorem refl (ha : s.Apart) : s.Spares s := congr ha rfl rfl rfl

theorem trans (h₁ : s.Spares s₁) (h₂ : s₁.Spares s') : s.Spares s' where
  entries := h₂.entries.trans h₁.entries
  cell := fun h hh => (h₂.cell h (h₁.entries ▸ hh)).trans (h₁.cell h hh)
  head := h₂.head.trans h₁.head
  apart := h₂.apart

theorem chain (hsp : s.Spares s') (hc : s.ChainExact) : s'.ChainExact := by
  obtain ⟨hs, hchain, hmem⟩ := hc
  refine ⟨hs, ?_, fun h => by rw [hsp.entries, hmem]⟩
  rw [hsp.head]
  apply hchain.congr
  intro h hh
  rw [hsp.cell h ((hmem h).mp hh)]

theorem valuesOf (hsp : s.Spares s') :
    s'.valuesOf (str "Cache-Control") = s.valuesOf (str "Cache-Control") := by
  have hshown : ∀ h ∈ s.cacheEntries, s'.shown h = s.shown h := by
    intro h hh
    unfold Response.shown
    rw [hsp.cell h hh]
  rw [valuesOf_eq, valuesOf_eq, named_cacheControl, named_cacheControl, hsp.entries,
    List.filter_congr hshown]
  apply List.map_congr_left
  intro h hh
  rw [hsp.cell h (List.mem_filter.mp hh).1]

end Spares

theorem spares_setCell {e : TableElt} (ha : s.Apart) (hf : f ≠ .cacheControl)
    (hp : s.ptr f = some h) (he : sameName e.key (str "Cache-Control") = false) :
    s.Spares (s.setCell h e) := by
  obtain ⟨-, hname⟩ := ha f h hf hp
  constructor
  · apply List.filter_congr
    intro x _
    by_cases hx : x = h
    · subst hx
      simp [he, hname]
    · simp [hx]
  · intro x hx
    have hne : x ≠ h := by
      rintro rfl
      rw [mem_cacheEntries, hname] at hx
      cases hx.2
    simp [hne]
  · rfl
  · intro g x hg hx
    obtain ⟨hm, hn⟩ := ha g x hg hx
    refine ⟨hm, ?_⟩
    by_cases hxh : x = h
    · subst hxh
      simpa using he
    · simpa [hxh] using hn

theorem location_ne_cacheControl : sameName (str "Location") (str "Cache-Control") = false := by
  decide

theorem spares_repairLocation (ha : s.Apart) : s.Spares s.repairLocation := by
  unfold repairLocation
  split
  · exact .refl ha
  · split
    · exact spares_setCell (f := .location) ha (by decide) ‹_› location_ne_cacheControl
    · exact .refl ha

theorem spares_created {a : ℕ} {sh : Shape Unit}
    (hkey : sameName hv.key (str "Cache-Control") = false) (hout : out ≠ some .cacheControl)
    (ha : s.Apart)
    (hslots : sh.slots () = s.shape.slots () ++ [a]) (hnew : a ∉ s.shape.slots ()) :
    s.Spares (((s.setShape sh).setCell a (newElt hv value)).store out a) := by
  have hne : ∀ h ∈ s.shape.slots (), h ≠ a := by
    rintro h hh rfl
    exact hnew hh
  constructor
  · simp only [cacheEntries, shape_store, shape_setCell, shape_setShape, cell_store,
      cell_setCell, cell_setShape, hslots, List.filter_append, List.filter_singleton,
      Function.update_self, newElt, hkey, cond_false, List.append_nil]
    apply List.filter_congr
    intro h hh
    rw [Function.update_of_ne (hne h hh)]
  · intro h hh
    simp [hne h (mem_cacheEntries.mp hh).1]
  · exact ptr_store_of_ne hout a
  · intro f h hf hp
    rw [shape_store, shape_setCell, shape_setShape, cell_store, cell_setCell, cell_setShape,
      hslots]
    by_cases hof : out = some f
    · subst hof
      obtain rfl : a = h := by simpa [store, setPtr] using hp
      exact ⟨by simp, by simpa [newElt] using hkey⟩
    · rw [ptr_store_of_ne hof] at hp
      obtain ⟨hm, hn⟩ := ha f h hf hp
      exact ⟨by simp [hm], by simpa [hne h hm] using hn⟩

section Other

variable (hother : hv.matchesName (str "Cache-Control") = false)
include hother

theorem sameName_of_matchesName {name : Str} (hm : hv.matchesName name = true) :
    sameName name (str "Cache-Control") = false := by
  rw [← Bool.not_eq_true]
  intro hname
  rw [matchesName_congr hname, hother] at hm
  cases hm

theorem offset_ne_cacheControl (hp : hv.Parsed setHandlersOut) :
    hv.offset ≠ some .cacheControl := by
  intro hoff
  have hname : sameName hv.key (str "Cache-Control") = true :=
    nginxName_of_offset hp hoff (by decide)
  rw [sameName_of_matchesName hother hv.matchesName_self] at hname
  cases hname

theorem spares_sweep {keep : Option ℕ} (hout : out ≠ some .cacheControl) (ha : s.Apart) :
    s.Spares (s.sweep hv value keep ((s.shape.slots ()).filter (s.hits hv)) out) := by
  constructor
  · simp only [cacheEntries, shape_sweep, key_sweep]
  · intro h hh
    apply cell_sweep_miss
    rw [← Bool.not_eq_true]
    intro hit
    rw [mem_cacheEntries, sameName_of_matchesName hother (hits_eq_true hit).2] at hh
    cases hh.2
  · exact ptr_sweep_of_ne hout
  · intro f h hf hp
    rw [shape_sweep, key_sweep]
    by_cases hof : out = some f
    · subst hof
      cases hl : ((s.shape.slots ()).filter (s.hits hv)).getLast? with
      | none =>
        simp only [sweep, hl] at hp
        exact ha f h hf hp
      | some a =>
        obtain rfl : a = h := by simpa [sweep, hl] using hp
        obtain ⟨hm, hit⟩ := List.mem_filter.mp (List.mem_of_getLast? hl)
        exact ⟨hm, sameName_of_matchesName hother (hits_eq_true hit).2⟩
    · rw [ptr_sweep_of_ne hof] at hp
      exact ha f h hf hp

theorem Outcome.spares {noCreate : Bool} (hout : out ≠ some .cacheControl) (ha : s.Apart)
    (ho : Outcome hv value out noCreate s s') : s.Spares s' := by
  cases ho with
  | unchanged => exact .refl ha
  | swept => exact spares_sweep hother hout ha
  | created _ _ _ hslots hnew =>
    exact spares_created (sameName_of_matchesName hother hv.matchesName_self) hout ha hslots hnew

theorem setHeaderHelper_spares {noCreate : Bool} (hwf : s.shape.WellFormed ()) (ha : s.Apart)
    (hout : out ≠ some .cacheControl)
    (he : setHeaderHelper hv value out noCreate s = .ok (.ok, s')) : s.Spares s' := by
  obtain ⟨rc, s₁, he₁, -, hok⟩ := setHeaderHelper_run hv value out noCreate hwf
  cases he.symm.trans he₁
  have hsp := spares_repairLocation ha
  exact hsp.trans ((hok rfl).spares hother hout hsp.apart)

theorem setBuiltinHeader_spares (hwf : s.shape.WellFormed ()) (ha : s.Apart)
    (hp : hv.Parsed setHandlersOut) (he : setBuiltinHeader hv value s = .ok (.ok, s')) :
    s.Spares s' := by
  have hoff := offset_ne_cacheControl hother hp
  unfold setBuiltinHeader at he
  cases hb : hv.offset.bind s.ptr with
  | none =>
    rw [hb] at he
    dsimp only at he
    split_ifs at he with hre
    · cases he
      exact .refl ha
    · exact setHeaderHelper_spares hother hwf ha hoff he
  | some h =>
    obtain ⟨f, hf, hptr⟩ := Option.bind_eq_some_iff.mp hb
    have hne : f ≠ .cacheControl := by
      rintro rfl
      exact hoff hf
    rw [hb] at he
    dsimp only at he
    split_ifs at he with hadd hv₀
    · cases he
      exact .refl ha
    · cases he
      exact spares_setCell ha hne hptr (ha f h hne hptr).2
    · cases he
      exact spares_setCell ha hne hptr (sameName_of_matchesName hother hv.matchesName_self)

theorem handleOut_spares (hwf : s.shape.WellFormed ()) (ha : s.Apart)
    (hp : hv.Parsed setHandlersOut) (he : handleOut hv value s = .ok (.ok, s')) :
    s.Spares s' := by
  obtain ⟨t, v, hshape, hcell, hptr, hcall⟩ := handleOut_calls hv value s
  have hsp := Spares.congr ha hshape hcell hptr
  have hwf_t : t.shape.WellFormed () := hshape ▸ hwf
  apply hsp.trans
  rcases hcall with hrun | ⟨noCreate, hrun⟩ | ⟨-, hrun⟩ | ⟨hmulti, -⟩
  · cases hrun.symm.trans he
  · exact setHeaderHelper_spares hother hwf_t hsp.apart (by simp) (hrun.symm.trans he)
  · exact setBuiltinHeader_spares hother hwf_t hsp.apart hp (hrun.symm.trans he)
  · exact absurd (multi_of_handler hp hmulti).1 (offset_ne_cacheControl hother hp)

end Other

end Spares

section Writes

theorem valuesOf_of_named {x : ℕ} {name : Str} (hwf : s.shape.WellFormed ())
    (hval : (s.cell x).value = value) (hx : ∀ h, h ∈ s.named name ↔ value ≠ [] ∧ h = x) :
    s.valuesOf name = if value = [] then [] else [value] := by
  split
  · rename_i hv₀
    rw [valuesOf_eq_nil, List.eq_nil_iff_forall_not_mem]
    intro h hh
    exact ((hx h).mp hh).1 hv₀
  · rename_i hv₀
    have hmem : x ∈ s.named name := (hx x).mpr ⟨hv₀, rfl⟩
    have hone : s.named name = [x] :=
      (all_eq_iff (nodup_named hwf) hmem).mp fun h hh => ((hx h).mp hh).2
    rw [valuesOf_eq, hone, List.map_singleton, hval]

section Chain

variable (hc : s.CacheChain)
include hc

theorem writeChain_cache {x : ℕ} (hhash : hv.hash ≠ 0)
    (hchain : Chained s.cell (s.ptr .cacheControl) (x :: hs))
    (hmem : ∀ h, h ∈ x :: hs ↔ h ∈ s.cacheEntries) : (writeChain hv value s x hs).CacheChain ∧
      (writeChain hv value s x hs).valuesOf (str "Cache-Control") =
        if value = [] then [] else [value] := by
  have hself : (writeChain hv value s x hs).cell x =
      { s.cell x with value, hash := if value = [] then 0 else hv.hash } := if_pos rfl
  have hentries : (writeChain hv value s x hs).cacheEntries = s.cacheEntries := by
    unfold cacheEntries
    apply List.filter_congr
    intro h _
    rw [key_writeChain]
  refine ⟨⟨hc.wellFormed, ⟨x :: hs, ?_, fun h => by rw [hentries, hmem]⟩, ?_⟩, ?_⟩
  · exact hchain.congr fun h _ => next_writeChain h
  · intro f h hf hp
    rw [key_writeChain]
    exact hc.apart f h hf hp
  · have hnamed : ∀ h, h ∈ (writeChain hv value s x hs).named (str "Cache-Control") ↔
        value ≠ [] ∧ h = x := by
      intro h
      rw [named_cacheControl, hentries, List.mem_filter, ← hmem]
      constructor
      · rintro ⟨hh, hshown⟩
        exact (shown_writeChain (fun _ => hhash) hh).mp hshown
      · rintro ⟨hv₀, rfl⟩
        exact ⟨List.mem_cons_self, (shown_writeChain (fun _ => hhash) List.mem_cons_self).mpr
          ⟨hv₀, rfl⟩⟩
    exact valuesOf_of_named hc.wellFormed (by rw [hself]) hnamed

theorem pushChain_cache {a : ℕ} {sh : Shape Unit} {e : TableElt}
    (hnone : s.ptr .cacheControl = none) (hwf : sh.WellFormed ())
    (hslots : sh.slots () = s.shape.slots () ++ [a]) (ha : a ∉ s.shape.slots ())
    (hval : e.value = value) (hh : e.hash ≠ 0) (hkey : e.key = str "Cache-Control")
    (hnext : e.next = none) :
    (((s.setShape sh).setCell a e).setPtr .cacheControl (some a)).CacheChain ∧
      (((s.setShape sh).setCell a e).setPtr .cacheControl (some a)).valuesOf
        (str "Cache-Control") = [value] := by
  have hnil : s.cacheEntries = [] := by
    obtain ⟨hs, hchain, hmem⟩ := hc.chain
    rw [hnone] at hchain
    have hempty : Chained s.cell none [] := rfl
    obtain rfl := hchain.unique hempty
    rw [List.eq_nil_iff_forall_not_mem]
    intro h hh
    cases (hmem h).mpr hh
  have hne : ∀ h ∈ s.shape.slots (), h ≠ a := by
    rintro h hh rfl
    exact ha hh
  have hentries : (((s.setShape sh).setCell a e).setPtr .cacheControl (some a)).cacheEntries =
      [a] := by
    have hold : ((s.shape.slots ()).filter fun h =>
        sameName (Function.update s.cell a e h).key (str "Cache-Control")) = [] := by
      rw [← hnil]
      apply List.filter_congr
      intro h hh
      rw [Function.update_of_ne (hne h hh)]
    have hself : sameName e.key (str "Cache-Control") = true := by
      rw [hkey]
      exact sameName_refl _
    simp [cacheEntries, setPtr, hslots, hold, hself]
  refine ⟨⟨hwf, ⟨[a], ⟨by simp [setPtr], ?_⟩, fun h => by rw [hentries]⟩, ?_⟩, ?_⟩
  · simpa [setPtr, Chained] using hnext
  · intro f h hf hp
    obtain ⟨hm, hn⟩ := hc.apart f h hf (by simpa [setPtr, hf] using hp)
    exact ⟨by simp [setPtr, hslots, hm], by simpa [setPtr, hne h hm] using hn⟩
  · have hshown : (((s.setShape sh).setCell a e).setPtr .cacheControl (some a)).shown a = true := by
      simpa [Response.shown, setPtr] using hh
    rw [valuesOf_eq, named_cacheControl, hentries, List.filter_cons_of_pos hshown]
    simp [setPtr, hval]

theorem setBuiltinMultiHeader_cache (value : Str) (hoff : hv.offset = some .cacheControl)
    (hhash : hv.hash ≠ 0) :
    ∃ rc s', setBuiltinMultiHeader hv value s = .ok (rc, s') ∧ (s.shape.pool.Reliable → rc = .ok) ∧
      (rc = .ok → s'.CacheChain ∧
        s'.valuesOf (str "Cache-Control") = if value = [] then [] else [value]) := by
  obtain ⟨hs, hchain, hmem⟩ := hc.chain
  cases hs with
  | cons x hs =>
    have hsub : x :: hs ⊆ s.shape.slots () := fun h hh => (mem_cacheEntries.mp ((hmem h).mp hh)).1
    exact ⟨.ok, _, setBuiltinMultiHeader_write hoff hchain
      (length_chain_le hc.wellFormed hchain hsub), fun _ => rfl,
      fun _ => writeChain_cache hc hhash hchain hmem⟩
  | nil =>
    have hnone : s.ptr .cacheControl = none := hchain
    unfold setBuiltinMultiHeader
    rw [hoff]
    dsimp only
    rw [hnone]
    dsimp only
    split
    · refine ⟨.ok, s, rfl, fun _ => rfl, fun _ => ⟨hc, ?_⟩⟩
      rw [valuesOf_eq_nil, named_cacheControl, List.eq_nil_iff_forall_not_mem]
      intro h hh
      cases (hmem h).mpr (List.mem_filter.mp hh).1
    · rcases push_spec hc.wellFormed with ⟨q, hpush, -, hf⟩ | ⟨a, sh, hpush, -, hwf, hslots, ha⟩
      · rw [hpush]
        exact ⟨.error, _, rfl, fun hr => absurd hr hf, nofun⟩
      · rw [hpush]
        exact ⟨.ok, _, rfl, fun _ => rfl,
          fun _ => pushChain_cache hc hnone hwf hslots ha rfl hhash rfl rfl⟩

theorem cacheChain_repairLocation : s.repairLocation.CacheChain := by
  have hsp := spares_repairLocation hc.apart
  exact ⟨by simpa using hc.wellFormed, hsp.chain hc.chain, hsp.apart⟩

theorem cacheChain_sweep (keep : Option ℕ) (hs : List ℕ) :
    (s.sweep hv value keep hs none).CacheChain := by
  obtain ⟨cs, hchain, hmem⟩ := hc.chain
  refine ⟨hc.wellFormed, ⟨cs, ?_, fun h => ?_⟩, ?_⟩
  · apply hchain.congr
    intro h _
    rw [next_sweep]
  · rw [hmem, mem_cacheEntries, mem_cacheEntries, shape_sweep, key_sweep]
  · intro f h hf hp
    rw [shape_sweep, key_sweep]
    exact hc.apart f h hf hp

theorem clearAll_cache (hw : hv.wildcard = true) (hop : hv.opcode = .clear)
    (hm : hv.matchesName (str "Cache-Control") = true) :
    ∃ rc s', setHeaderHelper hv [] none false s = .ok (rc, s') ∧
      (s.shape.pool.Reliable → rc = .ok) ∧
      (rc = .ok → s'.CacheChain ∧ s'.valuesOf (str "Cache-Control") = []) := by
  obtain ⟨rc, s', he, hrel, hok⟩ := setHeaderHelper_run hv [] none false hc.wellFormed
  refine ⟨rc, s', he, hrel, fun hrc => ?_⟩
  obtain rfl := (hok hrc).of_stop (by simp [hw]) (by simp [hop]) (by simp [hop])
  refine ⟨cacheChain_sweep (cacheChain_repairLocation hc) _ _, ?_⟩
  · rw [valuesOf, visible_sweep_none, List.filter_filter, List.map_eq_nil_iff,
      List.filter_eq_nil_iff]
    intro e _
    cases hname : sameName e.1 (str "Cache-Control") with
    | false => simp
    | true => simp [matchesName_congr hname, hm]

end Chain

end Writes

section Run

variable {cv : ComplexValue → Response → Option Str} {written last : Option (List Str)}

/--
A rule is executed, and where it sets or clears `Cache-Control`, also as a wildcard, `written` is
what the name is to have behind it.
-/
inductive CacheStep (cv : ComplexValue → Response → Option Str) (s s' : Response) :
    Option (List Str) → Prop
  | set {hv : OutVal} {value : Str} :
      hv.Parsed setHandlersOut → sameName hv.key (str "Cache-Control") = true → hv.opcode = .set →
      complexValue cv hv.value s = some value → execOutputHeader cv hv s = .ok (.ok, s') →
      CacheStep cv s s' (some (if value.dropLast = [] then [] else [value.dropLast]))
  | clear {hv : OutVal} :
      hv.Parsed setHandlersOut → hv.matchesName (str "Cache-Control") = true →
      hv.opcode = .clear → execOutputHeader cv hv s = .ok (.ok, s') → CacheStep cv s s' (some [])
  | other {hv : OutVal} :
      hv.Parsed setHandlersOut → hv.matchesName (str "Cache-Control") = false →
      execOutputHeader cv hv s = .ok (.ok, s') → CacheStep cv s s' none

/-- One step of a run, with what the last rule that set or cleared the name was to leave. -/
def CacheRun (cv : ComplexValue → Response → Option Str)
    (p q : Response × Option (List Str)) : Prop :=
  ∃ written, CacheStep cv p.1 q.1 written ∧ q.2 = written.or p.2

theorem multi_of_sameName (hp : hv.Parsed setHandlersOut)
    (hname : sameName hv.key (str "Cache-Control") = true) :
    hv.handler = .setBuiltinMultiHeader ∧ hv.offset = some .cacheControl ∧ hv.wildcard = false ∧
      hv.hash ≠ 0 := by
  have hentry : ∃ e ∈ setHandlersOut.entries, e.name = str "Cache-Control" := by decide
  have hmulti : ∀ e ∈ setHandlersOut.entries, sameName e.name (str "Cache-Control") = true →
      e.handler = .setBuiltinMultiHeader := by decide
  rcases hp.cases with ⟨e, he, -, hkey, hhandler, hoff⟩ | ⟨hnone, -, -⟩
  · have hh := hmulti e he ((sameName_congr hkey _).symm.trans hname)
    have hbuiltin : hv.handler ≠ .setHeader := by simp [hhandler, hh]
    obtain ⟨-, -, -, -, -, hw, hhash, -⟩ := hp.of_entry hbuiltin
    have hmulti' : hv.handler = .setBuiltinMultiHeader := hhandler.trans hh
    exact ⟨hmulti', (multi_of_handler hp hmulti').1, hw, hhash⟩
  · obtain ⟨e, he, hkey⟩ := hentry
    have hno := hnone e he
    rw [hkey, hname] at hno
    cases hno

theorem handleOut_cache (value : Str) (hc : s.CacheChain) (hp : hv.Parsed setHandlersOut)
    (hm : hv.matchesName (str "Cache-Control") = true)
    (hop : hv.wildcard = true → hv.opcode = .clear ∧ value = []) :
    ∃ rc s', handleOut hv value s = .ok (rc, s') ∧ (s.shape.pool.Reliable → rc = .ok) ∧
      (rc = .ok → s'.CacheChain ∧
        s'.valuesOf (str "Cache-Control") = if value = [] then [] else [value]) := by
  cases hw : hv.wildcard with
  | true =>
    obtain ⟨hclear, rfl⟩ := hop hw
    simp only [handleOut, hp.of_wildcard hw]
    exact clearAll_cache hc hw hclear hm
  | false =>
    rw [matchesName_exact hw, sameName_comm] at hm
    obtain ⟨hh, hoff, -, hhash⟩ := multi_of_sameName hp hm
    simp only [handleOut, hh]
    exact setBuiltinMultiHeader_cache hc value hoff hhash

theorem CacheStep.preserves (hstep : CacheStep cv s s' written) (hc : s.CacheChain) :
    s'.CacheChain ∧ s'.valuesOf (str "Cache-Control") =
      written.getD (s.valuesOf (str "Cache-Control")) := by
  cases hstep with
  | @set hv value hp hname hop hval he =>
    obtain ⟨-, -, hw, -⟩ := multi_of_sameName hp hname
    have hm : hv.matchesName (str "Cache-Control") = true := by
      rw [matchesName_exact hw, sameName_comm, hname]
    rcases execHeader_inv he with ⟨-, hpass⟩ | ⟨-, value', hval', he⟩
    · cases hop.symm.trans (hpass rfl)
    · obtain rfl := Option.some.inj (hval.symm.trans hval')
      obtain ⟨rc, s₁, he₁, -, hok⟩ := handleOut_cache value.dropLast hc hp hm (by simp [hw])
      cases he.symm.trans he₁
      exact hok rfl
  | @clear hv hp hm hop he =>
    rcases execHeader_inv he with ⟨-, hpass⟩ | ⟨-, value, hval, he⟩
    · cases hop.symm.trans (hpass rfl)
    · have hnil : value.dropLast = [] := by
        rw [hp.clear hop] at hval
        cases hval
        rfl
      rw [hnil] at he
      obtain ⟨rc, s₁, he₁, -, hok⟩ := handleOut_cache [] hc hp hm fun _ => ⟨hop, rfl⟩
      cases he.symm.trans he₁
      exact hok rfl
  | other hp hm he =>
    rcases execHeader_inv he with ⟨rfl, -⟩ | ⟨-, value, -, he⟩
    · exact ⟨hc, rfl⟩
    · have hsp := handleOut_spares hm hc.wellFormed hc.apart hp he
      exact ⟨⟨handleOut_wellFormed he hc.wellFormed, hsp.chain hc.chain, hsp.apart⟩, hsp.valuesOf⟩

theorem cacheChain_of_run {p q : Response × Option (List Str)}
    (hrun : Relation.ReflTransGen (CacheRun cv) p q) (hc : p.1.CacheChain)
    (hp : ∀ values, p.2 = some values → p.1.valuesOf (str "Cache-Control") = values) :
    q.1.CacheChain ∧
      ∀ values, q.2 = some values → q.1.valuesOf (str "Cache-Control") = values := by
  induction hrun with
  | refl => exact ⟨hc, hp⟩
  | tail _ hstep ih =>
    obtain ⟨hchain, hlast⟩ := ih
    obtain ⟨written, hs, hnext⟩ := hstep
    obtain ⟨hchain', hvalues⟩ := hs.preserves hchain
    refine ⟨hchain', fun values hsome => ?_⟩
    rw [hnext] at hsome
    rw [hvalues]
    cases written with
    | none => exact hlast values hsome
    | some vs => exact Option.some.inj hsome

theorem setBuiltinHeader_returns (hv : OutVal) (value : Str) (hwf : s.shape.WellFormed ()) :
    ∃ rc s', setBuiltinHeader hv value s = .ok (rc, s') := by
  unfold setBuiltinHeader
  split
  · split
    · exact ⟨_, _, rfl⟩
    · obtain ⟨rc, s', he, -⟩ := setHeaderHelper_run hv value hv.offset false hwf
      exact ⟨rc, s', he⟩
  · split_ifs
    · exact ⟨_, _, rfl⟩
    · exact ⟨_, _, rfl⟩
    · exact ⟨_, _, rfl⟩

theorem handleOut_returns (value : Str) (hc : s.CacheChain) (hp : hv.Parsed setHandlersOut) :
    ∃ rc s', handleOut hv value s = .ok (rc, s') := by
  obtain ⟨t, v, hshape, hcell, hptr, hcall⟩ := handleOut_calls hv value s
  have hsp := Spares.congr hc.apart hshape hcell hptr
  have hc_t : t.CacheChain := ⟨hshape ▸ hc.wellFormed, hsp.chain hc.chain, hsp.apart⟩
  rcases hcall with hrun | ⟨noCreate, hrun⟩ | ⟨-, hrun⟩ | ⟨hmulti, hrun⟩
  · exact ⟨_, _, hrun⟩
  · obtain ⟨rc, s', he, -⟩ := setHeaderHelper_run hv v none noCreate hc_t.wellFormed
    exact ⟨rc, s', hrun.trans he⟩
  · obtain ⟨rc, s', he⟩ := setBuiltinHeader_returns hv v hc_t.wellFormed
    exact ⟨rc, s', hrun.trans he⟩
  · obtain ⟨-, -, -, -, -, -, hhash, -⟩ := hp.of_entry (by simp [hmulti])
    obtain ⟨rc, s', he, -⟩ :=
      setBuiltinMultiHeader_cache hc_t v (multi_of_handler hp hmulti).1 hhash
    exact ⟨rc, s', hrun.trans he⟩

theorem execOutputHeader_returns (cv : ComplexValue → Response → Option Str) (hc : s.CacheChain)
    (hp : hv.Parsed setHandlersOut) : ∃ rc s', execOutputHeader cv hv s = .ok (rc, s') := by
  rw [execOutputHeader, execHeader_eq]
  split
  · exact ⟨_, _, rfl⟩
  · exact ⟨_, _, rfl⟩
  · unfold action
    split
    · exact ⟨_, _, rfl⟩
    · split
      · exact ⟨_, _, rfl⟩
      · exact handleOut_returns _ hc hp

/--
Where the chain of `Cache-Control` lists exactly the entries of that name, it does so behind every
run. Once a rule of the name, or a wildcard `clear` that matches it, has been executed, the visible
values are those of the last of them: the value of `set`, and none for `clear` and for an empty
value. Every further rule returns, and those that write the name fail with the allocator only.
-/
theorem cache_control_runs (cv : ComplexValue → Response → Option Str) (s s' : Response)
    (last : Option (List Str)) (hwf : s.shape.WellFormed ()) (hc : s.ChainExact) (ha : s.Apart)
    (hrun : Relation.ReflTransGen (CacheRun cv) (s, none) (s', last)) :
    s'.ChainExact ∧
    (∀ values, last = some values → s'.valuesOf (str "Cache-Control") = values) ∧
    (∀ hv : OutVal, hv.Parsed setHandlersOut →
      ∃ rc s₁, execOutputHeader cv hv s' = .ok (rc, s₁)) ∧
    ∀ (hv : OutVal) (value : Str), hv.Parsed setHandlersOut →
      hv.matchesName (str "Cache-Control") = true →
      (hv.wildcard = true → hv.opcode = .clear ∧ value = []) →
      ∃ rc s₁, handleOut hv value s' = .ok (rc, s₁) ∧ (s'.shape.pool.Reliable → rc = .ok) := by
  obtain ⟨hchain, hlast⟩ := cacheChain_of_run hrun ⟨hwf, hc, ha⟩ nofun
  refine ⟨hchain.chain, hlast, fun hv hp => execOutputHeader_returns cv hchain hp, ?_⟩
  intro hv value hp hm hop
  obtain ⟨rc, s₁, he, hrel, -⟩ := handleOut_cache value hchain hp hm hop
  exact ⟨rc, s₁, he, hrel⟩

def publicPage : Response :=
  .ofElts [⟨1, str "Cache-Control", str "public", str "cache-control", some 1⟩,
    ⟨0, str "cache-control", [], str "cache-control", none⟩] 4
    fun f => if f = .cacheControl then some 0 else none

/-- `clear`, a rule of another name, a wildcard `clear` and `set`, one after the other. -/
theorem cache_control_runs_set : ∃ s' : Response,
    Relation.ReflTransGen (CacheRun fun text _ => some text) (publicPage, none)
      (s', some [str "private"]) ∧
    s'.ChainExact ∧ s'.valuesOf (str "Cache-Control") = [str "private"] := by
  have hclear := (parseDirective_eq_ok (rfl : parseDirective (fun _ => true) setHandlersOut 0
    [str "clear", str "-n", str "cache-control"] = .ok _)).2
  have hother := (parseDirective_eq_ok (rfl : parseDirective (fun _ => true) setHandlersOut 1
    [str "set", str "Server", str "a"] = .ok _)).2
  have hwild := (parseDirective_eq_ok (rfl : parseDirective (fun _ => true) setHandlersOut 2
    [str "clear", str "C*"] = .ok _)).2
  have hset := (parseDirective_eq_ok (rfl : parseDirective (fun _ => true) setHandlersOut 3
    [str "set", str "CACHE-CONTROL", str "private"] = .ok _)).2
  have hrun : Relation.ReflTransGen (CacheRun fun text _ => some text) (publicPage, none)
      (_, some [str "private"]) :=
    (((Relation.ReflTransGen.single (b := (_, some []))
      ⟨_, .clear hclear (by decide) rfl rfl, rfl⟩).tail (c := (_, some []))
      ⟨_, .other hother (by decide) rfl, rfl⟩).tail (c := (_, some []))
      ⟨_, .clear hwild (by decide) rfl rfl, rfl⟩).tail
      ⟨_, .set hset (by decide) rfl rfl rfl, rfl⟩
  have hentries : publicPage.cacheEntries = [0, 1] := by decide
  obtain ⟨hchain, hlast, -⟩ := cache_control_runs _ publicPage _ _
    (single_wellFormed (by decide) (by decide)) ⟨[0, 1], ⟨rfl, rfl, rfl⟩, fun h => by rw [hentries]⟩
    (fun f h hf hp => by simp [publicPage, ofElts, hf] at hp) hrun
  exact ⟨_, hrun, hchain, hlast _ rfl⟩

end Run

end HeadersControl.Response
