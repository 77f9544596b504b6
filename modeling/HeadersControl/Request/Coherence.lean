import HeadersControl.Request.Handlers
import HeadersControl.Request.Propagation
import HeadersControl.Rules.Parse
import Mathlib.Data.List.Find
import Mathlib.Logic.Relation

/-! # Coherence of typed request pointers

nginx's parser leaves every single-valued typed pointer at the first entry of its
name. A rule edits entries of its own name only, so the pointers to other names
stay right, and the helper sets the pointer of the rule to the entry it keeps,
resets it where it removes, and sets it where it creates.
-/

namespace HeadersControl

open Segments Segments.Shape

variable {ρ : Type} [DecidableEq ρ]

def World.first (w : World ρ) (r : ρ) (name : Str) : Option ℕ :=
  (w.shape.slots r).find? fun s => sameName (w.cell s).key name

/-- Every single-valued typed pointer is at the first entry of its name. -/
def World.Coherent (w : World ρ) (r : ρ) : Prop :=
  ∀ f : InField, f.handler ≠ .setBuiltinMultiHeader →
    (w.headersIn r).ptr f = w.first r f.name

variable {r : ρ} {hv : InVal} {value name : Str} {out : OutRef} {fr fr' : Frame ρ} {w w' : World ρ}

theorem nodup_names : (InField.all.map fun f => nameKey f.name).Nodup := by decide

theorem InField.mem_all (f : InField) : f ∈ InField.all := by cases f <;> decide

theorem sameName_ne {f g : InField} (h : f ≠ g) : sameName f.name g.name = false :=
  Bool.eq_false_iff.mpr fun hs => h (List.inj_on_of_nodup_map nodup_names f.mem_all g.mem_all
    (sameName_iff.mp hs))

theorem HeaderVal.Parsed.field_or_custom (hp : hv.Parsed setHandlersIn) :
    (∃ f : InField, sameName hv.key f.name = true ∧ hv.handler = f.handler ∧
      hv.offset = some f ∧ hv.opcode ≠ .append) ∨
    (∀ f : InField, sameName hv.key f.name = false) ∧ hv.handler = .setHeader := by
  rcases hp.cases with ⟨e, he, hfind, hname, hhandler, hoff⟩ | ⟨hnone, hhandler, -⟩
  · obtain ⟨f, -, rfl⟩ := List.mem_map.mp he
    refine Or.inl ⟨f, hname, hhandler, hoff, fun happ => ?_⟩
    rw [hp.append happ] at hfind
    cases hfind
  · exact Or.inr ⟨fun f => hnone _ (List.mem_map_of_mem f.mem_all), hhandler⟩

theorem InField.name_plain (f : InField) : 0 ∉ f.name ∧ f.name.getLast?.map tolower ≠ some 42 := by
  cases f <;> decide

theorem HeaderVal.Parsed.exact_of_field {f : InField} (hp : hv.Parsed setHandlersIn)
    (hname : sameName hv.key f.name = true) : hv.wildcard = false := by
  obtain ⟨hnul, hlast⟩ := f.name_plain
  rw [hp.wildcard, decide_eq_false_iff_not]
  intro hstar
  have hend := getLast?_eq_of_sameName hname hnul
  rw [hstar] at hend
  exact hlast (hend.symm.trans (by decide))

omit [DecidableEq ρ] in
theorem first_congr (h : sameName hv.key name = true) :
    w.first r hv.key = w.first r name := by
  apply List.find?_congr
  intro s _
  rw [sameName_comm, sameName_congr h, sameName_comm]

theorem hits_exact (value : Str) (hw : hv.wildcard = false) (name : Str) :
    hv.hits value name = sameName name hv.key := by
  simp [HeaderVal.hits, hw, matchesName_exact hw]

omit [DecidableEq ρ] in
theorem Kept.first {sh₀ sh : Shape ρ} {cell₀ cell : ℕ → TableElt} {keep : ℕ → Bool}
    (hk : Kept r sh₀ cell₀ keep sh cell)
    (h : ∀ s, sameName (cell₀ s).key name = true → keep s = true) :
    (sh.slots r).find? (fun s => sameName (cell s).key name) =
      (sh₀.slots r).find? fun s => sameName (cell₀ s).key name := by
  rw [hk.slots, List.find?_filter]
  apply List.find?_congr
  intro s _
  rw [hk.key]
  cases hs : sameName (cell₀ s).key name with
  | false => simp
  | true => simp [h s hs]

theorem Outcome.first_missed
    (hother : ∀ s, sameName (fr.w.cell s).key name = true → hv.hits value (fr.w.cell s).key = false)
    (hne : sameName hv.key name = false) (ho : Outcome r hv value out fr fr') :
    fr'.w.first r name = fr.w.first r name := by
  cases ho with
  | unchanged => rfl
  | cleared _ _ _ _ hk => exact hk.first fun s hs => by rw [hother s hs]; rfl
  | @kept a sh cell _ _ _ hfind hk =>
    have hkey : ∀ s, (Function.update fr.w.cell a { fr.w.cell a with value } s).key =
        (fr.w.cell s).key := fun s => by
      by_cases hs : s = a <;> simp [hs]
    refine (hk.first fun s hs => ?_).trans ?_
    · rw [hkey] at hs
      rw [hother s hs]
      rfl
    · simp only [hkey]
      rfl
  | @created s sh _ hwf' _ hslots hs =>
    have hnew : sameName (newElt hv value).key name = false := hne
    rw [World.first, (Frame.keep_propagate (by simpa using hwf')).2, Frame.cell_propagate]
    simp only [World.first, Frame.shape_store, Frame.cell_store, Frame.shape_setList,
      Frame.cell_setList, hslots, List.find?_append]
    rw [List.find?_cons_of_neg (by simp [hnew]), List.find?_nil, Option.or_none]
    apply List.find?_congr
    intro x hx
    rw [Function.update_of_ne]
    rintro rfl
    exact hs hx

theorem Outcome.first_other (hw : hv.wildcard = false) (hne : sameName hv.key name = false)
    (ho : Outcome r hv value out fr fr') :
    fr'.w.first r name = fr.w.first r name :=
  ho.first_missed (fun s hs => by rw [hits_exact _ hw, sameName_congr hs, sameName_comm, hne]) hne

theorem find_of_imp {l : List ℕ} {a : ℕ} {p q : ℕ → Bool} (h : l.find? p = some a)
    (ha : q a = true) (hq : ∀ x, q x = true → p x = true) : l.find? q = some a := by
  obtain ⟨-, as, bs, rfl, hn⟩ := List.find?_eq_some_iff_append.mp h
  refine List.find?_eq_some_iff_append.mpr ⟨ha, as, bs, rfl, fun x hx => ?_⟩
  have hpx := hn x hx
  rw [Bool.not_eq_true'] at hpx ⊢
  exact Bool.eq_false_iff.mpr fun hqx => Bool.eq_false_iff.mp hpx (hq x hqx)

theorem Outcome.ptr_own {f : InField} (hw : hv.wildcard = false) (happ : hv.opcode ≠ .append)
    (hptr : (fr.w.headersIn r).ptr f = fr.w.first r hv.key)
    (ho : Outcome r hv value (.field f) fr fr') :
    (fr'.w.headersIn r).ptr f = fr'.w.first r hv.key := by
  simp only [← hits_exact value hw, World.first] at hptr ⊢
  cases ho with
  | unchanged => exact hptr
  | @cleared sh cell _ _ _ _ hk =>
    have hnone : (sh.slots r).find? (fun s => hv.hits value (cell s).key) = none := by
      rw [List.find?_eq_none, hk.slots]
      intro s hs
      simpa [hk.key] using (List.mem_filter.mp hs).2
    simp [Frame.ptr_store_self, hnone]
  | @kept a sh cell _ _ _ hfind hk =>
    have hkey : ∀ s, (cell s).key = (fr.w.cell s).key := fun s => by
      rw [hk.key]
      by_cases hs : s = a <;> simp [hs]
    have hfirst : (sh.slots r).find? (fun s => hv.hits value (cell s).key) = some a := by
      have ha : hv.hits value (fr.w.cell a).key = true := by simpa using List.find?_some hfind
      rw [hk.slots, List.find?_filter]
      exact find_of_imp hfind (by simp [hkey, ha]) fun s hs => by
        simpa [hkey] using (of_decide_eq_true hs).2
    simp [Frame.ptr_store_self, hfirst]
  | @created s sh hc hwf' _ hslots hs =>
    obtain ⟨hno, -, -⟩ := hc.resolve_left happ
    have hold : (fr.w.shape.slots r).find? (fun x =>
        hv.hits value (Function.update fr.w.cell s (newElt hv value) x).key) = none := by
      rw [List.find?_eq_none]
      intro x hx hit
      rw [Function.update_of_ne (by rintro rfl; exact hs hx)] at hit
      exact hno ⟨x, hx, hit⟩
    have hnew : hv.hits value (newElt hv value).key = true := by
      rw [hits_exact _ hw, newElt, sameName_refl]
    rw [Frame.headersIn_propagate, (Frame.keep_propagate (by simpa using hwf')).2,
      Frame.cell_propagate]
    simp [Frame.ptr_store_self, hslots, hold, hnew]

structure World.InStep (w : World ρ) (r : ρ) : Prop where
  wellFormed : w.shape.WellFormed r
  coherent : w.Coherent r

omit [DecidableEq ρ] in
theorem World.InStep.congr (h : w.InStep r) (hwf : w'.shape.WellFormed r)
    (hslots : w'.shape.slots r = w.shape.slots r) (hkey : ∀ s, (w'.cell s).key = (w.cell s).key)
    (hptr : (w'.headersIn r).ptr = (w.headersIn r).ptr) : w'.InStep r where
  wellFormed := hwf
  coherent := fun f hf => by
    rw [hptr, h.coherent f hf, first, first, hslots]
    simp only [hkey]

theorem World.InStep.modifyIn (h : fr.w.InStep r) {g : HeadersIn → HeadersIn}
    (hg : ∀ x, (g x).ptr = x.ptr) : (fr.modifyIn r g).w.InStep r :=
  h.congr h.wellFormed rfl (fun _ => rfl) (by simp [Frame.modifyIn, setHeadersIn, hg])

omit [DecidableEq ρ] in
theorem World.InStep.setPool (h : fr.w.InStep r) {pool : Pool} (hg : fr.w.shape.pool.Grows pool) :
    (fr.setList (fr.w.shape.setPool pool) fr.w.cell).w.InStep r :=
  h.congr (h.wellFormed.setPool hg) (h.wellFormed.slots_setPool hg) (fun _ => rfl) rfl

omit [DecidableEq ρ] in
theorem World.InStep.setCell (h : fr.w.InStep r) {a : ℕ} {e : TableElt}
    (he : e.key = (fr.w.cell a).key) :
    (fr.setList fr.w.shape (Function.update fr.w.cell a e)).w.InStep r := by
  refine h.congr h.wellFormed rfl (fun s => ?_) rfl
  by_cases hs : s = a <;> simp [hs, he]

theorem setHeaderHelper_custom (h : fr.w.InStep r) (hw : hv.wildcard = false)
    (hname : ∀ f : InField, sameName hv.key f.name = false)
    (he : setHeaderHelper r hv value .null fr = .ok (.ok, fr')) : fr'.w.InStep r := by
  have ho := Outcome.of_run h.wellFormed he
  exact ⟨ho.wellFormed h.wellFormed, fun f hf => by
    rw [ho.ptr_other (by simp), ho.first_other hw (hname f), h.coherent f hf]⟩

theorem setHeaderHelper_field {f : InField} (h : fr.w.InStep r) (hw : hv.wildcard = false)
    (happ : hv.opcode ≠ .append) (hname : sameName hv.key f.name = true)
    (hsingle : f.handler ≠ .setBuiltinMultiHeader)
    (he : setHeaderHelper r hv value (.field f) fr = .ok (.ok, fr')) : fr'.w.InStep r := by
  have ho := Outcome.of_run h.wellFormed he
  refine ⟨ho.wellFormed h.wellFormed, fun g hg => ?_⟩
  by_cases hgf : g = f
  · subst hgf
    rw [← first_congr hname]
    exact ho.ptr_own hw happ ((h.coherent g hg).trans (first_congr hname).symm)
  · have hne : sameName hv.key g.name = false := by
      rw [sameName_congr hname, sameName_ne (Ne.symm hgf)]
    rw [ho.ptr_other (by simpa using Ne.symm hgf), ho.first_other hw hne, h.coherent g hg]

theorem setBuiltinHeader_inStep {f : InField} (h : fr.w.InStep r) (hw : hv.wildcard = false)
    (happ : hv.opcode ≠ .append) (hname : sameName hv.key f.name = true)
    (hoff : hv.offset = some f) (hsingle : f.handler ≠ .setBuiltinMultiHeader)
    (he : setBuiltinHeader r hv value fr = .ok (.ok, fr')) : fr'.w.InStep r := by
  unfold setBuiltinHeader at he
  rw [hoff] at he
  dsimp only at he
  split at he
  · exact setHeaderHelper_field h hw happ hname hsingle he
  · rename_i a _
    split_ifs at he with hadd hv₀
    · cases he
      exact h
    · exact setHeaderHelper_field (h.setCell (e := { fr.w.cell a with hash := 0, value }) rfl)
        hw happ hname hsingle he
    · cases he
      exact h.setCell rfl

/-- A handler keeps the typed pointers in step with the list. -/
theorem runHandlerIn_inStep (fr : Frame ρ) (h : fr.w.InStep r) (hp : hv.Parsed setHandlersIn)
    (hw : hv.wildcard = false) (hsingle : hv.handler ≠ .setBuiltinMultiHeader)
    (he : runHandlerIn r hv value fr = .ok (.ok, fr')) : fr'.w.InStep r := by
  unfold runHandlerIn at he
  rcases hp.field_or_custom with ⟨f, hname, hhandler, hoff, happ⟩ | ⟨hname, hhandler⟩
  · rw [hhandler] at hsingle he
    have hbuiltin : ∀ {fr : Frame ρ} {value : Str}, fr.w.InStep r →
        setBuiltinHeader r hv value fr = .ok (.ok, fr') → fr'.w.InStep r := fun h he =>
      setBuiltinHeader_inStep h hw happ hname hoff hsingle he
    have hset : ∀ {fr : Frame ρ} {g : HeadersIn → HeadersIn} {value : Str}, fr.w.InStep r →
        setBuiltinHeader r hv value (fr.modifyIn r g) = .ok (.ok, fr') →
        (∀ x, (g x).ptr = x.ptr) → fr'.w.InStep r :=
      fun h he hg => hbuiltin (h.modifyIn hg) he
    cases hf : f.handler with
    | setHeader => cases f <;> cases hf
    | setBuiltinMultiHeader => exact absurd hf hsingle
    | setBuiltinHeader =>
      rw [hf] at he
      exact hbuiltin h he
    | setHostHeader =>
      simp only [hf, setHostHeader] at he
      split_ifs at he
      · cases he
      · exact hset (h.setPool (validateHost_grows value fr.w.shape.pool false)) he fun _ => rfl
      · exact hset h he fun _ => rfl
    | setConnectionHeader =>
      simp only [hf, setConnectionHeader] at he
      have h' := h.modifyIn (g := fun h => { h with connectionType := .unknown }) fun _ => rfl
      split_ifs at he
      · exact hbuiltin h' he
      · have h'' := h'.modifyIn
          (g := fun h => { h with connectionType := .close, keepAliveN := -1 }) fun _ => rfl
        refine hbuiltin ?_ he
        exact ⟨h''.wellFormed, h''.coherent⟩
      · exact hset h' he fun _ => rfl
      · exact hbuiltin h' he
    | setUserAgentHeader =>
      simp only [hf, setUserAgentHeader] at he
      exact hset h he fun _ => rfl
    | setContentLengthHeader =>
      simp only [hf, setContentLengthHeader, clearContentLengthHeader, clearBuiltinHeader] at he
      split_ifs at he
      · exact hset h he fun _ => rfl
      · cases hlen : atosz value with
        | none => simp [hlen] at he
        | some len =>
          rw [hlen] at he
          exact hset h he fun _ => rfl
  · rw [hhandler] at he
    exact setHeaderHelper_custom h hw hname he

/-- An exact rule on a single-valued or custom name is executed, and returns `NGX_OK`. -/
def ExactStep (cv : ComplexValue → World ρ → Option Str) (r : ρ) (w w' : World ρ) : Prop :=
  ∃ hv : InVal, hv.Parsed setHandlersIn ∧ hv.wildcard = false ∧
    hv.handler ≠ .setBuiltinMultiHeader ∧ execInputHeader cv r hv w = .ok (.ok, w')

theorem ExactStep.inStep {cv : ComplexValue → World ρ → Option Str} (hs : ExactStep cv r w w')
    (h : w.InStep r) : w'.InStep r := by
  obtain ⟨hv, hp, hw, hsingle, he⟩ := hs
  rcases execHeader_inv he with ⟨rfl, -⟩ | ⟨-, value, -, he⟩
  · exact h
  · obtain ⟨fr, hrun, rfl⟩ := handleIn_eq_ok he
    exact runHandlerIn_inStep ⟨w, none⟩ h hp hw hsingle hrun

/--
From a request with a well-formed list and coherent typed pointers, every run of exact rules on
single-valued and custom names that return `NGX_OK` ends in such a request: each typed pointer is
at the first entry of its name, and null where there is none.
-/
theorem pointers_coherent (cv : ComplexValue → World ρ → Option Str)
    (hwf : w.shape.WellFormed r) (hc : w.Coherent r)
    (hrun : Relation.ReflTransGen (ExactStep cv r) w w') :
    w'.shape.WellFormed r ∧ w'.Coherent r := by
  have h : w'.InStep r := by
    induction hrun with
    | refl => exact ⟨hwf, hc⟩
    | tail _ hstep ih => exact hstep.inStep ih
  exact ⟨h.wellFormed, h.coherent⟩

def twoHosts : World Unit :=
  .ofEntries [(str "A", str "1"), (str "Host", str "a"), (str "host", str "b")] 4 fun f =>
    if f = .host then some 1 else none

/-- The directive `clear Host` removes both entries and resets the pointer. -/
theorem pointers_coherent_clear : ∃ w',
    Relation.ReflTransGen (ExactStep (fun text _ => some text) ()) twoHosts w' ∧
      w'.Coherent () ∧ w'.entries () = [(str "A", str "1")] := by
  have hc : twoHosts.Coherent () := fun f _ => by cases f <;> decide
  have hp := (parseDirective_eq_ok (rfl : parseDirective (fun _ => true) setHandlersIn 0
    [str "clear", str "Host"] = .ok _)).2
  have hstep : ∃ w', ExactStep (fun text _ => some text) () twoHosts w' ∧
      w'.entries () = [(str "A", str "1")] :=
    ⟨_, ⟨_, hp, rfl, by decide, rfl⟩, by decide⟩
  obtain ⟨w', hstep, hentries⟩ := hstep
  exact ⟨w', .single hstep, (pointers_coherent _ (single_wellFormed (by decide) (by decide)) hc
    (.single hstep)).2, hentries⟩

end HeadersControl
