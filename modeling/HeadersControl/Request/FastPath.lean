import HeadersControl.Request.Derived
import HeadersControl.Request.MultiValued
import HeadersControl.Request.Operators

/-! # The fast path of builtin request headers

Where the typed pointer of a builtin header is set, its handler writes the entry
behind the pointer and does not look at the list. The scan would remove all later
entries of the name, so the two agree as long as there are none to remove.
-/

namespace HeadersControl

open Segments Segments.Shape

def writeFirst (hit : Str → Bool) (value : Str) : List (Str × Str) → List (Str × Str)
  | [] => []
  | e :: es => if hit e.1 then (e.1, value) :: es else e :: writeFirst hit value es

section Lists

variable {hit : Str → Bool} {value : Str} {es : List (Str × Str)}

theorem filter_eq_self_iff_countP :
    (es.filter fun e => !hit e.1) = es ↔ (es.countP fun e => hit e.1) = 0 := by
  rw [List.filter_eq_self, List.countP_eq_zero]
  simp

theorem writeFirst_eq_keepFirst_iff :
    writeFirst hit value es = keepFirst hit value es ↔ (es.countP fun e => hit e.1) ≤ 1 := by
  induction es with
  | nil => simp [writeFirst, keepFirst]
  | cons e es ih =>
    cases he : hit e.1 with
    | false => simp [writeFirst, keepFirst, he, ih]
    | true =>
      simp only [writeFirst, keepFirst, List.countP_cons, he, if_true, List.cons.injEq, true_and]
      rw [eq_comm, filter_eq_self_iff_countP]
      omega

theorem hits_keepFirst (hit : Str → Bool) (value : Str) (h : (es.any fun e => hit e.1) = true) :
    ((keepFirst hit value es).filter fun e => hit e.1).map Prod.snd = [value] := by
  induction es with
  | nil => cases h
  | cons e es ih =>
    cases he : hit e.1 with
    | false => simpa [keepFirst, he] using ih (by simpa [he] using h)
    | true => simp [keepFirst, he]

theorem map_update_eq_writeFirst {slots : List ℕ} {a : ℕ} {cell : ℕ → TableElt} {e : TableElt}
    (hn : slots.Nodup) (ha : (slots.find? fun s => hit (cell s).key) = some a)
    (hkey : e.key = (cell a).key) :
    (slots.map fun s => ((Function.update cell a e s).key, (Function.update cell a e s).value)) =
      writeFirst hit e.value (slots.map fun s => ((cell s).key, (cell s).value)) := by
  induction slots with
  | nil => cases ha
  | cons s slots ih =>
    obtain ⟨hns, hn⟩ := List.nodup_cons.mp hn
    have hrest : s = a → (slots.map fun x => ((Function.update cell a e x).key,
        (Function.update cell a e x).value)) =
          slots.map fun x => ((cell x).key, (cell x).value) := by
      rintro rfl
      apply List.map_congr_left
      intro x hx
      rw [Function.update_of_ne]
      rintro rfl
      exact hns hx
    cases hs : hit (cell s).key with
    | true =>
      rw [List.find?_cons_of_pos (by simp [hs]), Option.some.injEq] at ha
      rw [List.map_cons, hrest ha]
      subst ha
      simp [writeFirst, hs, hkey]
    | false =>
      rw [List.find?_cons_of_neg (by simp [hs])] at ha
      have hne : s ≠ a := by
        rintro rfl
        have := List.find?_some ha
        rw [hs] at this
        cases this
      simp [writeFirst, hs, hne, ih hn ha]

theorem operate_nil {η ο : Type} {hv : HeaderVal η ο} (hv₀ : value = []) (hadd : hv.opcode ≠ .add)
    (happ : hv.opcode ≠ .append) (hpass : hv.opcode ≠ .pass) :
    hv.operate value es = es.filter fun e => !hv.matchesName e.1 := by
  cases hop : hv.opcode <;> simp_all [HeaderVal.operate]

end Lists

variable {ρ : Type} [DecidableEq ρ] {r : ρ} {hv : InVal} {f : InField} {value : Str}
  {fr fr' : Frame ρ} {w w' : World ρ}

omit [DecidableEq ρ] in
theorem entries_update_filter {a : ℕ} {e : TableElt} (ha : hv.matchesName (fr.w.cell a).key = true)
    (he : e.key = (fr.w.cell a).key) :
    ((fr.setList fr.w.shape (Function.update fr.w.cell a e)).w.entries r).filter
        (fun e => !hv.matchesName e.1) =
      (fr.w.entries r).filter fun e => !hv.matchesName e.1 := by
  have hkey : ∀ s, (Function.update fr.w.cell a e s).key = (fr.w.cell s).key := fun s => by
    by_cases hs : s = a <;> simp [hs, he]
  simp only [World.entries, Frame.shape_setList, Frame.cell_setList, List.filter_map,
    Function.comp_def, hkey]
  apply List.map_congr_left
  intro s hs
  rw [Function.update_of_ne]
  rintro rfl
  simp [ha] at hs

theorem setBuiltinHeader_entries (fr : Frame ρ) (h : fr.w.InStep r) (hw : hv.wildcard = false)
    (hname : sameName hv.key f.name = true) (hoff : hv.offset = some f)
    (hsingle : f.handler ≠ .setBuiltinMultiHeader) (happ : hv.opcode ≠ .append)
    (hpass : hv.opcode ≠ .pass) (hclear : hv.opcode = .clear → value = []) :
    ∃ rc fr', setBuiltinHeader r hv value fr = .ok (rc, fr') ∧
      (fr.w.shape.pool.Reliable → rc = .ok) ∧
      (rc = .ok → fr'.w.entries r =
        if hv.opcode ≠ .add ∧ value ≠ [] ∧ fr.w.first r f.name ≠ none then
          writeFirst hv.matchesName value (fr.w.entries r)
        else hv.operate value (fr.w.entries r)) := by
  have hptr := h.coherent f hsingle
  have hwild : hv.wildcard = true → hv.opcode = .clear := fun hc => by rw [hw] at hc; cases hc
  have hhelper : ∀ (fr₁ : Frame ρ), fr₁.w.InStep r → fr₁.w.shape = fr.w.shape →
      ∃ rc fr', setHeaderHelper r hv value (.field f) fr₁ = .ok (rc, fr') ∧
        (fr.w.shape.pool.Reliable → rc = .ok) ∧
        (rc = .ok → fr'.w.entries r = hv.operate value (fr₁.w.entries r)) := by
    intro fr₁ h₁ hshape
    obtain ⟨rc, fr', he, hrel, hok⟩ := setHeaderHelper_run hv value (.field f) fr₁ h₁.wellFormed
    exact ⟨rc, fr', he, fun hr => hrel (hshape ▸ hr), fun hrc =>
      (hok hrc).entries_eq hwild hclear hpass h₁.wellFormed.nodup_slots⟩
  unfold setBuiltinHeader
  rw [hoff]
  dsimp only
  cases hp : (fr.w.headersIn r).ptr f with
  | none =>
    have hfirst : fr.w.first r f.name = none := hptr.symm.trans hp
    simpa [hfirst] using hhelper fr h rfl
  | some a =>
    have hfirst : fr.w.first r f.name = some a := hptr.symm.trans hp
    have hfind : ((fr.w.shape.slots r).find? fun s => hv.matchesName (fr.w.cell s).key) =
        some a := by
      rw [← hfirst, ← first_congr hname]
      simp only [World.first, matchesName_exact hw]
    have hmatch : hv.matchesName (fr.w.cell a).key = true := by simpa using List.find?_some hfind
    have hany : ((fr.w.entries r).any fun e => hv.matchesName e.1) = true := by
      simp only [World.entries, List.any_map, List.any_eq_true, Function.comp_def]
      exact ⟨a, List.mem_of_find?_eq_some hfind, hmatch⟩
    dsimp only
    by_cases hadd : hv.opcode = .add
    · simp only [hadd, if_true]
      exact ⟨.ok, fr, rfl, fun _ => rfl, fun _ => by simp [HeaderVal.operate, hadd, hany]⟩
    rw [if_neg hadd, if_neg happ]
    by_cases hv₀ : value = []
    · rw [if_pos hv₀]
      obtain ⟨rc, fr', he, hrel, hrc⟩ := hhelper _ (h.setCell (a := a)
        (e := { fr.w.cell a with hash := 0, value }) rfl) rfl
      refine ⟨rc, fr', he, hrel, fun hok => ?_⟩
      rw [hrc hok, operate_nil hv₀ hadd happ hpass, if_neg (fun hc => hc.2.1 hv₀),
        operate_nil hv₀ hadd happ hpass]
      exact entries_update_filter hmatch rfl
    · rw [if_neg hv₀]
      refine ⟨.ok, _, rfl, fun _ => rfl, fun _ => ?_⟩
      rw [if_pos ⟨hadd, hv₀, by rw [hfirst]; exact Option.some_ne_none a⟩]
      exact map_update_eq_writeFirst h.wellFormed.nodup_slots hfind rfl

/-- The entries `es` are those of the scan, and `set` leaves one entry of the name. -/
structure LeftAs (hv : InVal) (f : InField) (value : Str) (es es' : List (Str × Str)) : Prop where
  same : es = es'
  only : hv.opcode = .set → value ≠ [] →
    (es.filter fun e => sameName e.1 f.name).map Prod.snd = [value]

theorem leftAs_iff {es : List (Str × Str)} (hname : sameName hv.key f.name = true)
    (hmatch : ∀ name, hv.matchesName name = sameName name f.name) (hpass : hv.opcode ≠ .pass)
    (happ : hv.opcode ≠ .append) (hclear : hv.opcode = .clear → value = []) :
    LeftAs hv f value
      (if hv.opcode ≠ .add ∧ value ≠ [] ∧ (es.any fun e => sameName e.1 f.name) = true then
        writeFirst hv.matchesName value es else hv.operate value es) (hv.operate value es) ↔
      ¬ (hv.opcode ≠ .add ∧ value ≠ [] ∧ 2 ≤ es.countP fun e => sameName e.1 f.name) := by
  have hfun : hv.matchesName = fun name => sameName name f.name := funext hmatch
  by_cases hw : hv.opcode ≠ .add ∧ value ≠ [] ∧ (es.any fun e => sameName e.1 f.name) = true
  · obtain ⟨hadd, hv₀, hany⟩ := hw
    have hop : hv.operate value es = keepFirst hv.matchesName value es := by
      cases hc : hv.opcode <;> simp_all [HeaderVal.operate]
    rw [if_pos ⟨hadd, hv₀, hany⟩, hop]
    have hcount : writeFirst hv.matchesName value es = keepFirst hv.matchesName value es ↔
        ¬ (hv.opcode ≠ .add ∧ value ≠ [] ∧ 2 ≤ es.countP fun e => sameName e.1 f.name) := by
      rw [writeFirst_eq_keepFirst_iff, hfun]
      simp only [ne_eq, hadd, hv₀, not_false_eq_true, true_and, not_le]
      omega
    constructor
    · intro h
      exact hcount.mp h.same
    · intro h
      refine ⟨hcount.mpr h, fun _ _ => ?_⟩
      rw [hcount.mpr h, hfun]
      exact hits_keepFirst (fun name => sameName name f.name) value hany
  · rw [if_neg hw]
    constructor
    · rintro - ⟨hadd, hv₀, hcount⟩
      have hany : ¬ (es.any fun e => sameName e.1 f.name) = true := fun hany => hw ⟨hadd, hv₀, hany⟩
      have hzero : (es.countP fun e => sameName e.1 f.name) = 0 := by
        rw [List.countP_eq_zero]
        intro e he hs
        exact hany (List.any_eq_true.mpr ⟨e, he, hs⟩)
      omega
    · refine fun _ => ⟨rfl, fun hset hv₀ => ?_⟩
      have hnone : ∀ e ∈ es, sameName e.1 f.name = false := fun e he =>
        Bool.eq_false_iff.mpr fun hs =>
          hw ⟨by simp [hset], hv₀, List.any_eq_true.mpr ⟨e, he, hs⟩⟩
      rw [operate_of_no_hit fun e he => by rw [hmatch, hnone e he],
        if_pos (Or.inr ⟨hv₀, Or.inl hset⟩), List.filter_append,
        List.filter_eq_nil_iff.mpr fun e he => by simp [hnone e he]]
      simp [hname]

/--
From a request with coherent typed pointers, the handler of a builtin field without derived state
leaves the entries that the scan leaves, and one entry of the name after `set`, exactly where it
does not write a value while the list holds two entries of the name.
-/
theorem fast_path_agrees (w : World ρ) (r : ρ) (hv : InVal) (f : InField) (value : Str)
    (hwf : w.shape.WellFormed r) (hc : w.Coherent r) (hp : hv.Parsed setHandlersIn)
    (hoff : hv.offset = some f) (hplain : f.handler = .setBuiltinHeader)
    (hpass : hv.opcode ≠ .pass) (hclear : hv.opcode = .clear → value = []) :
    ∃ rc rc' fr fr', setBuiltinHeader r hv value ⟨w, none⟩ = .ok (rc, fr) ∧
      setHeaderHelper r hv value .null ⟨w, none⟩ = .ok (rc', fr') ∧
      (w.shape.pool.Reliable → rc = .ok ∧ rc' = .ok) ∧
      (rc = .ok → rc' = .ok →
        (LeftAs hv f value (fr.w.entries r) (fr'.w.entries r) ↔
          ¬ (hv.opcode ≠ .add ∧ value ≠ [] ∧
            2 ≤ (w.entries r).countP fun e => sameName e.1 f.name))) := by
  obtain ⟨hname, -, happ, hw⟩ := hp.of_offset hoff
  have hsingle : f.handler ≠ .setBuiltinMultiHeader := by
    rw [hplain]
    decide
  have hmatch : ∀ name, hv.matchesName name = sameName name f.name := fun name => by
    rw [matchesName_exact hw, sameName_comm, sameName_congr hname, sameName_comm]
  have hany : w.first r f.name ≠ none ↔
      ((w.entries r).any fun e => sameName e.1 f.name) = true := by
    have hit : hv.Hit value w r ↔ w.first r f.name ≠ none := hit_iff_first hw hname
    rw [← hit, hit_iff_any (by simp [hw])]
    simp only [hmatch]
  obtain ⟨rc, fr, he, hrel, hfast⟩ := setBuiltinHeader_entries ⟨w, none⟩ ⟨hwf, hc⟩ hw hname hoff
    hsingle happ hpass hclear
  obtain ⟨rc', fr', he', hrel', hok'⟩ := setHeaderHelper_run hv value .null ⟨w, none⟩ hwf
  refine ⟨rc, rc', fr, fr', he, he', fun hr => ⟨hrel hr, hrel' hr⟩, fun hrc hrc' => ?_⟩
  have hscan := (hok' hrc').entries_eq (by simp [hw]) hclear hpass hwf.nodup_slots
  rw [hfast hrc, hscan]
  simp only [hany]
  exact leftAs_iff hname hmatch hpass happ hclear

def viaRequest (values : List Str) : World Unit :=
  .ofEntries (values.map fun v => (str "Via", v)) 4 fun f => if f = .via then some 0 else none

/-- `set Via c` on a request with one `Via` entry. -/
theorem fast_path_agrees_single : ∃ (hv : InVal) (fr fr' : Frame Unit),
    parseDirective (fun _ => true) setHandlersIn 0 [str "set", str "Via", str "c"] = .ok hv ∧
    setBuiltinHeader () hv (str "c") ⟨viaRequest [str "a"], none⟩ = .ok (.ok, fr) ∧
    setHeaderHelper () hv (str "c") .null ⟨viaRequest [str "a"], none⟩ = .ok (.ok, fr') ∧
    LeftAs hv .via (str "c") (fr.w.entries ()) (fr'.w.entries ()) := by
  have hp := (parseDirective_eq_ok (rfl : parseDirective (fun _ => true) setHandlersIn 0
    [str "set", str "Via", str "c"] = .ok _)).2
  have hc : (viaRequest [str "a"]).Coherent () := fun f _ => by cases f <;> decide
  obtain ⟨rc, rc', fr, fr', he, he', hrel, hiff⟩ := fast_path_agrees (viaRequest [str "a"]) () _
    .via (str "c") (single_wellFormed (by decide) (by decide)) hc hp rfl rfl (by decide) (by decide)
  obtain ⟨rfl, rfl⟩ := hrel fun _ => rfl
  exact ⟨_, fr, fr', rfl, he, he', (hiff rfl rfl).mpr (by decide)⟩

/-- On a request with two of them the second one is left. -/
theorem fast_path_agrees_twice : ∃ (hv : InVal) (fr fr' : Frame Unit),
    (viaRequest [str "a", str "b"]).shape.WellFormed () ∧
    (viaRequest [str "a", str "b"]).Coherent () ∧
    parseDirective (fun _ => true) setHandlersIn 0 [str "set", str "Via", str "c"] = .ok hv ∧
    setBuiltinHeader () hv (str "c") ⟨viaRequest [str "a", str "b"], none⟩ = .ok (.ok, fr) ∧
    setHeaderHelper () hv (str "c") .null ⟨viaRequest [str "a", str "b"], none⟩ = .ok (.ok, fr') ∧
    fr.w.entries () = [(str "Via", str "c"), (str "Via", str "b")] ∧
    fr'.w.entries () = [(str "Via", str "c")] :=
  ⟨_, _, _, single_wellFormed (by decide) (by decide), fun f _ => by cases f <;> decide,
    rfl, rfl, rfl, by decide, by decide⟩

end HeadersControl
