import HeadersControl.Base.PtrArray
import HeadersControl.Request.Older
import HeadersControl.Request.View
import HeadersControl.Rules.Refinement

/-! # Multi-valued request headers before nginx 1.23

Older versions of nginx keep the entries of `Cookie` and `X-Forwarded-For` in arrays of
pointers. The handler of these headers does to the array what the one of the newer
build does to the chain, unless that one uses its local variable unassigned: here the
variable starts as NULL.
-/

namespace HeadersControl

open Segments Segments.Shape

section Lists

variable {ρ : Type} [DecidableEq ρ] {r : ρ} {hv : InVal} {f : InField} {value : Str}
  {out : OutRef} {fr fr' : Frame ρ} {w w' : World ρ} {hs : List ℕ}

/-- The chain of a field goes through these entries, which are all of its name. -/
def World.Lists (w : World ρ) (r : ρ) (f : InField) (hs : List ℕ) : Prop :=
  Chained w.cell ((w.headersIn r).ptr f) hs ∧
    ∀ s ∈ hs, s ∈ w.shape.slots r ∧ sameName (w.cell s).key f.name = true

omit [DecidableEq ρ] in
theorem World.Lists.congr (h : w.Lists r f hs)
    (hptr : (w'.headersIn r).ptr f = (w.headersIn r).ptr f)
    (hcell : ∀ s ∈ hs, (w'.cell s).next = (w.cell s).next ∧ (w'.cell s).key = (w.cell s).key)
    (hslots : ∀ s ∈ hs, s ∈ w.shape.slots r → s ∈ w'.shape.slots r) : w'.Lists r f hs := by
  constructor
  · rw [hptr]
    exact h.1.congr fun s hs => (hcell s hs).1
  · intro s hs
    obtain ⟨hm, hname⟩ := h.2 s hs
    rw [(hcell s hs).2]
    exact ⟨hslots s hs hm, hname⟩

theorem Outcome.lists (hmiss : hv.matchesName f.name = false) (hout : out ≠ .field f)
    (h : fr.w.Lists r f hs) (ho : Outcome r hv value out fr fr') : fr'.w.Lists r f hs := by
  have hno : ∀ s ∈ hs, hv.hits value (fr.w.cell s).key = false := by
    intro s hs
    simp [HeaderVal.hits, matchesName_congr (h.2 s hs).2, hmiss]
  refine h.congr (ho.ptr_other hout) (fun s hs => ?_) (fun s hs hm => ?_)
  · cases ho with
    | unchanged => exact ⟨rfl, rfl⟩
    | cleared _ _ _ _ hk =>
      have hsame := hk.same s (by simp [hno s hs])
      simp [hsame]
    | @kept a sh cell _ _ _ _ hk =>
      have hsame := hk.same s (by simp [hno s hs])
      by_cases hsa : s = a
      · subst hsa
        simp [hsame]
      · simp [hsame, hsa]
    | @created a sh _ _ _ _ hnew =>
      have hsa : s ≠ a := by
        rintro rfl
        exact hnew (h.2 s hs).1
      simp [Frame.cell_propagate, hsa]
  · cases ho with
    | unchanged => exact hm
    | cleared _ _ _ _ hk =>
      rw [Frame.shape_setList, hk.slots]
      exact List.mem_filter.mpr ⟨hm, by simp [hno s hs]⟩
    | kept _ _ _ _ hk =>
      rw [Frame.shape_setList, hk.slots]
      exact List.mem_filter.mpr ⟨hm, by simp [hno s hs]⟩
    | @created a sh _ hwf _ hslots =>
      rw [(Frame.keep_propagate (by simpa using hwf)).2]
      simp [hslots, hm]

theorem setBuiltinHeader_lists (hwf : fr.w.shape.WellFormed r)
    (hmiss : hv.matchesName f.name = false) (hoff : hv.offset ≠ some f) (h : fr.w.Lists r f hs)
    (he : setBuiltinHeader r hv value fr = .ok (.ok, fr')) : fr'.w.Lists r f hs := by
  have hhelper : ∀ {out : OutRef} {fr₁ : Frame ρ},
      setHeaderHelper r hv value out fr₁ = .ok (.ok, fr') → out ≠ .field f →
      fr₁.w.shape.WellFormed r → fr₁.w.Lists r f hs → fr'.w.Lists r f hs :=
    fun he hout hwf h => (Outcome.of_run hwf he).lists hmiss hout h
  have hwrite : ∀ (a : ℕ) (hash : Word), (fr.setList fr.w.shape
      (Function.update fr.w.cell a { fr.w.cell a with hash, value })).w.Lists r f hs := by
    intro a hash
    refine h.congr rfl (fun s _ => ?_) fun _ _ hm => hm
    by_cases hs : s = a
    · subst hs
      simp
    · simp [hs]
  unfold setBuiltinHeader at he
  split at he
  · exact hhelper he (by simp) hwf h
  · rename_i g hg
    have hout : OutRef.field g ≠ .field f := by
      rintro ⟨⟩
      exact hoff hg
    split at he
    · exact hhelper he hout hwf h
    · split_ifs at he
      · cases he
        exact h
      · exact hhelper he hout hwf h
      · exact hhelper he hout hwf (hwrite _ _)
      · cases he
        exact hwrite _ _

omit [DecidableEq ρ] in
theorem Prepared.lists {fr₁ : Frame ρ} (hp : Prepared r fr fr₁) (hwf : fr.w.shape.WellFormed r)
    (h : fr.w.Lists r f hs) : fr₁.w.Lists r f hs := by
  refine h.congr (congrFun hp.ptr f) (fun s _ => ?_) fun s _ hm => ?_
  · rw [hp.cell]
    exact ⟨rfl, rfl⟩
  · rwa [hp.slots hwf]

theorem runHandlerIn_lists (hp : hv.Parsed setHandlersIn)
    (hmulti : hv.handler ≠ .setBuiltinMultiHeader) (hf : f.handler = .setBuiltinMultiHeader)
    (hmiss : hv.matchesName f.name = false)
    (hwf : fr.w.shape.WellFormed r) (h : fr.w.Lists r f hs)
    (he : runHandlerIn r hv value fr = .ok (.ok, fr')) : fr'.w.Lists r f hs := by
  rcases hp.field_or_custom with ⟨g, -, hhandler, hoff, -⟩ | ⟨-, hhandler⟩
  · have hsingle : g.handler ≠ .setBuiltinMultiHeader := fun hg => hmulti (hhandler.trans hg)
    have hne : hv.offset ≠ some f := by
      rw [hoff]
      rintro ⟨⟩
      exact hsingle hf
    cases hd : g.derive value (fr.w.derived r) with
    | none => cases (runHandlerIn_rejects fr hhandler hd).symm.trans he
    | some d =>
      rcases runHandlerIn_derives fr hhandler hsingle hd with
        ⟨fr₁, -, he₁, -⟩ | ⟨fr₁, hpre, -, he₁⟩
      · cases he₁.symm.trans he
      · exact setBuiltinHeader_lists (hpre.wellFormed hwf) hmiss hne (hpre.lists hwf h)
          (he₁.symm.trans he)
  · simp only [runHandlerIn, hhandler] at he
    exact (Outcome.of_run hwf he).lists hmiss (by simp) h

theorem Outcome.stored (hw : hv.wildcard = false) (hname : sameName hv.key f.name = true)
    (hwf : fr.w.shape.WellFormed r) (happ : hv.opcode ≠ .append) (hv₀ : value ≠ [])
    (ho : Outcome r hv value .localVar fr fr') :
    fr' = fr ∨ ∃ a, fr'.h = some (some a) ∧ a ∈ fr'.w.shape.slots r ∧
      sameName (fr'.w.cell a).key f.name = true := by
  have honly : ¬ (hv.opcode = .add ∧ hv.Hit value fr.w r) →
      ¬ (hv.opcode = .rewrite ∧ ¬ hv.Hit value fr.w r) → ∃ a, fr'.h = some (some a) ∧
        a ∈ fr'.w.shape.slots r ∧ sameName (fr'.w.cell a).key f.name = true := by
    intro hu hr
    obtain ⟨a, ha, hlist⟩ := ho.only_entry hw hname hwf happ hv₀ hu hr
    have hm : a ∈ (fr'.w.shape.slots r).filter fun s => sameName (fr'.w.cell s).key f.name := by
      rw [hlist]
      exact List.mem_singleton_self a
    exact ⟨a, ha, List.mem_filter.mp hm⟩
  cases ho with
  | unchanged => exact Or.inl rfl
  | cleared _ _ hnil => exact absurd hnil hv₀
  | kept hadd _ _ hfind =>
    have hit : hv.Hit value fr.w r := 
      ⟨_, List.mem_of_find?_eq_some hfind, by simpa using List.find?_some hfind⟩
    exact Or.inr (honly (fun h => hadd h.1) fun h => h.2 hit)
  | created hc =>
    obtain ⟨hno, -, hre⟩ := hc.resolve_left happ
    exact Or.inr (honly (fun h => hno h.2) fun h => hre h.1)

theorem Outcome.assigned (h : fr.h ≠ none) (ho : Outcome r hv value .localVar fr fr') :
    fr'.h ≠ none := by
  cases ho with
  | unchanged => exact h
  | cleared => exact Option.some_ne_none _
  | kept => exact Option.some_ne_none _
  | created =>
    rw [Frame.local_propagate]
    exact Option.some_ne_none _

end Lists

/--
A main request without subrequests in a build with arrays. The typed pointers of its multi-valued
headers and the fields `next` of its entries do not exist there.
-/
structure ArrayRequest where
  world : World Unit
  arrays : InField → PtrArray

def ArrayRequest.setArray (t : ArrayRequest) (f : InField) (pa : PtrArray) : ArrayRequest :=
  { t with arrays := Function.update t.arrays f pa }

/-- The handler of `Cookie` and `X-Forwarded-For`, before nginx 1.23. -/
def setBuiltinMultiHeaderInArray (hv : InVal) (value : Str) (t : ArrayRequest) :
    Except Fault (Rc × ArrayRequest) :=
  if t.world.status () = 400 ∨ (t.world.shape.header ()).last = none then .ok (.ok, t)
  else match hv.offset with
    | none => .error .null
    | some f =>
        match (t.arrays f).reset with
        | (false, pa) => .ok (.error, t.setArray f pa)
        | (true, pa) =>
            let t := t.setArray f pa
            match setHeaderHelper () hv value .localVar ⟨t.world, some none⟩ with
            | .error e => .error e
            | .ok (.error, fr) => .ok (.error, { t with world := fr.w })
            | .ok (_, fr) =>
                let t := { t with world := fr.w }
                if value = [] then .ok (.ok, t)
                else match pa.pushPlace with
                  | (false, pa) => .ok (.error, t.setArray f pa)
                  | (true, pa) =>
                      match fr.h with
                      | none => .error .unset
                      | some h => .ok (.ok, t.setArray f (h.elim pa pa.assignLast))

def handleInArray (hv : InVal) (value : Str) (t : ArrayRequest) :
    Except Fault (Rc × ArrayRequest) :=
  match hv.handler with
  | .setBuiltinMultiHeader => setBuiltinMultiHeaderInArray hv value t
  | _ => (handleIn () hv value t.world).map fun p => (p.1, { t with world := p.2 })

/-- `ngx_http_headers_control_exec_input_header`. -/
def execInputHeaderArray (cv : ComplexValue → ArrayRequest → Option Str) (hv : InVal)
    (t : ArrayRequest) : Except Fault (Rc × ArrayRequest) :=
  execHeader cv handleInArray hv t

/-- The older build has the same request, and its arrays list the chains. -/
structure World.Agrees (w : World Unit) (t : ArrayRequest) : Prop where
  world : t.world = w.older
  arrays : ∀ f : InField, f.handler = .setBuiltinMultiHeader →
    ∃ hs, w.Lists () f hs ∧ (t.arrays f).Lists hs

/-- A rule that matches multi-valued headers under their names only. -/
def HeaderVal.SparesChains (hv : InVal) : Prop :=
  hv.wildcard = true → ∀ f : InField, f.handler = .setBuiltinMultiHeader →
    hv.matchesName f.name = false

instance (hv : InVal) : Decidable hv.SparesChains :=
  decidable_of_iff (hv.wildcard = true → ∀ f ∈ InField.all, f.handler = .setBuiltinMultiHeader →
    hv.matchesName f.name = false)
    ⟨fun h hw f => h hw f f.mem_all, fun h hw f _ => h hw f⟩

section Agreement

variable {hv : InVal} {f g : InField} {value : Str} {w w' : World Unit} {t t' : ArrayRequest}
  {fr fr' : Frame Unit} {hs : List ℕ}

theorem dropChain_older (hf : f.handler = .setBuiltinMultiHeader) (w : World Unit) :
    (Frame.dropChain ⟨w, none⟩ () f).older (some none) = ⟨w.older, some none⟩ := by
  unfold Frame.dropChain
  split
  · rw [Frame.older, setPtr_multi_older hf]
    rfl
  · rfl

theorem linkHead_older (hf : f.handler = .setBuiltinMultiHeader) (a : ℕ) :
    (fr.linkHead () f a).w.older = fr.w.older := by
  have hcell : (fun s => (Function.update fr.w.cell a
      { fr.w.cell a with next := none } s).unlinked) = fun s => (fr.w.cell s).unlinked := by
    rw [← update_unlinked]
    exact Function.update_eq_self a _
  refine Eq.trans ?_ (setPtr_multi_older (r := ()) hf (some a))
  unfold Frame.linkHead World.older World.setList
  dsimp only
  rw [hcell]
  rfl

theorem dropChain_lists (hne : f ≠ g) (h : fr.w.Lists () g hs) :
    (fr.dropChain () f).w.Lists () g hs := by
  refine h.congr ?_ (fun s _ => ?_) fun s _ hm => ?_
  · unfold Frame.dropChain
    split
    · simp [World.setPtr, World.setHeadersIn, Ne.symm hne]
    · rfl
  · simp
  · simpa using hm

theorem linkHead_lists {a : ℕ} (hslot : a ∈ fr.w.shape.slots ())
    (hkey : sameName (fr.w.cell a).key f.name = true) :
    (fr.linkHead () f a).w.Lists () f [a] := by
  refine ⟨⟨?_, ?_⟩, fun s hs => ?_⟩
  · simp [Frame.linkHead, World.setList, World.setPtr, World.setHeadersIn]
  · simp [Frame.linkHead, World.setList, Chained]
  · obtain rfl := List.mem_singleton.mp hs
    refine ⟨hslot, ?_⟩
    simpa [Frame.linkHead, World.setList] using hkey

theorem linkHead_lists_other {a : ℕ} (hne : f ≠ g)
    (hkey : sameName (fr.w.cell a).key f.name = true) (h : fr.w.Lists () g hs) :
    (fr.linkHead () f a).w.Lists () g hs := by
  refine h.congr ?_ (fun s hs => ?_) fun _ _ hm => hm
  · simp [Frame.linkHead, World.setList, World.setPtr, World.setHeadersIn, Ne.symm hne]
  · have hsa : s ≠ a := by
      rintro rfl
      have hname := (sameName_congr hkey g.name).symm.trans (h.2 s hs).2
      rw [sameName_ne hne] at hname
      cases hname
    simp [Frame.linkHead, World.setList, hsa]

theorem agrees_of_field {arrays : InField → PtrArray} {pa : PtrArray}
    (hold : ∀ g : InField, g.handler = .setBuiltinMultiHeader → g ≠ f →
      ∃ hs, w.Lists () g hs ∧ (arrays g).Lists hs)
    (hlist : w.Lists () f hs) (hpa : pa.Lists hs) :
    w.Agrees ⟨w.older, Function.update arrays f pa⟩ where
  world := rfl
  arrays := fun g hg => by
    by_cases hgf : g = f
    · subst hgf
      refine ⟨hs, hlist, ?_⟩
      show (Function.update arrays g pa g).Lists hs
      rwa [Function.update_self]
    · obtain ⟨hs', hl, hpa'⟩ := hold g hg hgf
      refine ⟨hs', hl, ?_⟩
      show (Function.update arrays f pa g).Lists hs'
      rwa [Function.update_of_ne hgf]

/-- The handler of a multi-valued header does to the array what it does to the chain. -/
theorem setBuiltinMultiHeader_follows (value : Str) (hname : sameName hv.key f.name = true)
    (hoff : hv.offset = some f) (hf : f.handler = .setBuiltinMultiHeader)
    (hw : hv.wildcard = false) (happ : hv.opcode ≠ .append) (hwf : w.shape.WellFormed ())
    (ha : w.Agrees t) :
    Follows (fun w t => w.shape.WellFormed () ∧ w.Agrees t) (fun w t => t.world = w.older)
      ((setBuiltinMultiHeader () hv value ⟨w, none⟩).map fun res => (res.1, res.2.w))
      (setBuiltinMultiHeaderInArray hv value t) := by
  obtain ⟨world, arrays⟩ := t
  obtain ⟨hworld, harrays⟩ := ha
  dsimp only at hworld harrays
  subst hworld
  by_cases hstatus : w.status () = 400
  · have hstop : setBuiltinMultiHeaderInArray hv value ⟨w.older, arrays⟩ =
        .ok (.ok, ⟨w.older, arrays⟩) := if_pos (Or.inl hstatus)
    rw [setBuiltinMultiHeader, if_pos (Or.inl hstatus), hstop]
    exact .ended rfl fun _ => ⟨hwf, rfl, harrays⟩
  obtain ⟨hs₀, -, hl₀⟩ := harrays f hf
  obtain ⟨pa, hreset, hempty, hpa⟩ := PtrArray.reset_spec hl₀
  have hwf₀ : (Frame.dropChain ⟨w, none⟩ () f).w.shape.WellFormed () := by simpa using hwf
  have hnot : ¬ (w.older.status () = 400 ∨ (w.older.shape.header ()).last = none) := by
    obtain ⟨fin, hfin⟩ := hwf.last_eq
    rintro (h | h)
    · exact hstatus h
    · cases hfin.symm.trans h
  have hhelper : setHeaderHelper () hv value .localVar ⟨w.older, some none⟩ =
      atOlder (some none)
        (setHeaderHelper () hv value .localVar (Frame.dropChain ⟨w, none⟩ () f)) := by
    rw [← dropChain_older hf w]
    exact setHeaderHelper_older fun _ hf => by cases hf
  have hmiss : ∀ g : InField, g ≠ f → hv.matchesName g.name = false := fun g hgf => by
    rw [matchesName_exact hw, sameName_comm, sameName_congr hname, sameName_ne (Ne.symm hgf)]
  unfold setBuiltinMultiHeaderInArray
  dsimp only [ArrayRequest.setArray]
  rw [if_neg hnot, hoff]
  dsimp only
  rw [hreset]
  dsimp only
  rw [hhelper]
  rcases setHeaderHelper_cases hv value .localVar _ hwf₀ with ⟨fr₁, he, -, -⟩ | ⟨fr₁, he, ho⟩
  · rw [setBuiltinMultiHeader_of_error hwf hstatus hoff he, he]
    exact .ended rfl fun hne => absurd rfl hne
  have hptr : (fr₁.w.headersIn ()).ptr f = none := (ho.ptr_other (by simp)).trans ptr_dropChain
  have hwf₁ := ho.wellFormed hwf₀
  have hothers : ∀ g : InField, g.handler = .setBuiltinMultiHeader → g ≠ f →
      ∃ hs, fr₁.w.Lists () g hs ∧ (arrays g).Lists hs := by
    intro g hg hgf
    obtain ⟨hs, hl, hpa⟩ := harrays g hg
    exact ⟨hs, ho.lists (hmiss g hgf) (by simp) (dropChain_lists (Ne.symm hgf) hl), hpa⟩
  rw [setBuiltinMultiHeader_of_helper hwf hstatus hoff he hptr, he]
  dsimp only [atOlder, Except.map]
  by_cases hv₀ : value = []
  · rw [if_pos hv₀, if_pos hv₀]
    have hnil : fr₁.w.Lists () f [] := ⟨hptr, by simp⟩
    exact .ended rfl fun _ => ⟨hwf₁, agrees_of_field hothers hnil hpa⟩
  rw [if_neg hv₀, if_neg hv₀]
  rcases ho.stored hw hname hwf₀ happ hv₀ with rfl | ⟨a, hh, hslot, hkey⟩
  · exact .fault
  obtain ⟨pa', hpush, hassign⟩ := PtrArray.pushPlace_spec hempty hpa
  rw [hh, hpush]
  have hrest : ∀ g : InField, g.handler = .setBuiltinMultiHeader → g ≠ f →
      ∃ hs, (fr₁.linkHead () f a).w.Lists () g hs ∧ (arrays g).Lists hs := by
    intro g hg hgf
    obtain ⟨hs, hl, hpa⟩ := hothers g hg hgf
    exact ⟨hs, linkHead_lists_other (Ne.symm hgf) hkey hl, hpa⟩
  have hagrees := agrees_of_field hrest (linkHead_lists hslot hkey) (hassign a)
  rw [linkHead_older hf] at hagrees
  have hlocal : (fr₁.older (some none)).h = some (some a) := by
    rw [Frame.older, hh]
    rfl
  dsimp only
  rw [hlocal]
  dsimp only [Option.elim]
  rw [Function.update_idem]
  exact .ended (linkHead_older hf a).symm fun _ => ⟨hwf₁, hagrees⟩

end Agreement

end HeadersControl
