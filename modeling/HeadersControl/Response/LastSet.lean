import HeadersControl.Response.NoOps

/-! # The last `set` of a content type and length

The handler of `Content-Type` writes the type, its length and its hash for every
value, and the charset for a value with a charset parameter only. The handler of
`Content-Length` writes one entry, which may be one that an earlier `set` has found
or hidden.
-/

namespace HeadersControl.Response

open Segments Segments.Shape

variable {s s' s₁ s₂ : Response} {hv hvA hvB : OutVal} {value a b : Str} {h : ℕ}

def SameCharset (c c' : Charset) : Prop :=
  c.len = c'.len ∧ c.data.take c.len.toNat = c'.data.take c'.len.toNat

theorem SameCharset.refl (c : Charset) : SameCharset c c := ⟨rfl, rfl⟩

structure SameResponse (s s' : Response) : Prop where
  visible : s.visible = s'.visible
  ptr : s.ptr = s'.ptr
  contentType : s.contentType = s'.contentType
  contentTypeLen : s.contentTypeLen = s'.contentTypeLen
  contentTypeHash : s.contentTypeHash = s'.contentTypeHash
  charset : SameCharset s.charset s'.charset
  contentLengthN : s.contentLengthN = s'.contentLengthN

theorem repairLocation_eq_self (hr : ∀ l, s.ptr .location = some l →
    (s.cell l).value.head? = some 47 →
      (s.cell l).hash = locationHash ∧ (s.cell l).key = str "Location") :
    s.repairLocation = s := by
  unfold repairLocation
  cases hp : s.ptr .location with
  | none => rfl
  | some l =>
    dsimp only
    split
    · rename_i hpath
      obtain ⟨hhash, hkey⟩ := hr l hp hpath
      rw [← hhash, ← hkey, setCell, Function.update_eq_self]
    · rfl

theorem repaired_of_path {l : ℕ} (hp : s.ptr .location = some l)
    (hpath : (s.cell l).value.head? = some 47) :
    (s.repairLocation.cell l).hash = locationHash ∧
      (s.repairLocation.cell l).key = str "Location" := by
  simp [repairLocation, hp, hpath]

section ContentType

def hideNamed (hv : OutVal) (s : Response) : Response :=
  s.repairLocation.sweep hv [] none
    ((s.repairLocation.shape.slots ()).filter (s.repairLocation.hits hv)) none

theorem setHeaderHelper_hide (hop : hv.opcode = .set) (hwf : s.shape.WellFormed ()) :
    setHeaderHelper hv [] none true s = .ok (.ok, hideNamed hv s) := by
  have happ : hv.opcode ≠ .append := by simp [hop]
  cases hany : (s.repairLocation.shape.slots ()).any (s.repairLocation.hits hv) with
  | true => exact setHeaderHelper_hit [] none true happ (by simp [hop]) hwf hany
  | false =>
    have hnone : (s.repairLocation.shape.slots ()).filter (s.repairLocation.hits hv) = [] := by
      rw [List.filter_eq_nil_iff]
      exact List.any_eq_false.mp hany
    rw [setHeaderHelper_no_hit [] none true happ hwf hany, if_pos (Or.inr ⟨by simp, rfl⟩),
      hideNamed, hnone, sweep_nil]

theorem hits_congr (hwA : hvA.wildcard = false) (hwB : hvB.wildcard = false)
    (hname : sameName hvA.key hvB.key = true) (s : Response) : s.hits hvA = s.hits hvB := by
  funext h
  rw [hits, hits, matchesName_exact hwA, matchesName_exact hwB, sameName_comm,
    sameName_congr hname, sameName_comm]

/-- What one rule has hidden leaves nothing to hide, or to repair, for another. -/
theorem hideNamed_hideNamed (hwA : hvA.wildcard = false) (hwB : hvB.wildcard = false)
    (hname : sameName hvA.key hvB.key = true) :
    hideNamed hvB (hideNamed hvA s) = hideNamed hvB s := by
  have heq : hideNamed hvA s = hideNamed hvB s := by
    rw [hideNamed, hits_congr hwA hwB hname]
    rfl
  rw [heq]
  have hcell : ∀ h, (hideNamed hvB s).cell h =
      if h ∈ (s.repairLocation.shape.slots ()).filter (s.repairLocation.hits hvB)
        then (s.repairLocation.cell h).hide else s.repairLocation.cell h := fun _ => rfl
  have hrepair : (hideNamed hvB s).repairLocation = hideNamed hvB s := by
    apply repairLocation_eq_self
    intro l hp hpath
    have hp' : s.ptr .location = some l := by
      rw [← ptr_repairLocation]
      exact hp
    rw [hcell] at hpath ⊢
    split_ifs at hpath ⊢
    · cases hpath
    · rw [value_repairLocation] at hpath
      exact repaired_of_path hp' hpath
  have hnone : ((hideNamed hvB s).shape.slots ()).filter ((hideNamed hvB s).hits hvB) = [] := by
    rw [List.filter_eq_nil_iff]
    intro h hh
    rw [hits, Response.shown, hcell]
    split_ifs with hmem
    · simp [TableElt.hide]
    · intro hhit
      exact hmem (List.mem_filter.mpr ⟨hh, hhit⟩)
  conv_lhs => rw [hideNamed, hrepair, hnone, sweep_nil]

theorem hideNamed_storeContentType (found : Option (ℕ × ℕ × Word)) :
    hideNamed hvB (storeContentType hv value found s) =
      storeContentType hv value found (hideNamed hvB s) := by
  unfold hideNamed
  rw [repairLocation_storeContentType]
  rfl

def HasCharset (b : Str) : Prop := ∃ pre q, CharsetAt b pre q

theorem setContentTypeHeader_set (v : Str) : ∃ found,
    (∀ (hv : OutVal) (s : Response), hv.opcode = .set → s.shape.WellFormed () →
      setContentTypeHeader hv v s = .ok (.ok, storeContentType hv v found (hideNamed hv s))) ∧
    ((∀ pre q, ¬ CharsetAt v pre q) ∧ found = none ∨
      ∃ pre q last data len, CharsetAt v pre q ∧ found = some (last, data, len) ∧
        (⟨len, v.drop data⟩ : Charset) = charsetOf v q) := by
  obtain ⟨found, -, hstore, hfound⟩ := charsetLoop_spec v
  refine ⟨found, fun hv s hop hwf => ?_, ?_⟩
  · rw [hstore, ← hideNamed_storeContentType]
    exact setHeaderHelper_hide hop hwf
  · cases hf : found with
    | none =>
      refine Or.inl ⟨fun pre q hc => ?_, rfl⟩
      cases hf.symm.trans ((hfound _ _ _).mpr ⟨pre, q, hc, rfl, rfl, rfl⟩)
    | some res =>
      obtain ⟨last, data, len⟩ := res
      obtain ⟨pre, q, hc, -, rfl, rfl⟩ := (hfound last data len).mp hf
      refine Or.inr ⟨pre, q, _, _, _, hc, rfl, ?_⟩
      rw [hc.drop]

theorem charset_unique {v pre pre' q q' : Str} (h : CharsetAt v pre q)
    (h' : CharsetAt v pre' q') : q = q' := by
  have hf := findCharset_of_charsetAt (i := 0) h (Nat.lt_succ_self _)
  rw [findCharset_of_charsetAt (i := 0) h' (Nat.lt_succ_self _)] at hf
  exact (Prod.mk.inj (Option.some.inj hf)).2.symm

/-- The charset of the first value is gone, was not there, or was there before. -/
def TypeHidden (a b : Str) (s : Response) : Prop :=
  HasCharset b ∨ ∀ pre q, CharsetAt a pre q → SameCharset (charsetOf a q) s.charset

theorem contentType_last (hwf : s.shape.WellFormed ()) (hwA : hvA.wildcard = false)
    (hwB : hvB.wildcard = false) (hname : sameName hvA.key hvB.key = true)
    (hopA : hvA.opcode = .set) (hopB : hvB.opcode = .set) :
    ∃ s₁ s₂ s', setContentTypeHeader hvA a s = .ok (.ok, s₁) ∧
      setContentTypeHeader hvB b s₁ = .ok (.ok, s₂) ∧
      setContentTypeHeader hvB b s = .ok (.ok, s') ∧
      (SameResponse s₂ s' ↔ TypeHidden a b s) := by
  obtain ⟨fa, hrunA, hcaseA⟩ := setContentTypeHeader_set a
  obtain ⟨fb, hrunB, hcaseB⟩ := setContentTypeHeader_set b
  have hwf₁ : (storeContentType hvA a fa (hideNamed hvA s)).shape.WellFormed () := by
    simpa [storeContentType, hideNamed] using hwf
  refine ⟨_, _, _, hrunA hvA s hopA hwf, hrunB hvB _ hopB hwf₁, hrunB hvB s hopB hwf, ?_⟩
  rw [hideNamed_storeContentType, hideNamed_hideNamed hwA hwB hname]
  have hcharset : (hideNamed hvB s).charset = s.charset := by
    obtain ⟨c, hc⟩ := s.exists_repairLocation
    rw [hideNamed, hc]
    rfl
  generalize hideNamed hvB s = t at hcharset
  have hiff : SameResponse (storeContentType hvB b fb (storeContentType hvA a fa t))
      (storeContentType hvB b fb t) ↔
      SameCharset (storeContentType hvB b fb (storeContentType hvA a fa t)).charset
        (storeContentType hvB b fb t).charset := by
    constructor
    · intro hs
      exact hs.charset
    · intro hs
      exact ⟨rfl, rfl, rfl, rfl, rfl, hs, rfl⟩
  rw [hiff]
  rcases hcaseB with ⟨hnoB, rfl⟩ | ⟨pre, q, last, data, len, hatB, rfl, -⟩
  · have hstays : TypeHidden a b s ↔
        ∀ pre q, CharsetAt a pre q → SameCharset (charsetOf a q) s.charset := by
      apply or_iff_right
      rintro ⟨pre, q, hat⟩
      exact hnoB pre q hat
    rw [hstays]
    rcases hcaseA with ⟨hnoA, rfl⟩ | ⟨pre, q, last, data, len, hatA, rfl, hof⟩
    · exact iff_of_true (.refl _) fun pre q hat => absurd hat (hnoA pre q)
    · simp only [storeContentType, Option.elim_none, Option.elim_some, hof, hcharset]
      constructor
      · intro hsame pre' q' hat
        rw [← charset_unique hatA hat]
        exact hsame
      · intro hall
        exact hall pre q hatA
  · exact iff_of_true (.refl _) (Or.inl ⟨pre, q, hatB⟩)

def SameType (s s' : Response) : Prop :=
  s.contentType = s'.contentType ∧ s.contentTypeLen = s'.contentTypeLen ∧
    SameCharset s.charset s'.charset

theorem contentType_function (hop : hv.opcode = .set) :
    (∀ t t' u u' : Response, t.shape.WellFormed () → t'.shape.WellFormed () →
      setContentTypeHeader hv b t = .ok (.ok, u) → setContentTypeHeader hv b t' = .ok (.ok, u') →
        SameType u u') ↔ HasCharset b := by
  obtain ⟨found, hrun, hcase⟩ := setContentTypeHeader_set b
  constructor
  · intro hall
    rcases hcase with ⟨-, rfl⟩ | ⟨pre, q, -, -, -, hat, -⟩
    · -- Two responses that differ in their charset.
      have hwf : ∀ c : Charset,
          ({ ofElts [] 4 fun _ => none with charset := c } : Response).shape.WellFormed () :=
        fun _ => single_wellFormed (by decide) (by decide)
      have hsame : (0 : Word) = 1 := (hall _ _ _ _ (hwf ⟨0, []⟩) (hwf ⟨1, [0]⟩)
        (hrun hv _ hop (hwf _)) (hrun hv _ hop (hwf _))).2.2.1
      exact absurd hsame (by decide)
    · exact ⟨pre, q, hat⟩
  · rintro ⟨pre, q, hat⟩ t t' u u' hwf hwf' he he'
    rcases hcase with ⟨hno, -⟩ | ⟨-, -, last, data, len, -, rfl, -⟩
    · exact absurd hat (hno pre q)
    · cases (hrun hv t hop hwf).symm.trans he
      cases (hrun hv t' hop hwf').symm.trans he'
      exact ⟨rfl, rfl, .refl _⟩

end ContentType

section ContentLength

def withLength (n : ℤ) (s : Response) : Response := { s with contentLengthN := n }

@[simp] theorem shape_withLength (n : ℤ) (s : Response) : (s.withLength n).shape = s.shape := rfl

@[simp] theorem cell_withLength (n : ℤ) (s : Response) : (s.withLength n).cell = s.cell := rfl

@[simp] theorem ptr_withLength (n : ℤ) (s : Response) : (s.withLength n).ptr = s.ptr := rfl

@[simp] theorem hits_withLength (n : ℤ) (s : Response) : (s.withLength n).hits hv = s.hits hv := rfl

theorem repairLocation_withLength (n : ℤ) (s : Response) :
    (s.withLength n).repairLocation = s.repairLocation.withLength n := by
  unfold repairLocation
  rw [ptr_withLength]
  cases s.ptr .location with
  | none => rfl
  | some l =>
    dsimp only
    rw [cell_withLength]
    split_ifs <;> rfl

theorem setHeaderHelper_miss {out : Option OutField} (hop : hv.opcode = .set) (hv₀ : value ≠ [])
    (hwf : s.shape.WellFormed ())
    (hno : (s.repairLocation.shape.slots ()).any (s.repairLocation.hits hv) = false) :
    setHeaderHelper hv value out false s = append hv value out s.repairLocation := by
  rw [setHeaderHelper_no_hit value out false (by simp [hop]) hwf hno]
  simp [hop, hv₀]

theorem setHeaderHelper_sweep {out : Option OutField} (hop : hv.opcode = .set) (hv₀ : value ≠ [])
    (hwf : s.shape.WellFormed ())
    (hany : (s.repairLocation.shape.slots ()).any (s.repairLocation.hits hv) = true) :
    setHeaderHelper hv value out false s = .ok (.ok, s.repairLocation.sweep hv value
      ((s.repairLocation.shape.slots ()).find? (s.repairLocation.hits hv))
      ((s.repairLocation.shape.slots ()).filter (s.repairLocation.hits hv)) out) := by
  rw [setHeaderHelper_hit value out false (by simp [hop]) (by simp [hop]) hwf hany, if_neg hv₀]

theorem append_inv {out : Option OutField} (he : append hv value out s = .ok (.ok, s')) :
    ∃ x sh pool, s.shape.push () = .ok (some x, sh) ∧ sh.pool.allocBytes = (true, pool) ∧
      s' = ((s.setShape (sh.setPool pool)).setCell x (newElt hv value)).store out x := by
  unfold append at he
  split at he
  · cases he
  · cases he
  · rename_i x sh hpush
    dsimp only at he
    split at he
    · cases he
    · rename_i pool halloc
      cases he
      exact ⟨x, sh, pool, hpush, halloc, rfl⟩

theorem visible_eq_iff (hslots : s.shape.slots () = s'.shape.slots ())
    (hshown : ∀ h ∈ s'.shape.slots (), s.shown h = s'.shown h) : s.visible = s'.visible ↔
      ∀ h ∈ s'.shape.slots (), s'.shown h = true →
        (s.cell h).key = (s'.cell h).key ∧ (s.cell h).value = (s'.cell h).value := by
  rw [visible, visible, hslots, List.filter_congr hshown, List.map_inj_left]
  simp only [List.mem_filter, Prod.mk.injEq, and_imp]

/-- One entry of the name is visible at most, and spelled as by the rule. -/
def OneSpelled (hv : OutVal) (s : Response) : Prop :=
  (s.named hv.key).length ≤ 1 ∧ ∀ h ∈ s.named hv.key, (s.cell h).key = hv.key

def overwrite (hv : OutVal) (value : Str) (x : ℕ) (s : Response) : Response :=
  s.setCell x { s.cell x with hash := hv.hash, key := hv.key, value }

variable {r : Response} {n m : ℤ} {x : ℕ} {hs : List ℕ} {keep : Option ℕ}

theorem shown_marked (r : Response) (value : Str) (out : Option OutField) (hhash : hv.hash ≠ 0)
    (h : ℕ) : (r.sweep hv value keep hs out).shown h =
      if h ∈ hs then decide (keep = some h) else r.shown h := by
  by_cases hh : h ∈ hs
  · by_cases hk : keep = some h
    · simpa [Response.shown, sweep, mark, hh, hk, TableElt.assign] using hhash
    · simp [Response.shown, sweep, mark, hh, hk, TableElt.hide]
  · simp [Response.shown, sweep, hh]

theorem shown_overwrite (hhash : hv.hash ≠ 0) (h : ℕ) :
    (overwrite hv value x s).shown h = (decide (h = x) || s.shown h) := by
  by_cases hh : h = x
  · subst hh
    simpa [overwrite, Response.shown] using hhash
  · simp [overwrite, Response.shown, hh]

theorem sameResponse_iff_visible (hptr : s.ptr = s'.ptr) (htype : s.contentType = s'.contentType)
    (hlen : s.contentTypeLen = s'.contentTypeLen)
    (hhash : s.contentTypeHash = s'.contentTypeHash) (hcharset : s.charset = s'.charset)
    (hlength : s.contentLengthN = s'.contentLengthN) :
    SameResponse s s' ↔ s.visible = s'.visible := by
  constructor
  · intro hsame
    exact hsame.visible
  · intro hvis
    exact ⟨hvis, hptr, htype, hlen, hhash, hcharset ▸ .refl _, hlength⟩

theorem length_last_created {sh : Shape Unit} (hb : b ≠ []) : SameResponse
    (overwrite hvB b x (((((r.withLength n).setShape sh).setCell x (newElt hvA a)).store
      (some .contentLength) x).withLength m))
    ((((r.withLength m).setShape sh).setCell x (newElt hvB b)).store (some .contentLength) x) := by
  refine ⟨(visible_eq_iff ?_ ?_).mpr ?_, rfl, rfl, rfl, rfl, .refl _, rfl⟩
  · rfl
  · intro h _
    by_cases hh : h = x
    · subst hh
      simp [overwrite, Response.shown, newElt, hb]
    · simp [overwrite, Response.shown, hh]
  · intro h _ _
    by_cases hh : h = x
    · subst hh
      simp [overwrite, newElt]
    · simp [overwrite, hh]

/-- The second value goes to the last entry that the first one found, which may be hidden. -/
theorem length_last_swept (hhashA : hvA.hash ≠ 0) (hhashB : hvB.hash ≠ 0) (hn : hs.Nodup)
    (hsub : hs ⊆ r.shape.slots ()) (hlast : hs.getLast? = some x) : SameResponse
      (overwrite hvB b x
        (((r.withLength n).sweep hvA a hs.head? hs (some .contentLength)).withLength m))
      ((r.withLength m).sweep hvB b hs.head? hs (some .contentLength)) ↔
    hs.length ≤ 1 ∧ ∀ h ∈ hs, (r.cell h).key = hvB.key := by
  have hx : x ∈ hs := List.mem_of_getLast? hlast
  have hne : hs ≠ [] := List.ne_nil_of_mem hx
  set s₂ := overwrite hvB b x
    (((r.withLength n).sweep hvA a hs.head? hs (some .contentLength)).withLength m) with hdef₂
  set s' := (r.withLength m).sweep hvB b hs.head? hs (some .contentLength) with hdef'
  have hshown₂ : ∀ h, s₂.shown h =
      (decide (h = x) || if h ∈ hs then decide (hs.head? = some h) else r.shown h) := fun h => by
    rw [hdef₂, shown_overwrite hhashB]
    exact congrArg _ (shown_marked (r.withLength n) a (some .contentLength) hhashA h)
  have hshown' : ∀ h, s'.shown h =
      if h ∈ hs then decide (hs.head? = some h) else r.shown h :=
    shown_marked (r.withLength m) b (some .contentLength) hhashB
  have hslots : s₂.shape.slots () = s'.shape.slots () := rfl
  have hvisible : SameResponse s₂ s' ↔ s₂.visible = s'.visible :=
    sameResponse_iff_visible rfl rfl rfl rfl rfl rfl
  rw [hvisible]
  by_cases hone : hs.length ≤ 1
  · have hsx : hs = [x] := (eq_singleton_iff hx).mpr hone
    rw [visible_eq_iff hslots, and_iff_right hone, hsx]
    · constructor
      · intro hall h hh
        obtain rfl := List.mem_singleton.mp hh
        have hkey := (hall h (hsub hx) (by rw [hshown', if_pos hx, hsx]; simp)).1
        simpa [hdef₂, hdef', overwrite, sweep, hsx, mark, TableElt.assign] using hkey.symm
      · intro hkey h _ _
        have hkeyx := hkey x (List.mem_singleton_self x)
        by_cases hh : h = x
        · subst hh
          simp [hdef₂, hdef', overwrite, sweep, hsx, mark, TableElt.assign, hkeyx]
        · simp [hdef₂, hdef', overwrite, sweep, hsx, hh]
    · intro h _
      rw [hshown₂, hshown']
      by_cases hh : h = x
      · simp [hh, hsx]
      · simp [hh]
  · refine iff_of_false (fun hvis => hone ?_) fun hc => hone hc.1
    -- The entry that is written is visible, and with the first value it is not.
    have hlen := congrArg List.length hvis
    rw [visible, visible, List.length_map, List.length_map, hslots] at hlen
    have hmono : ((s'.shape.slots ()).filter s'.shown).Sublist
        ((s'.shape.slots ()).filter s₂.shown) := by
      apply List.monotone_filter_right
      intro h hh
      rw [hshown₂, ← hshown', hh, Bool.or_true]
    have heq := hmono.eq_of_length hlen.symm
    have hmem : x ∈ (s'.shape.slots ()).filter s₂.shown :=
      List.mem_filter.mpr ⟨hsub hx, by rw [hshown₂]; simp⟩
    rw [← heq] at hmem
    have hfirst := (List.mem_filter.mp hmem).2
    rw [hshown', if_pos hx, decide_eq_true_eq] at hfirst
    exact (head?_eq_getLast?_iff hn hne).mp (hfirst.trans hlast.symm)

section Handler

variable {f : OutField} (hoff : hv.offset = some f) (hop : hv.opcode = .set)
include hoff hop

theorem setBuiltinHeader_some (hv₀ : value ≠ []) (hptr : s.ptr f = some x) :
    setBuiltinHeader hv value s = .ok (.ok, overwrite hv value x s) := by
  simp [setBuiltinHeader, hoff, hptr, hop, hv₀, overwrite]

theorem setBuiltinHeader_none (hptr : s.ptr f = none) :
    setBuiltinHeader hv value s = setHeaderHelper hv value (some f) false s := by
  simp [setBuiltinHeader, hoff, hptr, hop]

end Handler

/-- Every value writes the typed entry, or the one visible entry is spelled as by the rule. -/
def LengthHidden (hv : OutVal) (s : Response) : Prop :=
  s.ptr .contentLength = none → OneSpelled hv s.repairLocation

section TwoLengths

variable (hwf : s.shape.WellFormed ()) (hwA : hvA.wildcard = false) (hwB : hvB.wildcard = false)
  (hname : sameName hvA.key hvB.key = true) (hopA : hvA.opcode = .set) (hopB : hvB.opcode = .set)
  (ha : a ≠ []) (hb : b ≠ [])

theorem length_last_typed : SameResponse
    (overwrite hvB b x ((overwrite hvA a x (s.withLength n)).withLength m))
    (overwrite hvB b x (s.withLength m)) := by
  have hcell : (overwrite hvB b x ((overwrite hvA a x (s.withLength n)).withLength m)).cell =
      (overwrite hvB b x (s.withLength m)).cell := by simp [overwrite]
  refine ⟨?_, rfl, rfl, rfl, rfl, .refl _, rfl⟩
  unfold visible Response.shown
  rw [hcell]
  rfl

section Helper

variable (he₁ : setHeaderHelper hvA a (some .contentLength) false (s.withLength n) = .ok (.ok, s₁))
  (he' : setHeaderHelper hvB b (some .contentLength) false (s.withLength m) = .ok (.ok, s'))
include hwf hwA hwB hname hopA hopB ha hb he₁ he'

theorem helper_last_created (hnil : s.repairLocation.named hvB.key = []) :
    ∃ x, s₁.ptr .contentLength = some x ∧
      SameResponse (overwrite hvB b x (s₁.withLength m)) s' := by
  have hwfn : ∀ k, (s.withLength k).shape.WellFormed () := fun _ => hwf
  have hitsA := hits_congr hwA hwB hname s.repairLocation
  have hnone : (s.repairLocation.shape.slots ()).any (s.repairLocation.hits hvB) = false :=
    Bool.eq_false_iff.mpr fun hany => (any_hits hwB).mp hany hnil
  have hmissA : ((s.withLength n).repairLocation.shape.slots ()).any
      ((s.withLength n).repairLocation.hits hvA) = false := by
    rw [repairLocation_withLength, hits_withLength, hitsA]
    exact hnone
  have hmissB : ((s.withLength m).repairLocation.shape.slots ()).any
      ((s.withLength m).repairLocation.hits hvB) = false := by
    rw [repairLocation_withLength]
    exact hnone
  rw [setHeaderHelper_miss hopA ha (hwfn n) hmissA, repairLocation_withLength] at he₁
  rw [setHeaderHelper_miss hopB hb (hwfn m) hmissB, repairLocation_withLength] at he'
  obtain ⟨x, sh, pool, hpush, halloc, rfl⟩ := append_inv he₁
  obtain ⟨x', sh', pool', hpush', halloc', rfl⟩ := append_inv he'
  cases hpush.symm.trans hpush'
  cases halloc.symm.trans halloc'
  exact ⟨x, by simp [store, setPtr], length_last_created hb⟩

theorem helper_last_swept (hhashA : hvA.hash ≠ 0) (hhashB : hvB.hash ≠ 0)
    (hne : s.repairLocation.named hvB.key ≠ []) :
    ∃ x, s₁.ptr .contentLength = some x ∧
      (SameResponse (overwrite hvB b x (s₁.withLength m)) s' ↔
        OneSpelled hvB s.repairLocation) := by
  have hwf₀ : s.repairLocation.shape.WellFormed () := by simpa using hwf
  have hwfn : ∀ k, (s.withLength k).shape.WellFormed () := fun _ => hwf
  have hitsA := hits_congr hwA hwB hname s.repairLocation
  have hany : (s.repairLocation.shape.slots ()).any (s.repairLocation.hits hvB) = true :=
    (any_hits hwB).mpr hne
  have hanyA : ((s.withLength n).repairLocation.shape.slots ()).any
      ((s.withLength n).repairLocation.hits hvA) = true := by
    rw [repairLocation_withLength, hits_withLength, hitsA]
    exact hany
  have hanyB : ((s.withLength m).repairLocation.shape.slots ()).any
      ((s.withLength m).repairLocation.hits hvB) = true := by
    rw [repairLocation_withLength]
    exact hany
  rw [setHeaderHelper_sweep hopA ha (hwfn n) hanyA, repairLocation_withLength, hits_withLength,
    shape_withLength, hitsA, ← List.head?_filter, filter_hits hwB] at he₁
  rw [setHeaderHelper_sweep hopB hb (hwfn m) hanyB, repairLocation_withLength, hits_withLength,
    shape_withLength, ← List.head?_filter, filter_hits hwB] at he'
  obtain ⟨x, hlast⟩ := Option.ne_none_iff_exists'.mp fun h0 => hne (List.getLast?_eq_none_iff.mp h0)
  cases he₁
  cases he'
  exact ⟨x, by simp [sweep, hlast], length_last_swept hhashA hhashB (nodup_named hwf₀)
    (fun h hh => (mem_named.mp hh).1) hlast⟩

end Helper

include hwf hwA hwB hname hopA hopB ha hb

theorem builtin_last (hhashA : hvA.hash ≠ 0) (hhashB : hvB.hash ≠ 0)
    (hoffA : hvA.offset = some .contentLength) (hoffB : hvB.offset = some .contentLength)
    (he₁ : setBuiltinHeader hvA a (s.withLength n) = .ok (.ok, s₁))
    (he₂ : setBuiltinHeader hvB b (s₁.withLength m) = .ok (.ok, s₂))
    (he' : setBuiltinHeader hvB b (s.withLength m) = .ok (.ok, s')) :
    SameResponse s₂ s' ↔ LengthHidden hvB s := by
  cases hptr : s.ptr .contentLength with
  | some x =>
    cases (setBuiltinHeader_some (s := s.withLength n) hoffA hopA ha hptr).symm.trans he₁
    cases (setBuiltinHeader_some (s := (overwrite hvA a x (s.withLength n)).withLength m) hoffB
      hopB hb hptr).symm.trans he₂
    cases (setBuiltinHeader_some (s := s.withLength m) hoffB hopB hb hptr).symm.trans he'
    exact iff_of_true length_last_typed fun hnone => by cases hptr.symm.trans hnone
  | none =>
    have hlength : LengthHidden hvB s ↔ OneSpelled hvB s.repairLocation := by
      simp [LengthHidden, hptr]
    rw [hlength]
    rw [setBuiltinHeader_none (s := s.withLength n) hoffA hopA hptr] at he₁
    rw [setBuiltinHeader_none (s := s.withLength m) hoffB hopB hptr] at he'
    by_cases hnil : s.repairLocation.named hvB.key = []
    · obtain ⟨x, hx, hsame⟩ :=
        helper_last_created hwf hwA hwB hname hopA hopB ha hb he₁ he' hnil
      cases (setBuiltinHeader_some (s := s₁.withLength m) hoffB hopB hb hx).symm.trans he₂
      exact iff_of_true hsame (by simp [OneSpelled, hnil])
    · obtain ⟨x, hx, hiff⟩ :=
        helper_last_swept hwf hwA hwB hname hopA hopB ha hb he₁ he' hhashA hhashB hnil
      cases (setBuiltinHeader_some (s := s₁.withLength m) hoffB hopB hb hx).symm.trans he₂
      exact hiff

end TwoLengths

theorem builtin_returns (s : Response) (hwf : s.shape.WellFormed ()) (hw : hv.wildcard = false)
    (hhash : hv.hash ≠ 0) (hoff : hv.offset = some .contentLength) (hop : hv.opcode = .set)
    (hv₀ : value ≠ []) :
    ∃ rc s', setBuiltinHeader hv value s = .ok (rc, s') ∧ (s.shape.pool.Reliable → rc = .ok) ∧
      (rc = .ok → ∃ x, s'.ptr .contentLength = some x) := by
  cases hptr : s.ptr .contentLength with
  | some x =>
    exact ⟨.ok, _, setBuiltinHeader_some hoff hop hv₀ hptr, fun _ => rfl, fun _ => ⟨x, hptr⟩⟩
  | none =>
    obtain ⟨rc, s', he, hrel, hok⟩ := setHeaderHelper_run hv value (some .contentLength) false hwf
    refine ⟨rc, s', (setBuiltinHeader_none hoff hop hptr).trans he, hrel, fun hrc => ?_⟩
    obtain ⟨x, hx, -⟩ := (hok hrc).handsBack (by simpa using hwf) hw hhash hop hv₀
    exact ⟨x, hx⟩

end ContentLength

theorem own_names : ∀ e ∈ setHandlersOut.entries, ∀ e' ∈ setHandlersOut.entries,
    e.handler ∈ [OutHandler.setContentTypeHeader, .setContentLengthHeader] →
    e.handler = e'.handler → e.name = e'.name := by decide

/-- The first value leaves nothing that the second one does not hide. -/
def Hidden (hv : OutVal) (a b : Str) (s : Response) : Prop :=
  match hv.handler with
  | .setContentTypeHeader => TypeHidden a b s
  | _ => LengthHidden hv s

theorem setContentLengthHeader_eq (s : Response) (hv₀ : value ≠ []) :
    setContentLengthHeader hv value s = match atosz value with
      | none => .ok (.error, s)
      | some len => setBuiltinHeader hv value (s.withLength len) := by
  unfold setContentLengthHeader
  rw [if_neg hv₀]
  rfl

theorem contentLength_last (hwf : s.shape.WellFormed ()) (hwA : hvA.wildcard = false)
    (hwB : hvB.wildcard = false) (hname : sameName hvA.key hvB.key = true)
    (hopA : hvA.opcode = .set) (hopB : hvB.opcode = .set) (ha : a ≠ []) (hb : b ≠ [])
    (hhashA : hvA.hash ≠ 0) (hhashB : hvB.hash ≠ 0) (hoffA : hvA.offset = some .contentLength)
    (hoffB : hvB.offset = some .contentLength) :
    (s.shape.pool.Reliable → atosz a ≠ none → atosz b ≠ none →
      ∃ s₁ s₂ s', setContentLengthHeader hvA a s = .ok (.ok, s₁) ∧
        setContentLengthHeader hvB b s₁ = .ok (.ok, s₂) ∧
        setContentLengthHeader hvB b s = .ok (.ok, s')) ∧
    ∀ s₁ s₂ s', setContentLengthHeader hvA a s = .ok (.ok, s₁) →
      setContentLengthHeader hvB b s₁ = .ok (.ok, s₂) →
      setContentLengthHeader hvB b s = .ok (.ok, s') →
      (SameResponse s₂ s' ↔ LengthHidden hvB s) := by
  simp only [setContentLengthHeader_eq _ ha, setContentLengthHeader_eq _ hb]
  cases hlenA : atosz a with
  | none =>
    refine ⟨fun _ hacc => absurd rfl hacc, fun _ _ _ hrun => ?_⟩
    cases hrun
  | some n =>
    cases hlenB : atosz b with
    | none =>
      refine ⟨fun _ _ hacc => absurd rfl hacc, fun _ _ _ _ hrun => ?_⟩
      cases hrun
    | some m =>
      refine ⟨fun hr _ _ => ?_, fun s₁ s₂ s' he₁ he₂ he' => ?_⟩
      · obtain ⟨rc, s₁, hrun₁, hrel₁, hptr⟩ :=
          builtin_returns (s.withLength n) hwf hwA hhashA hoffA hopA ha
        obtain rfl := hrel₁ hr
        obtain ⟨x, hx⟩ := hptr rfl
        obtain ⟨rc, s', hrun', hrel', -⟩ :=
          builtin_returns (s.withLength m) hwf hwB hhashB hoffB hopB hb
        obtain rfl := hrel' hr
        exact ⟨s₁, _, s', hrun₁,
          setBuiltinHeader_some (s := s₁.withLength m) hoffB hopB hb hx, hrun'⟩
      · exact builtin_last hwf hwA hwB hname hopA hopB ha hb hhashA hhashB hoffA hoffB he₁ he₂ he'

/--
For both rules `set` of `Content-Type`, or of `Content-Length`: where all three runs return
`NGX_OK`, the second value after the first one leaves the same response as the second value alone,
exactly if it hides what the first one left. The content type, its length and its charset are
determined by the second value exactly if that has a charset parameter.
-/
theorem response_last_set (s : Response) (hvA hvB : OutVal) (a b : Str)
    (hwf : s.shape.WellFormed ()) (hpA : hvA.Parsed setHandlersOut)
    (hpB : hvB.Parsed setHandlersOut) (hsame : hvA.handler = hvB.handler)
    (hown : hvB.handler ∈ [OutHandler.setContentTypeHeader, .setContentLengthHeader])
    (hopA : hvA.opcode = .set) (hopB : hvB.opcode = .set) (ha : a ≠ []) (hb : b ≠ []) :
    (s.shape.pool.Reliable → Accepts hvA a → Accepts hvB b →
      ∃ s₁ s₂ s', handleOut hvA a s = .ok (.ok, s₁) ∧ handleOut hvB b s₁ = .ok (.ok, s₂) ∧
        handleOut hvB b s = .ok (.ok, s')) ∧
    (∀ s₁ s₂ s', handleOut hvA a s = .ok (.ok, s₁) → handleOut hvB b s₁ = .ok (.ok, s₂) →
      handleOut hvB b s = .ok (.ok, s') → (SameResponse s₂ s' ↔ Hidden hvB a b s)) ∧
    (hvB.handler = .setContentTypeHeader → ((∀ t t' u u', t.shape.WellFormed () →
      t'.shape.WellFormed () → handleOut hvB b t = .ok (.ok, u) →
        handleOut hvB b t' = .ok (.ok, u') → SameType u u') ↔ HasCharset b)) := by
  have hbuiltin : hvB.handler ≠ .setHeader := fun h => by simp [h] at hown
  obtain ⟨e, he, hnameA, hhA, hoffA, hwA, hhashA, -⟩ := hpA.of_entry (by rwa [hsame])
  obtain ⟨e', he', hnameB, hhB, hoffB, hwB, hhashB, -⟩ := hpB.of_entry hbuiltin
  have hname : sameName hvA.key hvB.key = true := by
    have heq := own_names e' he' e he (hhB ▸ hown) (by rw [← hhA, ← hhB, hsame])
    rw [sameName_congr hnameA, ← heq, sameName_comm, hnameB]
  unfold handleOut Hidden Accepts
  rw [hsame]
  cases hh : hvB.handler with
  | setContentTypeHeader =>
    obtain ⟨s₁, s₂, s', he₁, he₂, he', hiff⟩ :=
      contentType_last (a := a) (b := b) hwf hwA hwB hname hopA hopB
    refine ⟨fun _ _ _ => ⟨s₁, s₂, s', he₁, he₂, he'⟩, ?_, fun _ => contentType_function hopB⟩
    intro t₁ t₂ t' ht₁ ht₂ ht'
    cases he₁.symm.trans ht₁
    cases he₂.symm.trans ht₂
    cases he'.symm.trans ht'
    exact hiff
  | setContentLengthHeader =>
    have hoffA' : hvA.offset = some .contentLength :=
      hoffA.trans ((own_entry e he).2 (by rw [← hhA, hsame, hh]))
    have hoffB' : hvB.offset = some .contentLength :=
      hoffB.trans ((own_entry e' he').2 (by rw [← hhB, hh]))
    obtain ⟨hruns, hiff⟩ := contentLength_last hwf hwA hwB hname hopA hopB ha hb hhashA hhashB
      hoffA' hoffB'
    exact ⟨fun hr haccA haccB => hruns hr (haccA rfl) (haccB rfl), hiff, nofun⟩
  | setHeader => simp [hh] at hown
  | setBuiltinHeader => simp [hh] at hown
  | setAcceptRangesHeader => simp [hh] at hown
  | setBuiltinMultiHeader => simp [hh] at hown

/-- `set -n Content-Type` with a charset, and `set Content-Type` with another one. -/
theorem response_last_set_charset : ∃ (hvA hvB : OutVal) (s₁ s₂ s' : Response),
    parseDirective (fun _ => true) setHandlersOut 0
      [str "set", str "-n", str "Content-Type", str "text/html; charset=koi8-r"] = .ok hvA ∧
    parseDirective (fun _ => true) setHandlersOut 1
      [str "set", str "Content-Type", str "text/plain; charset=utf-8"] = .ok hvB ∧
    handleOut hvA (str "text/html; charset=koi8-r") cachedPage = .ok (.ok, s₁) ∧
    handleOut hvB (str "text/plain; charset=utf-8") s₁ = .ok (.ok, s₂) ∧
    handleOut hvB (str "text/plain; charset=utf-8") cachedPage = .ok (.ok, s') ∧
    SameResponse s₂ s' := by
  have hpA := (parseDirective_eq_ok (rfl : parseDirective (fun _ => true) setHandlersOut 0
    [str "set", str "-n", str "Content-Type", str "text/html; charset=koi8-r"] = .ok _)).2
  have hpB := (parseDirective_eq_ok (rfl : parseDirective (fun _ => true) setHandlersOut 1
    [str "set", str "Content-Type", str "text/plain; charset=utf-8"] = .ok _)).2
  obtain ⟨hrun, hlast, -⟩ := response_last_set cachedPage _ _ (str "text/html; charset=koi8-r")
    (str "text/plain; charset=utf-8") cachedPage_wellFormed hpA hpB rfl (by decide) rfl rfl
    (by decide) (by decide)
  obtain ⟨s₁, s₂, s', he₁, he₂, he'⟩ := hrun (fun _ => rfl) nofun nofun
  refine ⟨_, _, s₁, s₂, s', rfl, rfl, he₁, he₂, he', (hlast s₁ s₂ s' he₁ he₂ he').mpr ?_⟩
  have hfound : findCharset 26 0 (str "text/plain; charset=utf-8") = some (10, str "utf-8") := by
    decide
  obtain ⟨pre, hat, -⟩ := charsetAt_of_findCharset hfound
  exact Or.inl ⟨pre, _, hat⟩

/--
`set Content-Type text/plain` after `set -n Content-Type` with a charset keeps that charset, and
alone it has none.
-/
theorem response_last_set_stale : cachedPage.shape.WellFormed () ∧
    ∃ (hvA hvB : OutVal) (s₁ s₂ s' : Response),
      parseDirective (fun _ => true) setHandlersOut 0
        [str "set", str "-n", str "Content-Type", str "text/html; charset=koi8-r"] = .ok hvA ∧
      parseDirective (fun _ => true) setHandlersOut 1
        [str "set", str "Content-Type", str "text/plain"] = .ok hvB ∧
      handleOut hvA (str "text/html; charset=koi8-r") cachedPage = .ok (.ok, s₁) ∧
      handleOut hvB (str "text/plain") s₁ = .ok (.ok, s₂) ∧
      handleOut hvB (str "text/plain") cachedPage = .ok (.ok, s') ∧
      s₂.contentType = str "text/plain" ∧ s₂.charset = ⟨6, str "koi8-r"⟩ ∧
      s'.charset.len = 0 ∧ ¬ SameResponse s₂ s' ∧ ¬ SameType s₂ s' := by
  refine ⟨cachedPage_wellFormed, _, _, _, _, _, rfl, rfl, rfl, rfl, rfl, by decide, by decide,
    by decide, fun hs => ?_, fun hs => ?_⟩
  · exact absurd hs.charset.1 (by decide)
  · exact absurd hs.2.2.1 (by decide)

end HeadersControl.Response
