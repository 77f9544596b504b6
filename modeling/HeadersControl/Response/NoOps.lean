import HeadersControl.Response.ContentType
import HeadersControl.Response.Presence

/-! # Response operators without an effect

`Cache-Control`, `Content-Type` and `Content-Length` have handlers with a logic of
their own. They write their chain or their fields before they look at the operator,
or never look at it, so that `add` on a visible header and `rewrite` on an absent one
change the response unless it already is what `set` would leave.
-/

namespace HeadersControl.Response

open Segments Segments.Shape

/-- What is seen of an entry: its name and value, whether it is visible, and the one behind it. -/
def look (s : Response) (h : ℕ) : Str × Str × Bool × Option ℕ :=
  ((s.cell h).key, (s.cell h).value, s.shown h, (s.cell h).next)

/--
The visible entries, the chain `hs` of `Cache-Control` entries and the fields that stand for
entries are the same.
-/
structure Untouched (hs : List ℕ) (s s' : Response) : Prop where
  visible : s'.visible = s.visible
  head : s'.ptr .cacheControl = s.ptr .cacheControl
  chain : ∀ h ∈ hs, s'.look h = s.look h
  contentType : s'.contentType = s.contentType
  contentTypeLen : s'.contentTypeLen = s.contentTypeLen
  charset : s'.charset = s.charset
  contentLengthN : s'.contentLengthN = s.contentLengthN

variable {s s' : Response} {hs : List ℕ} {hv : OutVal} {value : Str} {h : ℕ}

theorem look_eq_iff (hkey : (s'.cell h).key = (s.cell h).key)
    (hnext : (s'.cell h).next = (s.cell h).next) : s'.look h = s.look h ↔
      (s.cell h).value = (s'.cell h).value ∧ s.shown h = s'.shown h := by
  rw [look, look, hkey, hnext, eq_comm]
  simp

theorem visible_congr (hslots : s'.shape.slots () = s.shape.slots ())
    (hlook : ∀ h ∈ s.shape.slots (), s'.look h = s.look h) : s'.visible = s.visible := by
  have hshown : ∀ h ∈ s.shape.slots (), s'.shown h = s.shown h := fun h hh => by
    have := hlook h hh
    simp only [look, Prod.mk.injEq] at this
    exact this.2.2.1
  unfold visible
  rw [hslots, List.filter_congr hshown]
  apply List.map_congr_left
  intro h hh
  have := hlook h (List.mem_filter.mp hh).1
  simp only [look, Prod.mk.injEq] at this
  rw [this.1, this.2.1]

theorem Untouched.refl (hs : List ℕ) (s : Response) : Untouched hs s s :=
  ⟨rfl, rfl, fun _ _ => rfl, rfl, rfl, rfl, rfl⟩

theorem untouched_iff_look (hshape : s'.shape = s.shape) (hptr : s'.ptr = s.ptr)
    (hother : ∀ h, h ∉ hs → s'.look h = s.look h) (htype : s'.contentType = s.contentType)
    (hlen : s'.contentTypeLen = s.contentTypeLen) (hcharset : s'.charset = s.charset)
    (hlength : s'.contentLengthN = s.contentLengthN) :
    Untouched hs s s' ↔ ∀ h ∈ hs, s'.look h = s.look h := by
  constructor
  · intro hu
    exact hu.chain
  · intro hall
    have hlook : ∀ h, s'.look h = s.look h := fun h =>
      if hh : h ∈ hs then hall h hh else hother h hh
    exact ⟨visible_congr (by rw [hshape]) fun h _ => hlook h, by rw [hptr], hall, htype, hlen,
      hcharset, hlength⟩

section Chain

/-- The chain is what a rule with that value leaves: the head has it, the others are hidden. -/
def ChainReflects (s : Response) (hs : List ℕ) (value : Str) : Prop :=
  match hs with
  | [] => value = []
  | h :: hs => (s.cell h).value = value ∧ s.shown h = decide (value ≠ []) ∧
      ∀ x ∈ hs, (s.cell x).value = [] ∧ s.shown x = false

theorem multi_untouched (hwf : s.shape.WellFormed ())
    (hc : Chained s.cell (s.ptr .cacheControl) hs) (hsub : hs ⊆ s.shape.slots ())
    (hoff : hv.offset = some .cacheControl) (hhash : hv.hash ≠ 0) :
    ∃ rc s', setBuiltinMultiHeader hv value s = .ok (rc, s') ∧
      (rc = .ok → (Untouched hs s s' ↔ s.ChainReflects hs value)) := by
  cases hs with
  | nil =>
    have hnone : s.ptr .cacheControl = none := hc
    unfold setBuiltinMultiHeader
    rw [hoff]
    dsimp only
    rw [hnone]
    dsimp only
    split
    · rename_i hv₀
      exact ⟨.ok, s, rfl, fun _ => iff_of_true (.refl _ s) hv₀⟩
    · rename_i hv₀
      rcases push_spec hwf with ⟨q, hpush, -, -⟩ | ⟨a, sh, hpush, -, -, -, -⟩
      · rw [hpush]
        exact ⟨.error, _, rfl, fun hc => by cases hc⟩
      · rw [hpush]
        refine ⟨.ok, _, rfl, fun _ => iff_of_false (fun hu => ?_) hv₀⟩
        have hhead := hu.head
        simp [setPtr, hnone] at hhead
  | cons x hs =>
    have hx : x ∉ hs := (List.nodup_cons.mp hc.nodup).1
    refine ⟨.ok, _, setBuiltinMultiHeader_write hoff hc (length_chain_le hwf hc hsub), fun _ => ?_⟩
    refine Iff.trans (untouched_iff_look rfl rfl (fun h hh => ?_) rfl rfl rfl rfl) ?_
    · obtain ⟨hne, hh'⟩ := List.ne_and_not_mem_of_not_mem_cons hh
      simp [look, Response.shown, writeChain, hne, hh']
    · rw [List.forall_mem_cons]
      unfold ChainReflects
      apply Iff.trans (and_congr ?_ (forall₂_congr fun y hy => ?_)) and_assoc
      · rw [look_eq_iff (by simp [writeChain]) (by simp [writeChain])]
        by_cases hv₀ : value = []
        · simp [Response.shown, writeChain, hv₀]
        · have hshown : decide (hv.hash ≠ 0) = true := decide_eq_true hhash
          simp only [writeChain, Response.shown, if_true, hv₀, if_false, hshown,
            not_false_eq_true, decide_true, ne_eq]
      · have hne : y ≠ x := by
          rintro rfl
          exact hx hy
        rw [look_eq_iff (by simp [writeChain, hy, hne, TableElt.hide])
          (by simp [writeChain, hy, hne, TableElt.hide])]
        simp [Response.shown, writeChain, hy, hne, TableElt.hide]

end Chain

section Repair

theorem repairLocation_storeContentType (found : Option (ℕ × ℕ × Word)) :
    (storeContentType hv value found s).repairLocation =
      storeContentType hv value found s.repairLocation := by
  unfold repairLocation storeContentType
  dsimp only
  split
  · rfl
  · split <;> rfl

theorem look_repairLocation (hl : s.LocationNamed) (hh : h ∈ s.shape.slots ()) :
    s.repairLocation.look h = s.look h := by
  rw [look, look, shown_repairLocation hl.shown hh]
  rcases s.cell_repairLocation h with hc | ⟨hp, hpath, hc⟩
  · rw [hc]
  · rw [hc, (hl h hh hp hpath).2]

end Repair

section ContentType

/-- The content type, its length and its charset are those of the value. -/
def TypeReflects (s : Response) (value : Str) : Prop :=
  s.contentType = value ∧
    ((∀ pre q, ¬ CharsetAt value pre q) ∧ s.contentTypeLen = value.length ∨
      ∃ pre q, CharsetAt value pre q ∧ s.contentTypeLen = pre.length ∧
        s.charset = charsetOf value q)

theorem typeReflects_iff {found : Option (ℕ × ℕ × Word)}
    (hfound : ∀ last data len, found = some (last, data, len) ↔ ∃ pre q, CharsetAt value pre q ∧
      last = pre.length ∧ data = value.length - (charsetOf value q).data.length ∧
      len = (charsetOf value q).len) :
    (value = s.contentType ∧ found.elim value.length Prod.fst = s.contentTypeLen ∧
      (found.elim s.charset fun (_, data, len) => ⟨len, value.drop data⟩) = s.charset) ↔
      s.TypeReflects value := by
  have hsome : ∀ pre q, CharsetAt value pre q →
      found.elim value.length Prod.fst = pre.length ∧
        (found.elim s.charset fun (_, data, len) => ⟨len, value.drop data⟩) =
          charsetOf value q := by
    intro pre q hc
    rw [(hfound _ _ _).mpr ⟨pre, q, hc, rfl, rfl, rfl⟩]
    simp only [Option.elim_some, hc.drop, true_and]
  unfold TypeReflects
  rw [eq_comm (a := value)]
  apply and_congr_right
  intro _
  constructor
  · rintro ⟨hlen, hcharset⟩
    cases hf : found with
    | none =>
      rw [hf] at hlen
      refine Or.inl ⟨fun pre q hc => ?_, hlen.symm⟩
      cases hf.symm.trans ((hfound _ _ _).mpr ⟨pre, q, hc, rfl, rfl, rfl⟩)
    | some res =>
      obtain ⟨last, data, len⟩ := res
      obtain ⟨pre, q, hc, -⟩ := (hfound last data len).mp hf
      obtain ⟨hlen', hcharset'⟩ := hsome pre q hc
      exact Or.inr ⟨pre, q, hc, hlen.symm.trans hlen', hcharset.symm.trans hcharset'⟩
  · rintro (⟨hno, hlen⟩ | ⟨pre, q, hc, hlen, hcharset⟩)
    · cases hf : found with
      | none => exact ⟨hlen.symm, rfl⟩
      | some res =>
        obtain ⟨last, data, len⟩ := res
        obtain ⟨pre, q, hc, -⟩ := (hfound last data len).mp hf
        exact absurd hc (hno pre q)
    · obtain ⟨hlen', hcharset'⟩ := hsome pre q hc
      exact ⟨hlen'.trans hlen.symm, hcharset'.trans hcharset.symm⟩

/-- The list behind the handler: `rewrite` hides the visible entries of the name. -/
def typeList (hv : OutVal) (s : Response) : Response :=
  if hv.opcode = .rewrite then s.repairLocation.sweep hv [] none
    ((s.repairLocation.shape.slots ()).filter (s.repairLocation.hits hv)) none
  else s.repairLocation

theorem setContentTypeHeader_run (hv : OutVal) (value : Str) (hwf : s.shape.WellFormed ())
    (hop : hv.opcode = .add ∨ hv.opcode = .rewrite) :
    ∃ rc s', setContentTypeHeader hv value s = .ok (rc, s') ∧ (rc = .ok → ∃ found,
      s' = storeContentType hv value found (s.typeList hv) ∧
      ((value = s.contentType ∧ found.elim value.length Prod.fst = s.contentTypeLen ∧
        (found.elim s.charset fun (_, data, len) => ⟨len, value.drop data⟩) = s.charset) ↔
        s.TypeReflects value)) := by
  obtain ⟨found, -, hstore, hfound⟩ := charsetLoop_spec value
  rw [hstore]
  obtain ⟨rc, s', he, -, hok⟩ := setHeaderHelper_run hv [] none true
    (s := storeContentType hv value found s) hwf
  refine ⟨rc, s', he, fun hrc => ⟨found, ?_, typeReflects_iff hfound⟩⟩
  have ho := hok hrc
  rw [repairLocation_storeContentType] at ho
  unfold typeList
  rcases hop with hadd | hre
  · rw [if_neg (by simp [hadd])]
    cases ho with
    | unchanged => rfl
    | swept hno => exact absurd hadd hno
    | created hc => exact absurd (Or.inr ⟨by simp, rfl⟩) (hc.resolve_left (by simp [hadd])).2
  · rw [if_pos hre]
    have hswept := ho.of_stop (by simp) (by simp [hre]) (by simp [hre])
    rw [hswept]
    rfl

theorem visible_typeList_iff (hwf : s.shape.WellFormed ()) (hw : hv.wildcard = false)
    (hname : sameName (str "Location") hv.key = false) : (s.typeList hv).visible = s.visible ↔
      s.LocationNamed ∧ (hv.opcode = .rewrite → s.valuesOf hv.key = []) := by
  rw [← visible_repairLocation_iff hwf]
  unfold typeList
  by_cases hre : hv.opcode = .rewrite
  · rw [if_pos hre, visible_sweep_none]
    simp only [hre, true_imp_iff, matchesName_exact hw]
    have hnone : ∀ t : Response, t.named hv.key = [] →
        t.visible.filter (fun e => !sameName e.1 hv.key) = t.visible := by
      intro t ht
      rw [List.filter_eq_self]
      intro e he
      rw [Bool.not_eq_true', ← Bool.not_eq_true]
      intro hn
      have hmem : e.2 ∈ t.valuesOf hv.key := mem_valuesOf.mpr ⟨e.1, he, hn⟩
      rw [valuesOf_eq_nil.mpr ht] at hmem
      cases hmem
    constructor
    · intro hvis
      have hnil : s.valuesOf hv.key = [] := by
        rw [valuesOf, ← hvis, List.filter_filter]
        simp
      have hnil' : s.repairLocation.named hv.key = [] := by
        rw [List.eq_nil_iff_forall_not_mem]
        intro h hh
        have hh' := named_of_repairLocation hname hh
        rw [valuesOf_eq_nil.mp hnil] at hh'
        cases hh'
      rw [hnone _ hnil'] at hvis
      exact ⟨hvis, hnil⟩
    · rintro ⟨hvis, hnil⟩
      rw [hvis]
      exact hnone s (valuesOf_eq_nil.mp hnil)
  · simp [hre]

theorem look_typeList (hw : hv.wildcard = false) (hl : s.LocationNamed)
    (hnil : hv.opcode = .rewrite → s.valuesOf hv.key = []) (hh : h ∈ s.shape.slots ()) :
    (s.typeList hv).look h = s.look h := by
  unfold typeList
  split
  · rename_i hre
    have hno : (s.repairLocation.shape.slots ()).filter (s.repairLocation.hits hv) = [] := by
      rw [filter_hits hw, ← valuesOf_eq_nil, valuesOf, visible_repairLocation hl, ← valuesOf,
        hnil hre]
    rw [hno, sweep_nil, look_repairLocation hl hh]
  · exact look_repairLocation hl hh

theorem exists_typeList (hv : OutVal) (s : Response) :
    ∃ c, s.typeList hv = { s with cell := c } := by
  obtain ⟨c, hc⟩ := s.exists_repairLocation
  unfold typeList
  rw [hc]
  split
  · exact ⟨_, rfl⟩
  · exact ⟨_, rfl⟩

theorem contentType_untouched (hwf : s.shape.WellFormed ()) (hsub : hs ⊆ s.shape.slots ())
    (hw : hv.wildcard = false) (hname : sameName (str "Location") hv.key = false)
    (hop : hv.opcode = .add ∨ hv.opcode = .rewrite) :
    ∃ rc s', setContentTypeHeader hv value s = .ok (rc, s') ∧
      (rc = .ok → (Untouched hs s s' ↔ s.TypeReflects value ∧ s.LocationNamed ∧
        (hv.opcode = .rewrite → s.valuesOf hv.key = []))) := by
  obtain ⟨rc, s', he, hok⟩ := setContentTypeHeader_run hv value hwf hop
  refine ⟨rc, s', he, fun hrc => ?_⟩
  obtain ⟨found, rfl, hfields⟩ := hok hrc
  have hvis : (s.typeList hv).visible = s.visible ↔
      s.LocationNamed ∧ (hv.opcode = .rewrite → s.valuesOf hv.key = []) :=
    visible_typeList_iff hwf hw hname
  have hlook : ∀ h ∈ hs, s.LocationNamed → (hv.opcode = .rewrite → s.valuesOf hv.key = []) →
      (s.typeList hv).look h = s.look h := fun h hh hl hnil =>
    look_typeList hw hl hnil (hsub hh)
  obtain ⟨c, hc⟩ := exists_typeList hv s
  rw [hc] at hvis hlook ⊢
  rw [← hfields, ← hvis]
  constructor
  · intro hu
    exact ⟨⟨hu.contentType, hu.contentTypeLen, hu.charset⟩, hu.visible⟩
  · rintro ⟨⟨htype, hlen, hcharset⟩, hvisible⟩
    obtain ⟨hl, hnil⟩ := hvis.mp hvisible
    exact ⟨hvisible, rfl, fun h hh => hlook h hh hl hnil, htype, hlen, hcharset, rfl⟩

end ContentType

section ContentLength

/-- The list and the chain are as a rule for `Content-Length` leaves them. -/
def LengthReflects (s : Response) (hs : List ℕ) (hv : OutVal) (value : Str) : Prop :=
  (hv.opcode = .add → s.ptr .contentLength = none → s.LocationNamed) ∧
    (hv.opcode = .rewrite → ∀ h ∈ s.shape.slots (), s.ptr .contentLength = some h →
      value = [] ∧ s.shown h = false ∧ (h ∈ hs → (s.cell h).value = []))

theorem length_add_untouched (n : ℤ) (hwf : s.shape.WellFormed ()) (hsub : hs ⊆ s.shape.slots ())
    (hw : hv.wildcard = false) (hhash : hv.hash ≠ 0) (hadd : hv.opcode = .add)
    (hne : s.valuesOf hv.key ≠ []) :
    ∃ rc s', setHeaderHelper hv value (some .contentLength) false { s with contentLengthN := n } =
      .ok (rc, s') ∧ (rc = .ok → (Untouched hs s s' ↔ n = s.contentLengthN ∧ s.LocationNamed)) := by
  have hiff : ({ s with contentLengthN := n } : Response).repairLocation.visible = s.visible ↔
      s.LocationNamed := visible_repairLocation_iff (s := { s with contentLengthN := n }) hwf
  have hlook : ∀ h ∈ hs, s.LocationNamed →
      ({ s with contentLengthN := n } : Response).repairLocation.look h = s.look h := fun h hh hl =>
    look_repairLocation (s := { s with contentLengthN := n }) hl (hsub hh)
  obtain ⟨rc, s', he, -, hok⟩ := setHeaderHelper_run hv value (some .contentLength) false
    (s := { s with contentLengthN := n }) hwf
  refine ⟨rc, s', he, fun hrc => ?_⟩
  rw [← hiff]
  rcases (hok hrc).of_add hw hhash hadd with ⟨-, rfl⟩ | ⟨hnone, hvis⟩
  · obtain ⟨c, hc⟩ := ({ s with contentLengthN := n } : Response).exists_repairLocation
    rw [hc] at hiff hlook ⊢
    constructor
    · intro hu
      exact ⟨hu.contentLengthN, hu.visible⟩
    · rintro ⟨hn, hvis⟩
      exact ⟨hvis, rfl, fun h hh => hlook h hh (hiff.mp hvis), rfl, rfl, rfl, hn⟩
  · -- the scan missed the visible entry, as the repair has renamed it
    have hrenamed := renamed_visible_ne (s := { s with contentLengthN := n }) hnone hne
    refine iff_of_false (fun hu => hrenamed _ (hvis.symm.trans hu.visible)) fun hboth => ?_
    apply hrenamed []
    rw [List.append_nil]
    exact hboth.2

theorem hidden_of_visible_eq {e : TableElt} {a : ℕ} (he : e.hash = 0) (ha : a ∈ s.shape.slots ())
    (hvis : (s.setCell a e).visible = s.visible) : s.shown a = false := by
  have hsub : ((s.shape.slots ()).filter (s.setCell a e).shown).Sublist
      ((s.shape.slots ()).filter s.shown) := by
    apply List.monotone_filter_right
    intro h hh
    by_cases hha : h = a
    · subst hha
      simp [Response.shown, he] at hh
    · simpa [Response.shown, hha] using hh
  have hlen := congrArg List.length hvis
  rw [visible, visible, List.length_map, List.length_map, shape_setCell] at hlen
  have heq := hsub.eq_of_length hlen
  rw [← Bool.not_eq_true]
  intro hs
  have hmem := List.mem_filter.mpr ⟨ha, hs⟩
  rw [← heq] at hmem
  simpa [Response.shown, he] using (List.mem_filter.mp hmem).2

theorem visible_setCell_of_hidden {e : TableElt} {a : ℕ} (he : e.hash = 0)
    (hdead : a ∈ s.shape.slots () → s.shown a = false) : (s.setCell a e).visible = s.visible := by
  by_cases ha : a ∈ s.shape.slots ()
  · have hshown : ∀ h ∈ s.shape.slots (), (s.setCell a e).shown h = s.shown h := by
      intro h _
      by_cases hha : h = a
      · subst hha
        rw [hdead ha]
        simp [Response.shown, he]
      · simp [Response.shown, hha]
    rw [visible, shape_setCell, List.filter_congr hshown, visible]
    apply List.map_congr_left
    intro h hh
    have hha : h ≠ a := by
      rintro rfl
      have hs := (List.mem_filter.mp hh).2
      rw [hdead ha] at hs
      cases hs
    simp [hha]
  · exact visible_setCell_of_not_mem ha

theorem untouched_setCell_iff {e : TableElt} {a : ℕ} {n : ℤ} :
    Untouched hs s (({ s with contentLengthN := n } : Response).setCell a e) ↔
      n = s.contentLengthN ∧ (s.setCell a e).visible = s.visible ∧
        (a ∈ hs → (s.setCell a e).look a = s.look a) := by
  constructor
  · intro hu
    exact ⟨hu.contentLengthN, hu.visible, fun ha => hu.chain a ha⟩
  · rintro ⟨hn, hvis, hlook⟩
    refine ⟨hvis, rfl, fun h hh => ?_, rfl, rfl, rfl, hn⟩
    by_cases hha : h = a
    · subst hha
      exact hlook hh
    · simp [look, Response.shown, hha]

theorem length_hidden_untouched {a : ℕ} (n : ℤ) (hsub : hs ⊆ s.shape.slots ()) :
    Untouched hs s (({ s with contentLengthN := n } : Response).setCell a
      { s.cell a with hash := 0, value := [] }) ↔ n = s.contentLengthN ∧
        (a ∈ s.shape.slots () → s.shown a = false ∧ (a ∈ hs → (s.cell a).value = [])) := by
  rw [untouched_setCell_iff]
  apply and_congr_right
  intro _
  constructor
  · rintro ⟨hvis, hlook⟩ ha
    refine ⟨hidden_of_visible_eq rfl ha hvis, fun hmem => ?_⟩
    have heq := hlook hmem
    simp only [look, cell_setCell, Function.update_self, Prod.mk.injEq] at heq
    exact heq.2.1.symm
  · intro hdead
    refine ⟨visible_setCell_of_hidden rfl fun ha => (hdead ha).1, fun hmem => ?_⟩
    obtain ⟨hs, hval⟩ := hdead (hsub hmem)
    rw [look, look, hs]
    simp [Response.shown, hval hmem]

theorem length_written_untouched {a : ℕ} (n : ℤ) (hsub : hs ⊆ s.shape.slots ())
    (hhash : hv.hash ≠ 0) (hnil : s.valuesOf hv.key = []) :
    Untouched hs s (({ s with contentLengthN := n } : Response).setCell a
      { s.cell a with hash := hv.hash, key := hv.key, value }) ↔
        n = s.contentLengthN ∧ a ∉ s.shape.slots () := by
  rw [untouched_setCell_iff]
  apply and_congr_right
  intro _
  constructor
  · rintro ⟨hvis, -⟩ ha
    -- the entry has become visible under the name
    have hmem : value ∈ (s.setCell a { s.cell a with
        hash := hv.hash, key := hv.key, value }).valuesOf hv.key :=
      mem_valuesOf_setCell ha hhash (sameName_refl hv.key)
    rw [valuesOf, hvis, ← valuesOf, hnil] at hmem
    cases hmem
  · intro ha
    exact ⟨visible_setCell_of_not_mem ha, fun hmem => absurd (hsub hmem) ha⟩

theorem length_untouched (n : ℤ) (hwf : s.shape.WellFormed ()) (hsub : hs ⊆ s.shape.slots ())
    (hw : hv.wildcard = false) (hhash : hv.hash ≠ 0) (hoff : hv.offset = some .contentLength)
    (hno : hv.opcode = .add ∧ s.valuesOf hv.key ≠ [] ∨
      hv.opcode = .rewrite ∧ s.valuesOf hv.key = []) :
    ∃ rc s', setBuiltinHeader hv value { s with contentLengthN := n } = .ok (rc, s') ∧
      (rc = .ok → (Untouched hs s s' ↔ n = s.contentLengthN ∧ s.LengthReflects hs hv value)) := by
  have hself : Untouched hs s { s with contentLengthN := n } ↔ n = s.contentLengthN := by
    constructor
    · intro hu
      exact hu.contentLengthN
    · intro hn
      exact ⟨rfl, rfl, fun _ _ => rfl, rfl, rfl, rfl, hn⟩
  unfold setBuiltinHeader LengthReflects
  rw [hoff, Option.bind_some]
  dsimp only
  cases hptr : s.ptr .contentLength with
  | none =>
    dsimp only
    rcases hno with ⟨hadd, hne⟩ | ⟨hre, -⟩
    · rw [if_neg (by simp [hadd])]
      obtain ⟨rc, s', he, hiff⟩ := length_add_untouched n hwf hsub hw hhash hadd hne
      exact ⟨rc, s', he, fun hrc => by simp [hiff hrc, hadd]⟩
    · exact ⟨.ok, _, if_pos hre, fun _ => by simp [hself, hre]⟩
  | some a =>
    dsimp only
    rcases hno with ⟨hadd, -⟩ | ⟨hre, hnil⟩
    · exact ⟨.ok, _, if_pos hadd, fun _ => by simp [hself, hadd]⟩
    · have hown : ∀ p : ℕ → Prop, (∀ h ∈ s.shape.slots (), some a = some h → p h) ↔
          (a ∈ s.shape.slots () → p a) := by
        intro p
        constructor
        · intro hall ha
          exact hall a ha rfl
        · rintro hp h hh heq
          obtain rfl := Option.some.inj heq
          exact hp hh
      rw [if_neg (by simp [hre]), hown]
      by_cases hv₀ : value = []
      · subst hv₀
        refine ⟨.ok, _, if_pos rfl, fun _ => (length_hidden_untouched n hsub).trans ?_⟩
        simp [hre]
      · refine ⟨.ok, _, if_neg hv₀, fun _ =>
          (length_written_untouched n hsub hhash hnil).trans ?_⟩
        simp [hre, hv₀]

end ContentLength

theorem own_entry : ∀ e ∈ setHandlersOut.entries,
    (e.handler = .setContentTypeHeader → sameName (str "Location") e.name = false) ∧
      (e.handler = .setContentLengthHeader → e.offset = some .contentLength) := by decide

def Present (s : Response) (hs : List ℕ) (hv : OutVal) : Prop :=
  match hv.handler with
  | .setBuiltinMultiHeader => ∃ h ∈ hs, s.shown h = true
  | .setContentTypeHeader => s.contentType ≠ []
  | _ => s.valuesOf hv.key ≠ []

def Reflects (s : Response) (hs : List ℕ) (hv : OutVal) (value : Str) : Prop :=
  match hv.handler with
  | .setBuiltinMultiHeader => s.ChainReflects hs value
  | .setContentTypeHeader => s.TypeReflects value ∧ s.LocationNamed ∧
      (hv.opcode = .rewrite → s.valuesOf hv.key = [])
  | .setContentLengthHeader =>
      (value = [] ∧ s.contentLengthN = -1 ∨
        ∃ n, atosz value = some n ∧ s.contentLengthN = n) ∧ s.LengthReflects hs hv value
  | _ => True

/--
`add` on a visible and `rewrite` on an absent `Cache-Control`, `Content-Type` or `Content-Length`
that return `NGX_OK` leave the response untouched exactly where it already is what the handler
makes of it.
-/
theorem response_noop_untouched (s : Response) (hs : List ℕ) (hv : OutVal) (value : Str)
    (hwf : s.shape.WellFormed ()) (hc : Chained s.cell (s.ptr .cacheControl) hs)
    (hsub : hs ⊆ s.shape.slots ()) (hp : hv.Parsed setHandlersOut)
    (hown : hv.handler ∈ [OutHandler.setBuiltinMultiHeader, .setContentTypeHeader,
      .setContentLengthHeader])
    (hno : hv.opcode = .add ∧ s.Present hs hv ∨ hv.opcode = .rewrite ∧ ¬ s.Present hs hv) :
    ∃ rc s', handleOut hv value s = .ok (rc, s') ∧
      (rc = .ok → (Untouched hs s s' ↔ s.Reflects hs hv value)) := by
  have hbuiltin : hv.handler ≠ .setHeader := fun h => by simp [h] at hown
  obtain ⟨e, he, hname, hhandler, hoff, hw, hhash, -⟩ := hp.of_entry hbuiltin
  obtain ⟨htype, hlength⟩ := own_entry e he
  unfold handleOut Reflects
  unfold Present at hno
  rw [hhandler] at hown hno ⊢
  cases hh : e.handler with
  | setBuiltinMultiHeader =>
    exact multi_untouched hwf hc hsub (hoff.trans (multi_entry e he hh).1) hhash
  | setContentTypeHeader =>
    have hloc : sameName (str "Location") hv.key = false := by
      rw [sameName_comm, sameName_congr hname, sameName_comm]
      exact htype hh
    exact contentType_untouched hwf hsub hw hloc (hno.imp And.left And.left)
  | setContentLengthHeader =>
    have hno' : hv.opcode = .add ∧ s.valuesOf hv.key ≠ [] ∨
        hv.opcode = .rewrite ∧ s.valuesOf hv.key = [] := by
      simpa [hh] using hno
    dsimp only [setContentLengthHeader, clearContentLengthHeader, clearBuiltinHeader]
    by_cases hv₀ : value = []
    · rw [if_pos hv₀]
      subst hv₀
      obtain ⟨rc, s', hrun, hiff⟩ :=
        length_untouched (-1) hwf hsub hw hhash (hoff.trans (hlength hh)) hno'
      refine ⟨rc, s', hrun, fun hrc => (hiff hrc).trans (and_congr_left' ?_)⟩
      simp [atosz, eq_comm (a := (-1 : ℤ))]
    · rw [if_neg hv₀]
      cases hlen : atosz value with
      | none => exact ⟨.error, s, rfl, fun hc => by cases hc⟩
      | some n =>
        obtain ⟨rc, s', hrun, hiff⟩ :=
          length_untouched n hwf hsub hw hhash (hoff.trans (hlength hh)) hno'
        refine ⟨rc, s', hrun, fun hrc => (hiff hrc).trans (and_congr_left' ?_)⟩
        simp [hv₀, eq_comm (a := (n : ℤ))]
  | setHeader => simp [hh] at hown
  | setBuiltinHeader => simp [hh] at hown
  | setAcceptRangesHeader => simp [hh] at hown

def cachedPage : Response :=
  { ofElts [⟨1, str "Content-Length", str "10", str "content-length", none⟩,
      ⟨1, str "Cache-Control", str "public", str "cache-control", none⟩] 4 fun f =>
        if f = .contentLength then some 0 else if f = .cacheControl then some 1 else none with
    contentType := str "text/html"
    contentTypeLen := 9
    contentLengthN := 10 }

theorem cachedPage_wellFormed : cachedPage.shape.WellFormed () :=
  single_wellFormed (by decide) (by decide)

theorem cachedPage_chained : Chained cachedPage.cell (cachedPage.ptr .cacheControl) [1] :=
  ⟨rfl, rfl⟩

/-- `add Content-Length 10` leaves the response untouched, as that is its length. -/
theorem response_noop_untouched_same : ∃ (hv : OutVal) (s' : Response),
    parseDirective (fun _ => true) setHandlersOut 0
      [str "add", str "Content-Length", str "10"] = .ok hv ∧
    handleOut hv (str "10") cachedPage = .ok (.ok, s') ∧ Untouched [1] cachedPage s' := by
  have hp := (parseDirective_eq_ok (rfl : parseDirective (fun _ => true) setHandlersOut 0
    [str "add", str "Content-Length", str "10"] = .ok _)).2
  obtain ⟨rc, s', he, hiff⟩ := response_noop_untouched cachedPage [1] _ (str "10")
    cachedPage_wellFormed cachedPage_chained (by decide) hp (by decide)
    (Or.inl ⟨rfl, by show cachedPage.valuesOf _ ≠ []; decide⟩)
  obtain rfl : rc = .ok := (Prod.mk.inj (Except.ok.inj (he.symm.trans rfl))).1
  refine ⟨_, s', rfl, he, (hiff rfl).mpr ⟨Or.inr ⟨10, by decide, rfl⟩, ?_, ?_⟩⟩
  · intro _ hnone
    cases hnone
  · intro hre
    cases hre

/-- On the same page `add` of other values replaces the length, the content type and the chain. -/
theorem response_noop_untouched_other : ∃ (hv₁ hv₂ hv₃ : OutVal) (s₁ s₂ s₃ : Response),
    (parseDirective (fun _ => true) setHandlersOut 0
      [str "add", str "Content-Length", str "5"] = .ok hv₁ ∧ cachedPage.Present [1] hv₁ ∧
      handleOut hv₁ (str "5") cachedPage = .ok (.ok, s₁) ∧ ¬ Untouched [1] cachedPage s₁) ∧
    (parseDirective (fun _ => true) setHandlersOut 0
      [str "add", str "Content-Type", str "text/plain"] = .ok hv₂ ∧ cachedPage.Present [1] hv₂ ∧
      handleOut hv₂ (str "text/plain") cachedPage = .ok (.ok, s₂) ∧
      ¬ Untouched [1] cachedPage s₂) ∧
    parseDirective (fun _ => true) setHandlersOut 0
      [str "add", str "Cache-Control", str "private"] = .ok hv₃ ∧ cachedPage.Present [1] hv₃ ∧
      handleOut hv₃ (str "private") cachedPage = .ok (.ok, s₃) ∧ ¬ Untouched [1] cachedPage s₃ := by
  refine ⟨_, _, _, _, _, _, ⟨rfl, by show cachedPage.valuesOf _ ≠ []; decide, rfl, fun hu => ?_⟩,
    ⟨rfl, by show cachedPage.contentType ≠ []; decide, rfl, fun hu => ?_⟩,
    rfl, ⟨1, by decide, by decide⟩, rfl, fun hu => ?_⟩
  · exact absurd hu.contentLengthN (by decide)
  · exact absurd hu.contentType (by decide)
  · exact absurd hu.visible (by decide)

end HeadersControl.Response
