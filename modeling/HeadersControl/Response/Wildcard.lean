import HeadersControl.Response.Presence

/-! # Wildcard rules on responses

A wildcard rule walks over the list and nothing else. An exact rule `clear` also
resets the field that stands for its header, and leaves a dead entry behind the
typed pointer, so that nginx does not send a header of its own instead.
-/

namespace HeadersControl

open Segments Segments.Shape

/-- No name of the table ends with an asterisk, so that wildcard rules are generic. -/
theorem HeaderVal.Parsed.of_wildcard {hv : OutVal} (hp : hv.Parsed setHandlersOut)
    (hw : hv.wildcard = true) : hv.handler = .setHeader := by
  by_contra hbuiltin
  obtain ⟨-, -, -, -, -, hexact, -, -⟩ := hp.of_entry hbuiltin
  rw [hw] at hexact
  cases hexact

namespace Response

variable {s s' : Response} {hv : OutVal} {h : ℕ} {f : OutField}
  {e : SetHeader OutHandler OutField}

/-- The field of a builtin header is reset, or its typed pointer designates a dead entry. -/
def ClearedWith (s : Response) (dead : ℕ → Prop) (e : SetHeader OutHandler OutField) : Prop :=
  match e.handler with
  | .setContentTypeHeader => s.contentType = []
  | .setContentLengthHeader => s.contentLengthN = -1
  | .setAcceptRangesHeader => s.allowRanges = false
  | .setBuiltinHeader => ∃ f h, e.offset = some f ∧ s.ptr f = some h ∧ dead h
  | .setBuiltinMultiHeader =>
      ∀ hs, Chained s.cell (e.offset.bind s.ptr) hs → ∀ h ∈ hs, dead h
  | .setHeader => True

def Cleared (s : Response) (e : SetHeader OutHandler OutField) : Prop :=
  s.ClearedWith (fun h => s.shown h = false) e

def Dies (s : Response) (hv : OutVal) (h : ℕ) : Prop :=
  s.repairLocation.shown h = false ∨
    h ∈ s.shape.slots () ∧ hv.matchesName (s.repairLocation.cell h).key = true

theorem Outcome.fields {value : Str} {out : Option OutField} {noCreate : Bool}
    (ho : Outcome hv value out noCreate s.repairLocation s') :
    s'.contentType = s.contentType ∧ s'.contentLengthN = s.contentLengthN ∧
      s'.allowRanges = s.allowRanges := by
  obtain ⟨c, hc⟩ := s.exists_repairLocation
  rw [hc] at ho
  cases ho with
  | unchanged => exact ⟨rfl, rfl, rfl⟩
  | swept => exact ⟨rfl, rfl, rfl⟩
  | created => cases out <;> exact ⟨rfl, rfl, rfl⟩

section Exact

variable (hw : hv.wildcard = false) (hop : hv.opcode = .clear)
include hw hop

theorem Outcome.dead (ho : Outcome hv [] (some f) false s s') :
    ∃ h, s'.ptr f = some h ∧ s'.shown h = false := by
  cases ho with
  | unchanged hu =>
    rcases hu with ⟨hadd, -⟩ | ⟨-, -, hre | ⟨hno, -⟩⟩
    · cases hop.symm.trans hadd
    · cases hop.symm.trans hre
    · simp [hw] at hno
  | swept _ _ hany =>
    cases hl : ((s.shape.slots ()).filter (s.hits hv)).getLast? with
    | none =>
      obtain ⟨x, hx, hit⟩ := List.any_eq_true.mp hany
      have hmem := List.mem_filter.mpr ⟨hx, hit⟩
      rw [List.getLast?_eq_none_iff.mp hl] at hmem
      cases hmem
    | some h =>
      obtain ⟨hh, hit⟩ := List.mem_filter.mp (List.mem_of_getLast? hl)
      refine ⟨h, by simp [sweep, hl], ?_⟩
      rw [Response.shown, cell_sweep_hit _ _ _ hh hit]
      simp [mark, TableElt.hide]
  | @created a sh =>
    refine ⟨a, by simp [store, setPtr], ?_⟩
    simp [Response.shown, newElt]

theorem setBuiltinHeader_dead (hwf : s.shape.WellFormed ()) (hoff : hv.offset = some f) :
    ∃ rc s', setBuiltinHeader hv [] s = .ok (rc, s') ∧ (s.shape.pool.Reliable → rc = .ok) ∧
      (rc = .ok → (∃ h, s'.ptr f = some h ∧ s'.shown h = false) ∧
        s'.contentLengthN = s.contentLengthN ∧ s'.allowRanges = s.allowRanges) := by
  unfold setBuiltinHeader
  rw [hoff, Option.bind_some]
  cases hptr : s.ptr f with
  | none =>
    dsimp only
    rw [if_neg (by simp [hop])]
    obtain ⟨rc, s', he, hrel, hok⟩ := setHeaderHelper_run hv [] (some f) false hwf
    exact ⟨rc, s', he, hrel, fun hrc => ⟨(hok hrc).dead hw hop, (hok hrc).fields.2⟩⟩
  | some h =>
    dsimp only
    rw [if_neg (by simp [hop]), if_pos rfl]
    refine ⟨.ok, _, rfl, fun _ => rfl, fun _ => ⟨⟨h, hptr, ?_⟩, rfl, rfl⟩⟩
    simp [Response.shown]

end Exact

theorem setBuiltinMultiHeader_dead {hs : List ℕ} (hwf : s.shape.WellFormed ())
    (hoff : hv.offset = some .cacheControl) (hc : Chained s.cell (s.ptr .cacheControl) hs)
    (hsub : hs ⊆ s.shape.slots ()) : ∃ s', setBuiltinMultiHeader hv [] s = .ok (.ok, s') ∧
      ∀ hs', Chained s'.cell (s'.ptr .cacheControl) hs' → ∀ h ∈ hs', s'.shown h = false := by
  cases hs with
  | nil =>
    have hnone : s.ptr .cacheControl = none := hc
    refine ⟨s, by simp [setBuiltinMultiHeader, hoff, hnone], fun hs' hc' h hh => ?_⟩
    rw [hc'.unique hc] at hh
    cases hh
  | cons x hs =>
    refine ⟨_, setBuiltinMultiHeader_write hoff hc (length_chain_le hwf hc hsub),
      fun hs' hc' h hh => ?_⟩
    have hsame : Chained s.cell (s.ptr .cacheControl) hs' :=
      hc'.congr fun y _ => (next_writeChain y).symm
    rw [hsame.unique hc] at hh
    rw [← Bool.not_eq_true, shown_writeChain (fun h₀ => absurd rfl h₀) hh]
    exact fun h₀ => h₀.1 rfl

theorem offset_isSome : ∀ e ∈ setHandlersOut.entries,
    e.handler ≠ .setContentTypeHeader → e.offset ≠ none := by decide

theorem exact_clear {hs : List ℕ} (hwf : s.shape.WellFormed ())
    (hc : Chained s.cell (s.ptr .cacheControl) hs) (hsub : hs ⊆ s.shape.slots ())
    (hp : hv.Parsed setHandlersOut) (hop : hv.opcode = .clear)
    (hfind : setHandlersOut.find hv.key = some e) :
    ∃ rc s', handleOut hv [] s = .ok (rc, s') ∧ (rc = .ok → s'.Cleared e) := by
  have he := List.mem_of_find?_eq_some hfind
  have hhandler : hv.handler = e.handler := by rw [hp.handler, hfind, Option.elim_some]
  have hoff : hv.offset = e.offset := by rw [hp.offset, hfind, Option.bind_some]
  obtain ⟨-, -, -, -, -, hw, -, -⟩ := hp.of_entry (hhandler ▸ builtin_entry e he)
  have hbuiltin : ∀ (s₁ : Response), s₁.shape = s.shape → e.handler ≠ .setContentTypeHeader →
      ∃ rc s', setBuiltinHeader hv [] s₁ = .ok (rc, s') ∧ (rc = .ok →
        (∃ f h, e.offset = some f ∧ s'.ptr f = some h ∧ s'.shown h = false) ∧
          s'.contentLengthN = s₁.contentLengthN ∧ s'.allowRanges = s₁.allowRanges) := by
    intro s₁ hshape hne
    obtain ⟨f, hf⟩ := Option.ne_none_iff_exists'.mp (offset_isSome e he hne)
    obtain ⟨rc, s', hrun, -, hdead⟩ :=
      setBuiltinHeader_dead hw hop (hshape ▸ hwf) (hoff.trans hf)
    refine ⟨rc, s', hrun, fun hrc => ?_⟩
    obtain ⟨⟨h, hptr, hs⟩, hfields⟩ := hdead hrc
    exact ⟨⟨f, h, hf, hptr, hs⟩, hfields⟩
  unfold handleOut Cleared ClearedWith
  rw [hhandler]
  cases hh : e.handler with
  | setHeader => exact absurd hh (builtin_entry e he)
  | setBuiltinHeader =>
    obtain ⟨rc, s', hrun, hdead⟩ := hbuiltin s rfl (by simp [hh])
    exact ⟨rc, s', hrun, fun hrc => (hdead hrc).1⟩
  | setAcceptRangesHeader =>
    obtain ⟨rc, s', hrun, hdead⟩ := hbuiltin { s with allowRanges := false } rfl (by simp [hh])
    exact ⟨rc, s', hrun, fun hrc => (hdead hrc).2.2⟩
  | setContentLengthHeader =>
    obtain ⟨rc, s', hrun, hdead⟩ := hbuiltin { s with contentLengthN := -1 } rfl (by simp [hh])
    exact ⟨rc, s', hrun, fun hrc => (hdead hrc).2.1⟩
  | setContentTypeHeader =>
    dsimp only
    unfold setContentTypeHeader
    dsimp only [List.length_nil, findCharset]
    obtain ⟨rc, s', hrun, -, hok⟩ := setHeaderHelper_run hv [] none true (s := { s with
      contentTypeLen := 0, contentType := [], contentTypeHash := hv.hash,
      contentTypeLowcase := none }) hwf
    exact ⟨rc, s', hrun, fun hrc => (hok hrc).fields.1⟩
  | setBuiltinMultiHeader =>
    dsimp only
    obtain ⟨hcache, -⟩ := multi_entry e he hh
    obtain ⟨s', hrun, hdead⟩ := setBuiltinMultiHeader_dead hwf (hoff.trans hcache) hc hsub
    rw [hcache]
    exact ⟨.ok, s', hrun, fun _ => hdead⟩

/-- Behind the rule exactly the entries that die are hidden. -/
theorem shown_wildcard : (s.repairLocation.sweep hv [] none
      ((s.repairLocation.shape.slots ()).filter (s.repairLocation.hits hv)) none).shown h = false ↔
    s.Dies hv h := by
  unfold Dies Response.shown
  by_cases hmem : h ∈ (s.repairLocation.shape.slots ()).filter (s.repairLocation.hits hv)
  · obtain ⟨hh, hit⟩ := List.mem_filter.mp hmem
    obtain ⟨-, hm⟩ := hits_eq_true hit
    rw [shape_repairLocation] at hh
    simp [sweep, mark, TableElt.hide, hh, hm, hit]
  · simp only [sweep, hmem, if_false]
    apply Iff.symm (or_iff_left_of_imp ?_)
    rintro ⟨hh, hm⟩
    rw [← Bool.not_eq_true]
    intro hs
    rw [List.mem_filter, shape_repairLocation, hits, Response.shown, hs, hm] at hmem
    exact hmem ⟨hh, rfl⟩

theorem chained_wildcard {head : Option ℕ} {hs : List ℕ} :
    Chained (s.repairLocation.sweep hv [] none
      ((s.repairLocation.shape.slots ()).filter (s.repairLocation.hits hv)) none).cell head hs ↔
    Chained s.cell head hs := by
  have hnext : ∀ h, ((s.repairLocation.sweep hv [] none
      ((s.repairLocation.shape.slots ()).filter (s.repairLocation.hits hv)) none).cell h).next =
      (s.cell h).next := by
    intro h
    rw [next_sweep, next_repairLocation]
  constructor
  · intro hc
    exact hc.congr fun h _ => (hnext h).symm
  · intro hc
    exact hc.congr fun h _ => hnext h

/--
The exact rule `clear` of a builtin header clears it. A wildcard rule `clear` hides every visible
entry that it matches, and clears a matching builtin header exactly where its field is reset
already, or where its typed pointer is set and its entry dies with the others.
-/
theorem wildcard_clear (s : Response) (hs : List ℕ) (hwf : s.shape.WellFormed ())
    (hc : Chained s.cell (s.ptr .cacheControl) hs) (hsub : hs ⊆ s.shape.slots ()) :
    (∀ (hv : OutVal) (e : SetHeader OutHandler OutField), hv.Parsed setHandlersOut →
      hv.opcode = .clear → setHandlersOut.find hv.key = some e →
      ∃ rc s', handleOut hv [] s = .ok (rc, s') ∧ (rc = .ok → s'.Cleared e)) ∧
    ∀ hv : OutVal, hv.Parsed setHandlersOut → hv.opcode = .clear → hv.wildcard = true →
      ∃ rc s', handleOut hv [] s = .ok (rc, s') ∧ (s.shape.pool.Reliable → rc = .ok) ∧
        (rc = .ok → (∀ e ∈ s'.visible, hv.matchesName e.1 = false) ∧
          ∀ e ∈ setHandlersOut.entries, hv.matchesName e.name = true →
            (s'.Cleared e ↔ s.ClearedWith (s.Dies hv) e)) := by
  constructor
  · intro hv e hp hop hfind
    exact exact_clear hwf hc hsub hp hop hfind
  · intro hv hp hop hw
    have hrun : handleOut hv [] s = setHeaderHelper hv [] none false s := by
      simp only [handleOut, hp.of_wildcard hw, setHeader]
    rw [hrun]
    obtain ⟨rc, s', he, hrel, hok⟩ := setHeaderHelper_run hv [] none false hwf
    refine ⟨rc, s', he, hrel, fun hrc => ?_⟩
    obtain ⟨htype, hlen, hranges⟩ := (hok hrc).fields
    obtain rfl := (hok hrc).of_stop (by simp [hw]) (by simp [hop]) (by simp [hop])
    refine ⟨fun e he => ?_, fun e _ _ => ?_⟩
    · rw [visible_sweep_none] at he
      simpa using (List.mem_filter.mp he).2
    · have hptr : (s.repairLocation.sweep hv [] none
          ((s.repairLocation.shape.slots ()).filter (s.repairLocation.hits hv)) none).ptr =
          s.ptr := s.ptr_repairLocation
      unfold Cleared ClearedWith
      simp only [shown_wildcard, chained_wildcard, htype, hlen, hranges, hptr]

/-- `clear Server*` clears `Server` where its typed pointer is set. -/
theorem wildcard_clear_server : ∃ (hv : OutVal) (s' : Response),
    parseDirective (fun _ => true) setHandlersOut 0 [str "clear", str "Server*"] = .ok hv ∧
    handleOut hv [] (serverResponse [str "a"] (some 0)) = .ok (.ok, s') ∧ s'.visible = [] ∧
    s'.Cleared ⟨str "Server", some .server, .setBuiltinHeader⟩ := by
  have hp := (parseDirective_eq_ok (rfl : parseDirective (fun _ => true) setHandlersOut 0
    [str "clear", str "Server*"] = .ok _)).2
  obtain ⟨rc, s', he, hrel, hok⟩ := (wildcard_clear (serverResponse [str "a"] (some 0)) []
    (single_wellFormed (by decide) (by decide)) rfl (by decide)).2 _ hp rfl rfl
  obtain rfl := hrel fun _ => rfl
  have hvis : s'.visible = [] := by
    obtain rfl := (Prod.mk.inj (Except.ok.inj (he.symm.trans rfl))).2
    decide
  refine ⟨_, s', rfl, he, hvis, ((hok rfl).2 _ List.mem_cons_self (by decide)).mpr ?_⟩
  exact ⟨.server, 0, rfl, rfl, Or.inr ⟨by decide, by decide⟩⟩

def plainPage : Response :=
  { serverResponse [] none with contentType := str "text/html", contentLengthN := 10 }

/-- `clear *` leaves all of these headers. -/
theorem wildcard_clear_all : ∃ (hv : OutVal) (s' : Response),
    parseDirective (fun _ => true) setHandlersOut 0 [str "clear", str "*"] = .ok hv ∧
    hv.wildcard = true ∧ handleOut hv [] plainPage = .ok (.ok, s') ∧
    (∀ e ∈ setHandlersOut.entries, hv.matchesName e.name = true) ∧
    s'.contentType = str "text/html" ∧ s'.contentLengthN = 10 ∧ s'.allowRanges = true ∧
    s'.ptr .server = none ∧ s'.ptr .lastModified = none ∧
    ¬ ∀ e ∈ setHandlersOut.entries, s'.Cleared e := by
  refine ⟨_, _, rfl, rfl, rfl, by decide, rfl, rfl, rfl, rfl, rfl, fun hall => ?_⟩
  obtain ⟨f, h, hf, hptr, -⟩ :=
    hall ⟨str "Server", some .server, .setBuiltinHeader⟩ List.mem_cons_self
  obtain rfl := Option.some.inj hf
  cases hptr

end Response

end HeadersControl
