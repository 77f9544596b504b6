import HeadersControl.Response.Handlers
import HeadersControl.Rules.Parse

/-! # Name isolation of response rules

A rule for one name leaves the visible entries of other names alone as long as
its typed pointer designates an entry of that name. The table pairs every name
with the pointer that nginx keeps for it but one: `E-Tag` is paired with the
pointer to the `ETag` entry. And whatever the rule is for, the helper spells the
name of a typed `Location` entry that holds a path its own way.
-/

namespace HeadersControl

open Segments Segments.Shape

/-- The name that nginx gives to the entry behind a typed pointer. -/
def OutField.nginxName : OutField → Str
  | server => str "Server"
  | date => str "Date"
  | contentEncoding => str "Content-Encoding"
  | location => str "Location"
  | refresh => str "Refresh"
  | lastModified => str "Last-Modified"
  | contentRange => str "Content-Range"
  | acceptRanges => str "Accept-Ranges"
  | wwwAuthenticate => str "WWW-Authenticate"
  | expires => str "Expires"
  | etag => str "ETag"
  | contentLength => str "Content-Length"
  | cacheControl => str "Cache-Control"

namespace Response

/-- Typed pointers designate entries of their name, and `Cache-Control` heads a chain of such. -/
structure Named (s : Response) : Prop where
  single : ∀ f h, s.ptr f = some h → sameName (s.cell h).key f.nginxName = true
  chain : ∃ hs, Chained s.cell (s.ptr .cacheControl) hs ∧
    ∀ h ∈ hs, sameName (s.cell h).key (str "Cache-Control") = true ∧ h < s.shape.pool.brk

/-- The entry `h` keeps its place, its visibility, its value and its name. -/
structure Keeps (s s' : Response) (h : ℕ) : Prop where
  mem : h ∈ s'.shape.slots ()
  shown : s'.shown h = true
  value : (s'.cell h).value = (s.cell h).value
  key : (s'.cell h).key = (s.cell h).key

def Isolated (key : Str) (s s' : Response) : Prop :=
  ∀ h ∈ s.shape.slots (), s.shown h = true → sameName (s.cell h).key key = false → s.Keeps s' h

variable {s s' : Response} {hv : OutVal} {value key : Str} {h : ℕ}

theorem Keeps.of_cell (hm : h ∈ s'.shape.slots ()) (hs : s.shown h = true)
    (hc : s'.cell h = s.cell h) : s.Keeps s' h where
  mem := hm
  shown := by
    rw [← hs]
    unfold Response.shown
    rw [hc]
  value := by rw [hc]
  key := by rw [hc]

theorem Isolated.of_cell (hs : s.shape.slots () ⊆ s'.shape.slots ())
    (hc : ∀ h ∈ s.shape.slots (), sameName (s.cell h).key key = false → s'.cell h = s.cell h) :
    Isolated key s s' :=
  fun h hh hsh hn => .of_cell (hs hh) hsh (hc h hh hn)

theorem Isolated.refl (key : Str) (s : Response) : Isolated key s s :=
  .of_cell (fun _ hh => hh) fun _ _ _ => rfl

/-- A visible typed `Location` entry holds a path, and neither is of that name nor spelled so. -/
def Respelled (s : Response) (key : Str) : Prop :=
  ∃ h ∈ s.shape.slots (), s.ptr .location = some h ∧ s.shown h = true ∧
    sameName (s.cell h).key key = false ∧ (s.cell h).value.head? = some 47 ∧
    (s.cell h).key ≠ str "Location"

theorem sameName_repairLocation (hn : s.Named) (h : ℕ) :
    sameName (s.repairLocation.cell h).key (s.cell h).key = true := by
  rcases s.cell_repairLocation h with hc | ⟨hp, -, hc⟩
  · rw [hc, sameName_refl]
  · rw [hc, sameName_comm]
    exact hn.single .location h hp

theorem shown_of_repair (hs : s.shown h = true) : s.repairLocation.shown h = true := by
  unfold Response.shown at hs ⊢
  rcases s.cell_repairLocation h with hc | ⟨-, -, hc⟩
  · rwa [hc]
  · rw [hc]
    exact decide_eq_true (by decide : locationHash ≠ 0)

/-- What keeps the entries of other names as the repair left them isolates as the repair does. -/
theorem isolated_of_repaired (key : Str)
    (hkeep : ∀ h ∈ s.shape.slots (), s.shown h = true → sameName (s.cell h).key key = false →
      h ∈ s'.shape.slots () ∧ s'.cell h = s.repairLocation.cell h) :
    Isolated key s s' ↔ ¬ s.Respelled key := by
  constructor
  · rintro hi ⟨h, hh, hp, hs, hname, hpath, hne⟩
    obtain ⟨-, hc⟩ := hkeep h hh hs hname
    have hkey := (hi h hh hs hname).key
    rw [hc] at hkey
    apply hne
    rw [← hkey]
    simp [repairLocation, hp, hpath]
  · intro hno h hh hs hname
    obtain ⟨hm, hc⟩ := hkeep h hh hs hname
    have hkey : (s.repairLocation.cell h).key = (s.cell h).key := by
      rcases s.cell_repairLocation h with hc | ⟨hp, hpath, hc⟩
      · rw [hc]
      · rw [hc]
        by_contra hne
        exact hno ⟨h, hh, hp, hs, hname, hpath, Ne.symm hne⟩
    refine ⟨hm, ?_, by rw [hc, s.value_repairLocation], by rw [hc, hkey]⟩
    rw [Response.shown, hc]
    exact shown_of_repair hs

theorem setHeaderHelper_isolated (value : Str) (out : Option OutField) (noCreate : Bool)
    (hwf : s.shape.WellFormed ()) (hn : s.Named) (hw : hv.wildcard = false) :
    ∃ rc s', setHeaderHelper hv value out noCreate s = .ok (rc, s') ∧
      (Isolated hv.key s s' ↔ ¬ s.Respelled hv.key) := by
  rcases setHeaderHelper_cases hv value out noCreate hwf with ⟨s', he, hf, -⟩ | ⟨s', he, ho⟩
  · refine ⟨_, s', he, isolated_of_repaired hv.key fun h hh _ _ => ?_⟩
    exact ⟨hf.slots.subset (by simpa using hh), hf.same h (by simpa using hh)⟩
  · refine ⟨_, s', he, isolated_of_repaired hv.key fun h hh _ hname => ?_⟩
    have hmiss : s.repairLocation.hits hv h = false := by
      rw [hits, matchesName_exact hw, sameName_congr (sameName_repairLocation hn h), hname,
        Bool.and_false]
    exact ho.untouched (by simpa using hh) hmiss

theorem Named.congr {s₁ : Response} (hn : s.Named) (hshape : s₁.shape = s.shape)
    (hcell : s₁.cell = s.cell) (hptr : s₁.ptr = s.ptr) : s₁.Named :=
  ⟨by rw [hptr, hcell]; exact hn.single, by rw [hptr, hcell, hshape]; exact hn.chain⟩

theorem Isolated.congr {s₁ : Response} (hi : Isolated key s₁ s') (hshape : s₁.shape = s.shape)
    (hcell : s₁.cell = s.cell) : Isolated key s s' := by
  intro h hh hs hname
  unfold Response.shown at hs
  rw [← hshape] at hh
  rw [← hcell] at hs hname
  obtain ⟨hm, hs', hv, hk⟩ := hi h hh hs hname
  exact ⟨hm, hs', by rw [hv, hcell], by rw [hk, hcell]⟩

theorem isolated_setCell (key : Str) {p : ℕ} {e : TableElt} (he : e.hash = 0 ∨ e.key = key) :
    Isolated key s (s.setCell p e) ↔
      ¬ (p ∈ s.shape.slots () ∧ s.shown p = true ∧ sameName (s.cell p).key key = false) := by
  constructor
  · rintro hi ⟨hp, hs, hname⟩
    have hk := hi p hp hs hname
    rcases he with hd | hkey
    · have hs' := hk.shown
      simp [Response.shown, hd] at hs'
    · have hsame := hk.key
      rw [cell_setCell, Function.update_self, hkey] at hsame
      rw [← hsame, sameName_refl] at hname
      cases hname
  · intro hno h hh hs hname
    have hne : h ≠ p := by
      rintro rfl
      exact hno ⟨hh, hs, hname⟩
    exact .of_cell hh hs (by simp [hne])

/-- The typed pointer of a rule designates a visible entry of another name. -/
def Misplaced (s : Response) (hv : OutVal) : Prop :=
  ∃ h ∈ s.shape.slots (), hv.offset.bind s.ptr = some h ∧ s.shown h = true ∧
    sameName (s.cell h).key hv.key = false

/-- The handler of a builtin header hands the rule on to the helper. -/
def LooksUp (s : Response) (hv : OutVal) : Prop :=
  hv.offset.bind s.ptr = none ∧ hv.opcode ≠ .rewrite

theorem setBuiltinHeader_isolated (value : Str) (hwf : s.shape.WellFormed ()) (hn : s.Named)
    (hw : hv.wildcard = false) : ∃ rc s', setBuiltinHeader hv value s = .ok (rc, s') ∧
      (Isolated hv.key s s' ↔ ¬ (hv.opcode ≠ .add ∧ s.Misplaced hv) ∧
        ¬ (s.LooksUp hv ∧ s.Respelled hv.key)) := by
  unfold setBuiltinHeader Misplaced LooksUp
  cases hv.offset.bind s.ptr with
  | none =>
    dsimp only
    split
    · rename_i hre
      exact ⟨.ok, s, rfl, iff_of_true (.refl _ s) (by simp [hre])⟩
    · rename_i hre
      obtain ⟨rc, s', he, hi⟩ := setHeaderHelper_isolated value hv.offset false hwf hn hw
      exact ⟨rc, s', he, hi.trans (by simp [hre])⟩
  | some p =>
    have hiff : (hv.opcode ≠ .add ∧ ∃ h ∈ s.shape.slots (), some p = some h ∧ s.shown h = true ∧
        sameName (s.cell h).key hv.key = false) ↔ hv.opcode ≠ .add ∧ p ∈ s.shape.slots () ∧
          s.shown p = true ∧ sameName (s.cell p).key hv.key = false := by
      simp only [Option.some.injEq]
      refine and_congr_right fun _ => ⟨?_, fun hc => ⟨p, hc.1, rfl, hc.2⟩⟩
      rintro ⟨h, hh, rfl, hc⟩
      exact ⟨hh, hc⟩
    rw [hiff]
    dsimp only
    split_ifs with hadd hv₀
    · exact ⟨.ok, s, rfl, iff_of_true (.refl _ s) (by simp [hadd])⟩
    · exact ⟨.ok, _, rfl, by rw [isolated_setCell _ (Or.inl rfl)]; simp [hadd]⟩
    · exact ⟨.ok, _, rfl, by rw [isolated_setCell hv.key (Or.inr rfl)]; simp [hadd]⟩

theorem hideChain_spec {head : Option ℕ} {hs : List ℕ} {n : ℕ} (hc : Chained s.cell head hs)
    (hn : hs.length ≤ n) : hideChain n head s =
      some { s with cell := fun h => if h ∈ hs then (s.cell h).hide else s.cell h } := by
  induction hs generalizing s head n with
  | nil =>
    obtain rfl : head = none := hc
    cases n <;> simp [hideChain]
  | cons x hs ih =>
    have hx : x ∉ hs := (List.nodup_cons.mp hc.nodup).1
    obtain _ | n := n
    · simp at hn
    obtain ⟨rfl, hc⟩ := hc
    have hc' : Chained (s.setCell x (s.cell x).hide).cell (s.cell x).next hs :=
      hc.congr fun h hh => by
        by_cases hx : h = x
        · subst hx
          simp [TableElt.hide]
        · simp [hx]
    have hrec := ih hc' (by simpa using hn)
    refine hrec.trans (congrArg some ?_)
    rw [setCell]
    congr 1
    ext1 h
    by_cases hh : h = x
    · subst hh
      simp [hx]
    · simp [hh]

def writeChain (hv : OutVal) (value : Str) (s : Response) (x : ℕ) (hs : List ℕ) : Response :=
  { s with
    cell := fun h =>
      if h = x then { s.cell x with value, hash := if value = [] then 0 else hv.hash }
      else if h ∈ hs then (s.cell h).hide else s.cell h }

theorem setBuiltinMultiHeader_write {x : ℕ} {hs : List ℕ} (hoff : hv.offset = some .cacheControl)
    (hc : Chained s.cell (s.ptr .cacheControl) (x :: hs)) (hlen : hs.length ≤ s.shape.pool.brk) :
    setBuiltinMultiHeader hv value s = .ok (.ok, writeChain hv value s x hs) := by
  have hx : x ∉ hs := (List.nodup_cons.mp hc.nodup).1
  obtain ⟨hptr, hrest⟩ := hc
  unfold setBuiltinMultiHeader
  rw [hoff]
  dsimp only
  rw [hptr]
  dsimp only
  rw [hideChain_spec hrest (Nat.le_succ_of_le hlen), writeChain]
  dsimp only [setCell]
  congr 3
  ext1 h
  by_cases hh : h = x
  · subst hh
    simp [hx]
  · simp [hh]

section WriteChain

variable {x : ℕ} {hs : List ℕ}

theorem key_writeChain (h : ℕ) : ((writeChain hv value s x hs).cell h).key = (s.cell h).key := by
  unfold writeChain
  dsimp only
  split
  · rename_i hx
    rw [hx]
  · split <;> rfl

theorem next_writeChain (h : ℕ) :
    ((writeChain hv value s x hs).cell h).next = (s.cell h).next := by
  unfold writeChain
  dsimp only
  split
  · rename_i hx
    rw [hx]
  · split <;> rfl

theorem shown_writeChain {h : ℕ} (hhash : value ≠ [] → hv.hash ≠ 0) (hh : h ∈ x :: hs) :
    (writeChain hv value s x hs).shown h = true ↔ value ≠ [] ∧ h = x := by
  unfold Response.shown writeChain
  by_cases hx : h = x
  · subst hx
    by_cases hv₀ : value = []
    · simp [hv₀]
    · simpa [hv₀] using hhash hv₀
  · have hmem : h ∈ hs := List.mem_of_ne_of_mem hx hh
    simp [hx, hmem, TableElt.hide]

end WriteChain

theorem setBuiltinMultiHeader_isolated (value : Str) (hwf : s.shape.WellFormed ()) (hn : s.Named)
    (hoff : hv.offset = some .cacheControl)
    (hname : sameName hv.key (str "Cache-Control") = true) :
    ∃ rc s', setBuiltinMultiHeader hv value s = .ok (rc, s') ∧ Isolated hv.key s s' := by
  obtain ⟨hs, hc, hchain⟩ := hn.chain
  have hother : ∀ h, sameName (s.cell h).key hv.key = false → h ∉ hs := fun h hh hm => by
    rw [sameName_comm, sameName_congr hname, sameName_comm, (hchain h hm).1] at hh
    cases hh
  cases hs with
  | nil =>
    have hp : s.ptr .cacheControl = none := hc
    unfold setBuiltinMultiHeader
    rw [hoff]
    dsimp only
    rw [hp]
    dsimp only
    split
    · exact ⟨.ok, s, rfl, .refl _ s⟩
    · rcases push_spec hwf with ⟨q, hpush, hg, -⟩ | ⟨a, sh, hpush, -, -, hslots, ha⟩
      · rw [hpush]
        exact ⟨.error, _, rfl, .of_cell (by simp [hwf.slots_setPool hg]) fun _ _ _ => rfl⟩
      · rw [hpush]
        refine ⟨.ok, _, rfl, .of_cell (fun h hh => ?_) fun h hh _ => ?_⟩
        · simp [setPtr, hslots, hh]
        · have hne : h ≠ a := by
            rintro rfl
            exact ha hh
          simp [setPtr, hne]
  | cons x hs =>
    have hlen : hs.length ≤ s.shape.pool.brk := by
      have hsub : hs ⊆ List.range s.shape.pool.brk := fun h hh =>
        List.mem_range.mpr (hchain h (List.mem_cons_of_mem _ hh)).2
      simpa using (List.nodup_cons.mp hc.nodup).2.length_le_of_subset hsub
    refine ⟨.ok, _, setBuiltinMultiHeader_write hoff hc hlen,
      .of_cell (fun h hh => hh) fun h hh hname' => ?_⟩
    obtain ⟨hne, hh'⟩ := List.ne_and_not_mem_of_not_mem_cons (hother h hname')
    simp [writeChain, hne, hh']

theorem offset_nginxName : ∀ e ∈ setHandlersOut.entries, ∀ f ∈ e.offset,
    e.name = f.nginxName ∨ f = .etag ∧ e.name = str "E-Tag" := by decide

theorem nginxName_of_offset {f : OutField} (hp : hv.Parsed setHandlersOut)
    (hoff : hv.offset = some f) (hf : f ≠ .etag) : sameName hv.key f.nginxName = true := by
  rcases hp.cases with ⟨e, he, -, hname, -, ho⟩ | ⟨-, -, ho⟩
  · rcases offset_nginxName e he f (ho.symm.trans hoff) with hn | ⟨hn, -⟩
    · rwa [hn] at hname
    · exact absurd hn hf
  · cases ho.symm.trans hoff

theorem eTag_entry : ∀ e ∈ setHandlersOut.entries, sameName e.name (str "E-Tag") = true →
    e.offset = some .etag ∧ e.handler = .setBuiltinHeader := by decide

theorem eTag_mem : ∃ e ∈ setHandlersOut.entries, e.name = str "E-Tag" := by decide

theorem multi_entry : ∀ e ∈ setHandlersOut.entries, e.handler = .setBuiltinMultiHeader →
    e.offset = some .cacheControl ∧ e.name = str "Cache-Control" := by decide

theorem builtin_entry : ∀ e ∈ setHandlersOut.entries, e.handler ≠ .setHeader := by decide

theorem multi_of_handler (hp : hv.Parsed setHandlersOut)
    (hmulti : hv.handler = .setBuiltinMultiHeader) :
    hv.offset = some .cacheControl ∧ sameName hv.key (str "Cache-Control") = true := by
  rcases hp.cases with ⟨e, he, -, hname, hhandler, hoff⟩ | ⟨-, hgeneric, -⟩
  · obtain ⟨hcache, hkey⟩ := multi_entry e he (hhandler.symm.trans hmulti)
    rw [hkey] at hname
    exact ⟨hoff.trans hcache, hname⟩
  · cases hmulti.symm.trans hgeneric

theorem eTag_ne_nginxName : sameName OutField.etag.nginxName (str "E-Tag") = false := by decide

def ETagShown (s : Response) : Prop :=
  ∃ h ∈ s.shape.slots (), s.ptr .etag = some h ∧ s.shown h = true

/-- Only `E-Tag` is paired with a pointer to an entry of another name. -/
theorem misplaced_iff (hn : s.Named) {e : SetHeader OutHandler OutField}
    (he : e ∈ setHandlersOut.entries) (hname : sameName hv.key e.name = true)
    (hoff : hv.offset = e.offset) :
    s.Misplaced hv ↔ sameName hv.key (str "E-Tag") = true ∧ s.ETagShown := by
  constructor
  · rintro ⟨h, hh, hb, hs, hother⟩
    rw [hoff] at hb
    obtain ⟨f, hf, hp⟩ := Option.bind_eq_some_iff.mp hb
    rcases offset_nginxName e he f hf with hnm | ⟨rfl, hnm⟩
    · rw [sameName_congr (hn.single f h hp), ← hnm, sameName_comm, hname] at hother
      cases hother
    · exact ⟨hnm ▸ hname, h, hh, hp, hs⟩
  · rintro ⟨htag, h, hh, hp, hs⟩
    have hf := (eTag_entry e he ((sameName_congr hname _).symm.trans htag)).1
    refine ⟨h, hh, by rw [hoff, hf]; exact hp, hs, ?_⟩
    rw [sameName_congr (hn.single .etag h hp), sameName_comm, sameName_congr htag, sameName_comm,
      eTag_ne_nginxName]

theorem respelled_congr {s₁ : Response} (hshape : s₁.shape = s.shape) (hcell : s₁.cell = s.cell)
    (hptr : s₁.ptr = s.ptr) : s₁.Respelled key ↔ s.Respelled key := by
  unfold Respelled Response.shown
  rw [hshape, hcell, hptr]

theorem misplaced_congr {s₁ : Response} (hshape : s₁.shape = s.shape) (hcell : s₁.cell = s.cell)
    (hptr : s₁.ptr = s.ptr) : s₁.Misplaced hv ↔ s.Misplaced hv := by
  unfold Misplaced Response.shown
  rw [hshape, hcell, hptr]

theorem isolated_congr {s₁ : Response} (hshape : s₁.shape = s.shape) (hcell : s₁.cell = s.cell) :
    Isolated key s₁ s' ↔ Isolated key s s' :=
  ⟨fun hi => hi.congr hshape hcell, fun hi => hi.congr hshape.symm hcell.symm⟩

/-- The handler of a rule calls the helper. -/
def CallsHelper (hv : OutVal) (value : Str) (s : Response) : Prop :=
  match hv.handler with
  | .setHeader => True
  | .setBuiltinHeader => s.LooksUp hv
  | .setAcceptRangesHeader => s.LooksUp hv
  | .setContentLengthHeader => (value = [] ∨ atosz value ≠ none) ∧ s.LooksUp hv
  | .setContentTypeHeader => True
  | .setBuiltinMultiHeader => False

theorem handler_eTag (hp : hv.Parsed setHandlersOut)
    (htag : sameName hv.key (str "E-Tag") = true) : hv.handler = .setBuiltinHeader := by
  rcases hp.cases with ⟨e, he, -, hname, hhandler, -⟩ | ⟨hnone, -, -⟩
  · exact hhandler.trans (eTag_entry e he ((sameName_congr hname _).symm.trans htag)).2
  · obtain ⟨e, he, hename⟩ := eTag_mem
    have hother := hnone e he
    rw [hename, htag] at hother
    cases hother

theorem setBuiltinHeader_named {t : Response} (value : Str) (hwf : s.shape.WellFormed ())
    (hn : s.Named) (hp : hv.Parsed setHandlersOut) (hw : hv.wildcard = false)
    (hbuiltin : hv.handler ≠ .setHeader) (hshape : t.shape = s.shape) (hcell : t.cell = s.cell)
    (hptr : t.ptr = s.ptr) :
    ∃ rc s', setBuiltinHeader hv value t = .ok (rc, s') ∧
      (Isolated hv.key s s' ↔ ¬ (sameName hv.key (str "E-Tag") = true ∧ hv.opcode ≠ .add ∧
        s.ETagShown) ∧ ¬ (s.LooksUp hv ∧ s.Respelled hv.key)) := by
  obtain ⟨rc, s', he, hi⟩ :=
    setBuiltinHeader_isolated value (hshape ▸ hwf) (hn.congr hshape hcell hptr) hw
  refine ⟨rc, s', he, ?_⟩
  rcases hp.cases with ⟨e, hmem, -, hname, -, hoff⟩ | ⟨-, hgeneric, -⟩
  · rw [isolated_congr hshape hcell, misplaced_congr hshape hcell hptr,
      misplaced_iff hn hmem hname hoff, respelled_congr hshape hcell hptr, LooksUp, hptr,
      and_left_comm] at hi
    exact hi
  · exact absurd hgeneric hbuiltin

theorem setHeaderHelper_named {t : Response} (value : Str) (noCreate : Bool)
    (hwf : s.shape.WellFormed ()) (hn : s.Named) (hp : hv.Parsed setHandlersOut)
    (hw : hv.wildcard = false) (hplain : hv.handler ≠ .setBuiltinHeader)
    (hshape : t.shape = s.shape) (hcell : t.cell = s.cell) (hptr : t.ptr = s.ptr) :
    ∃ rc s', setHeaderHelper hv value none noCreate t = .ok (rc, s') ∧
      (Isolated hv.key s s' ↔ ¬ (sameName hv.key (str "E-Tag") = true ∧ hv.opcode ≠ .add ∧
        s.ETagShown) ∧ ¬ s.Respelled hv.key) := by
  obtain ⟨rc, s', he, hi⟩ :=
    setHeaderHelper_isolated value none noCreate (hshape ▸ hwf) (hn.congr hshape hcell hptr) hw
  rw [isolated_congr hshape hcell, respelled_congr hshape hcell hptr] at hi
  refine ⟨rc, s', he, hi.trans ?_⟩
  have htag : ¬ sameName hv.key (str "E-Tag") = true := fun h => hplain (handler_eTag hp h)
  simp [htag]

theorem handleOut_isolated (hwf : s.shape.WellFormed ()) (hn : s.Named)
    (hp : hv.Parsed setHandlersOut) (hw : hv.wildcard = false) (value : Str) :
    ∃ rc s', handleOut hv value s = .ok (rc, s') ∧
      (Isolated hv.key s s' ↔ ¬ (sameName hv.key (str "E-Tag") = true ∧ hv.opcode ≠ .add ∧
        s.ETagShown) ∧ ¬ (CallsHelper hv value s ∧ s.Respelled hv.key)) := by
  have hother : hv.handler ≠ .setBuiltinHeader →
      ¬ (sameName hv.key (str "E-Tag") = true ∧ hv.opcode ≠ .add ∧ s.ETagShown) :=
    fun hplain hc => hplain (handler_eTag hp hc.1)
  unfold handleOut CallsHelper
  cases hh : hv.handler with
  | setHeader =>
    simp only [true_and]
    exact setHeaderHelper_named value false hwf hn hp hw (by simp [hh]) rfl rfl rfl
  | setBuiltinHeader =>
    exact setBuiltinHeader_named value hwf hn hp hw (by simp [hh]) rfl rfl rfl
  | setAcceptRangesHeader =>
    refine setBuiltinHeader_named value hwf hn hp hw (by simp [hh]) ?_ ?_ ?_
    · split <;> rfl
    · split <;> rfl
    · split <;> rfl
  | setContentLengthHeader =>
    dsimp only
    unfold setContentLengthHeader
    split_ifs with hv₀
    · simp only [hv₀, true_or, true_and]
      exact setBuiltinHeader_named [] hwf hn hp hw (by simp [hh]) rfl rfl rfl
    · cases hlen : atosz value with
      | none =>
        exact ⟨.error, s, rfl, iff_of_true (.refl _ s) ⟨hother (by simp [hh]), by simp [hv₀]⟩⟩
      | some len =>
        simp only [ne_eq, reduceCtorEq, not_false_eq_true, or_true, true_and]
        exact setBuiltinHeader_named value hwf hn hp hw (by simp [hh]) rfl rfl rfl
  | setContentTypeHeader =>
    simp only [true_and]
    refine setHeaderHelper_named [] true hwf hn hp hw (by simp [hh]) ?_ ?_ ?_
    · split <;> rfl
    · split <;> rfl
    · split <;> rfl
  | setBuiltinMultiHeader =>
    obtain ⟨hoff, hname⟩ := multi_of_handler hp hh
    obtain ⟨rc, s', hrun, hi⟩ := setBuiltinMultiHeader_isolated value hwf hn hoff hname
    exact ⟨rc, s', hrun, iff_of_true hi ⟨hother (by simp [hh]), by simp⟩⟩

/--
An executed exact rule keeps every visible entry of another name, unless it sets, clears or
rewrites `E-Tag` while the typed pointer to the `ETag` entry designates a visible entry, or the
helper finds a visible typed `Location` entry of another name to spell its own way.
-/
theorem name_isolation (cv : ComplexValue → Response → Option Str) (s : Response) (hv : OutVal)
    (hwf : s.shape.WellFormed ()) (hn : s.Named) (hp : hv.Parsed setHandlersOut)
    (hw : hv.wildcard = false) :
    ∃ rc s', action cv handleOut hv s = .ok (rc, s') ∧
      (Isolated hv.key s s' ↔
        ¬ (sameName hv.key (str "E-Tag") = true ∧ hv.opcode ∉ [Opcode.add, Opcode.pass] ∧
          complexValue cv hv.value s ≠ none ∧ s.ETagShown) ∧
        ¬ (hv.opcode ≠ .pass ∧
          (∃ value, complexValue cv hv.value s = some value ∧
            CallsHelper hv value.dropLast s) ∧ s.Respelled hv.key)) := by
  unfold action
  by_cases hpass : hv.opcode = .pass
  · exact ⟨.ok, s, if_pos hpass, iff_of_true (.refl _ s) (by simp [hpass])⟩
  rw [if_neg hpass]
  cases hval : complexValue cv hv.value s with
  | none => exact ⟨.error, s, rfl, iff_of_true (.refl _ s) (by simp)⟩
  | some value =>
    obtain ⟨rc, s', hrun, hi⟩ := handleOut_isolated hwf hn hp hw value.dropLast
    exact ⟨rc, s', hrun, hi.trans (by simp [hpass])⟩

def eTagResponse : Response :=
  .ofElts [⟨1, str "ETag", str "x", str "etag", none⟩] 4 fun f => if f = .etag then some 0 else none

theorem eTagResponse_wellFormed : eTagResponse.shape.WellFormed () :=
  single_wellFormed (by decide) (by decide)

theorem eTagResponse_named : eTagResponse.Named where
  single := fun f h hp => by
    by_cases hf : f = .etag
    · subst hf
      obtain rfl : 0 = h := Option.some.inj hp
      decide
    · simp [eTagResponse, ofElts, hf] at hp
  chain := ⟨[], rfl, by simp⟩

/-- The directive `set E-Tag y` renames the visible entry `ETag` and changes its value. -/
theorem name_isolation_eTag : ∃ (hv : OutVal) (s' : Response),
    eTagResponse.shape.WellFormed () ∧ eTagResponse.Named ∧
      parseDirective (fun _ => true) setHandlersOut 0 [str "set", str "E-Tag", str "y"] = .ok hv ∧
      hv.wildcard = false ∧
      action (fun text _ => some text) handleOut hv eTagResponse = .ok (.ok, s') ∧
      ¬ Isolated hv.key eTagResponse s' := by
  refine ⟨⟨some (str "y" ++ [0]), hashKeyLc (str "E-Tag"), str "E-Tag", .setBuiltinHeader,
    some .etag, .set, none, false, false, 0, false⟩, _, eTagResponse_wellFormed,
    eTagResponse_named, rfl, rfl, rfl, fun hi => ?_⟩
  have hkey := (hi 0 (by decide) (by decide) (by decide)).key
  revert hkey
  decide

/-- The directive `set Server y` leaves the entry `ETag` alone. -/
theorem name_isolation_server : ∃ rc s',
    action (fun text _ => some text) handleOut (⟨some (str "y" ++ [0]), hashKeyLc (str "Server"),
      str "Server", .setBuiltinHeader, some .server, .set, none, false, false, 0, false⟩ : OutVal)
      eTagResponse = .ok (rc, s') ∧ Isolated (str "Server") eTagResponse s' := by
  obtain ⟨rc, s', hrun, hi⟩ := name_isolation (fun text _ => some text) eTagResponse
    ⟨some (str "y" ++ [0]), hashKeyLc (str "Server"), str "Server", .setBuiltinHeader,
      some .server, .set, none, false, false, 0, false⟩
    eTagResponse_wellFormed eTagResponse_named
    (parseDirective_eq_ok (rfl : parseDirective (fun _ => true) setHandlersOut 0
      [str "set", str "Server", str "y"] = .ok _)).2 rfl
  refine ⟨rc, s', hrun, hi.mpr ⟨fun hc => absurd hc.1 (by decide), ?_⟩⟩
  rintro ⟨-, -, h, -, hptr, -⟩
  cases hptr

end Response

end HeadersControl
