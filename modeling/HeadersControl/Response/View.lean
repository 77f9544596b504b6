import HeadersControl.Response.Values
import HeadersControl.Rules.Refinement

/-! # Responses as the values of their names

On this view of a response a rule is a function. The parts of the list, hashes,
hidden entries, typed pointers and chains are gone.
-/

namespace HeadersControl

open Segments Segments.Shape Response

structure ResponseFields where
  contentType : Str
  contentTypeLen : ℕ
  contentTypeHash : Word
  contentTypeLowcase : Option Str
  charset : Charset
  contentLengthN : ℤ
  allowRanges : Bool
  deriving DecidableEq, Repr

@[ext] structure ResponseView where
  values : Str → List Str
  fields : ResponseFields

def Response.fields (s : Response) : ResponseFields where
  contentType := s.contentType
  contentTypeLen := s.contentTypeLen
  contentTypeHash := s.contentTypeHash
  contentTypeLowcase := s.contentTypeLowcase
  charset := s.charset
  contentLengthN := s.contentLengthN
  allowRanges := s.allowRanges

def Response.view (s : Response) : ResponseView := ⟨s.valuesOf, s.fields⟩

@[simp] theorem Response.values_view (s : Response) : s.view.values = s.valuesOf := rfl

@[simp] theorem Response.fields_view (s : Response) : s.view.fields = s.fields := rfl

/-- The fields of a content type: its length is cut in front of a charset parameter. -/
def ResponseFields.withType (d : ResponseFields) (value : Str) (hash : Word) : ResponseFields :=
  let found := findCharset (value.length + 1) 0 value
  { d with
    contentType := value
    contentTypeLen := found.elim value.length Prod.fst
    contentTypeHash := hash
    contentTypeLowcase := none
    charset := found.elim d.charset fun p => charsetOf value p.2 }

/-- The fields behind a rule, unless its handler rejects the value. -/
def HeaderVal.refield (hv : OutVal) (value : Str) (d : ResponseFields) : Option ResponseFields :=
  match hv.handler with
  | .setContentTypeHeader => some (d.withType value hv.hash)
  | .setContentLengthHeader =>
      if value = [] then some { d with contentLengthN := -1 }
      else (atosz value).map fun n : ℕ => { d with contentLengthN := n }
  | .setAcceptRangesHeader => some (if value = [] then { d with allowRanges := false } else d)
  | _ => some d

/-- The value that goes into the list: a content type is not sent as an entry. -/
def HeaderVal.listed (hv : OutVal) (value : Str) : Str :=
  if hv.handler = .setContentTypeHeader then [] else value

def HeaderVal.respond (hv : OutVal) (value : Str) (v : ResponseView) :
    Except Fault (Rc × ResponseView) :=
  match hv.refield value v.fields with
  | none => .ok (.error, v)
  | some fields => .ok (.ok, ⟨hv.onValues (hv.listed value) v.values, fields⟩)

/--
Rules that the view suffices for: `set` and `clear` of a header that is written through its typed
pointer or its chain, any rule of `Content-Type`, and exact rules of a custom name whose hash is
not 0, or `clear` under a wildcard. `E-Tag` is out, as its pointer designates another entry.
-/
def HeaderVal.Steady (hv : OutVal) : Prop :=
  (hv.handler = .setHeader → hv.opcode = .pass ∨ hv.Regular) ∧
    (hv.handler ∉ [OutHandler.setHeader, .setContentTypeHeader] →
      hv.offset ≠ some .etag ∧ (hv.opcode = .set ∨ hv.opcode = .clear ∨ hv.opcode = .pass))

instance {η ο : Type} (hv : HeaderVal η ο) : Decidable hv.Regular :=
  inferInstanceAs (Decidable (_ ∨ _))

instance (hv : OutVal) : Decidable hv.Steady := inferInstanceAs (Decidable (_ ∧ _))

namespace Response

variable {s s' : Response} {hv : OutVal} {value name : Str} {f : OutField}
  {out : Option OutField} {noCreate : Bool}

def Edits (s : Response) (run : Except Fault (Rc × Response)) (values : Str → List Str) : Prop :=
  (∃ s', run = .ok (.error, s') ∧ ¬ s.shape.pool.Reliable) ∨
    ∃ s', run = .ok (.ok, s') ∧ s'.Tidy ∧ s.shape.pool.Grows s'.shape.pool ∧
      s'.fields = s.fields ∧ s'.valuesOf = values

section Fields

theorem fields_store (x : ℕ) : (s.store out x).fields = s.fields := by cases out <;> rfl

theorem fields_repairLocation : s.repairLocation.fields = s.fields := by
  obtain ⟨c, hc⟩ := s.exists_repairLocation
  rw [hc]
  rfl

theorem Outcome.fields_eq (ho : Outcome hv value out noCreate s s') : s'.fields = s.fields := by
  cases ho with
  | unchanged => rfl
  | swept => rfl
  | created => exact fields_store _

end Fields

section Chain

theorem setBuiltinMultiHeader_writes (hc : s.CacheChain) (hoff : hv.offset = some .cacheControl)
    (he : setBuiltinMultiHeader hv value s = .ok (.ok, s')) :
    Writes (str "Cache-Control") s s' ∧ (∀ f ≠ .cacheControl, s'.ptr f = s.ptr f) ∧
      s'.fields = s.fields ∧ s.shape.pool.Grows s'.shape.pool := by
  obtain ⟨hs, hchain, hmem⟩ := hc.chain
  cases hs with
  | cons x hs =>
    have hsub : x :: hs ⊆ s.shape.slots () := fun h hh => (mem_cacheEntries.mp ((hmem h).mp hh)).1
    rw [setBuiltinMultiHeader_write hoff hchain (length_chain_le hc.wellFormed hchain hsub)] at he
    cases he
    refine ⟨⟨⟨[], (List.append_nil _).symm, by simp⟩, ?_, ?_⟩, fun _ _ => rfl, rfl,
      Pool.Grows.refl _⟩
    · intro h _ hn
      have hout : h ∉ x :: hs := by
        rw [hmem, mem_cacheEntries, hn]
        simp
      obtain ⟨hne, hout⟩ := List.ne_and_not_mem_of_not_mem_cons hout
      simp [writeChain, hne, hout]
    · intro h _ hn
      rwa [key_writeChain]
  | nil =>
    have hnone : s.ptr .cacheControl = none := hchain
    unfold setBuiltinMultiHeader at he
    rw [hoff] at he
    dsimp only at he
    rw [hnone] at he
    dsimp only at he
    split at he
    · cases he
      exact ⟨⟨⟨[], (List.append_nil _).symm, by simp⟩, fun _ _ _ => rfl, fun _ _ hn => hn⟩,
        fun _ _ => rfl, rfl, Pool.Grows.refl _⟩
    · rcases push_spec hc.wellFormed with ⟨q, hpush, -, -⟩ | ⟨a, sh, hpush, hg, -, hslots, ha⟩
      · rw [hpush] at he
        cases he
      · rw [hpush] at he
        cases he
        have hne : ∀ h ∈ s.shape.slots (), h ≠ a := by
          rintro h hh rfl
          exact ha hh
        refine ⟨⟨⟨[a], by simpa [setPtr] using hslots, by simp [setPtr]⟩, ?_, ?_⟩, ?_, rfl, hg⟩
        · intro h hh _
          simp [setPtr, hne h hh]
        · intro h hh hn
          simpa [setPtr, hne h hh] using hn
        · intro f hf
          simp [setPtr, hf]

theorem cache_step (ht : s.Tidy) (hoff : hv.offset = some .cacheControl) (hhash : hv.hash ≠ 0)
    (hw : hv.wildcard = false) (hname : sameName hv.key (str "Cache-Control") = true)
    (hop : hv.opcode = .set ∨ hv.opcode = .clear) (hclear : hv.opcode = .clear → value = []) :
    s.Edits (setBuiltinMultiHeader hv value s) (hv.onValues value s.valuesOf) := by
  obtain ⟨rc, s', he, hrel, hok⟩ := setBuiltinMultiHeader_cache ht.cache value hoff hhash
  cases rc with
  | declined => exact absurd he setBuiltinMultiHeader_ne_declined
  | error => exact Or.inl ⟨s', he, fun hr => by cases hrel hr⟩
  | ok =>
    obtain ⟨hcache, hvalues⟩ := hok rfl
    obtain ⟨hwrites, hptr, hfields, hg⟩ := setBuiltinMultiHeader_writes ht.cache hoff he
    refine Or.inr ⟨s', he, ht.writes hwrites hcache ?_ ?_ ?_, hg, hfields, funext fun name => ?_⟩
    · intro g hg
      refine hptr g ?_
      rintro rfl
      exact absurd hg (by decide)
    · intro g hg hn
      rw [single_ne_cacheControl g hg] at hn
      cases hn
    · intro hn
      exact absurd hn (by decide)
    · rw [HeaderVal.onValues, matchesName_exact hw, sameName_comm, sameName_congr hname]
      cases hn : sameName (str "Cache-Control") name with
      | false => exact hwrites.valuesOf hn
      | true =>
        have hrevalue : hv.revalue value (s.valuesOf name) = if value = [] then [] else [value] := by
          rcases hop with hop | hop
          · simp [HeaderVal.revalue, hop]
          · simp [HeaderVal.revalue, hop, hclear hop]
        rw [if_pos rfl, hrevalue, ← hvalues, valuesOf_eq, valuesOf_eq, named_congr hn]

end Chain

theorem builtin_step (ht : s.Tidy) (hf : f.Single) (hw : hv.wildcard = false)
    (hname : sameName hv.key f.nginxName = true) (hhash : hv.hash ≠ 0)
    (hoff : hv.offset = some f) (hop : hv.opcode = .set ∨ hv.opcode = .clear)
    (hclear : hv.opcode = .clear → value = []) :
    s.Edits (setBuiltinHeader hv value s) (hv.onValues value s.valuesOf) := by
  have hadd : hv.opcode ≠ .add := by rcases hop with hop | hop <;> simp [hop]
  have hre : hv.opcode ≠ .rewrite := by rcases hop with hop | hop <;> simp [hop]
  unfold setBuiltinHeader
  rw [hoff, Option.bind_some]
  cases hp : s.ptr f with
  | none =>
    dsimp only
    rw [if_neg hre]
    rcases setHeaderHelper_cases hv value (some f) false ht.cache.wellFormed with
      ⟨s', he, -, hrel⟩ | ⟨s', he, ho⟩
    · exact Or.inl ⟨s', he, hrel⟩
    · obtain ⟨ht', hvalues⟩ := create_step ht hf hw hname hhash hp hop hclear ho
      refine Or.inr ⟨s', he, ht', ?_, ?_, hvalues⟩
      · simpa using ho.grows
      · rw [ho.fields_eq, fields_repairLocation]
  | some h =>
    obtain ⟨ht', hvalues⟩ := write_step ht hf hw hname hhash hp hop hclear rfl
    refine Or.inr ⟨_, ?_, ht', Pool.Grows.refl _, rfl, hvalues⟩
    dsimp only
    rw [if_neg hadd]
    split <;> rfl

section Custom

theorem helper_step (ht : s.Tidy) (hreg : hv.Regular)
    (hfree : hv.wildcard = false → ∀ f : OutField, f ≠ .etag →
      sameName hv.key f.nginxName = false)
    (hclear : hv.opcode = .clear → value = []) (hpass : hv.opcode ≠ .pass) :
    s.Edits (setHeaderHelper hv value none noCreate s) (hv.onValues value s.valuesOf) := by
  have ht₀ := tidy_repairLocation ht
  rcases setHeaderHelper_cases hv value none noCreate ht.cache.wellFormed with
    ⟨s', he, -, hrel⟩ | ⟨s', he, ho⟩
  · exact Or.inl ⟨s', he, hrel⟩
  refine Or.inr ⟨s', he, ?_, by simpa using ho.grows, ?_, ?_⟩
  · cases hw : hv.wildcard with
    | true =>
      have hop : hv.opcode = .clear := by
        rcases hreg with ⟨hexact, -⟩ | ⟨-, hop⟩
        · cases hexact.symm.trans hw
        · exact hop
      obtain rfl := hclear hop
      exact ho.tidy_wildcard hw hop ht₀
    | false =>
      have hother : hv.matchesName (str "Cache-Control") = false := by
        rw [matchesName_exact hw, sameName_comm]
        exact hfree hw .cacheControl (by decide)
      have hsp := ho.spares hother (by simp) ht₀.cache.apart
      refine ht₀.writes (ho.writes hw)
        ⟨ho.wellFormed ht₀.cache.wellFormed, hsp.chain ht₀.cache.chain, hsp.apart⟩
        (fun g _ => ho.ptr_other (by simp)) ?_ ?_
      · intro g hg hn
        rw [hfree hw g hg.2] at hn
        cases hn
      · intro hn
        have := hfree hw .location (by decide)
        rw [OutField.nginxName, hn] at this
        cases this
  · rw [ho.fields_eq, fields_repairLocation]
  · rw [ho.valuesOf_eq hreg hclear hpass ht₀.cache.wellFormed, valuesOf_repairLocation ht]

theorem nginxName_entry (hf : f ≠ .etag) : ∃ e ∈ setHandlersOut.entries, e.name = f.nginxName := by
  revert hf
  cases f <;> decide

theorem custom_name (hp : hv.Parsed setHandlersOut) (hcustom : hv.handler = .setHeader)
    (hf : f ≠ .etag) : sameName hv.key f.nginxName = false := by
  rcases hp.cases with ⟨e, he, -, -, hhandler, -⟩ | ⟨hnone, -, -⟩
  · exact absurd (hhandler.symm.trans hcustom) (builtin_entry e he)
  · obtain ⟨e, he, hn⟩ := nginxName_entry hf
    rw [← hn]
    exact hnone e he

theorem offset_single : ∀ e ∈ setHandlersOut.entries, e.handler ≠ .setContentTypeHeader →
    ∃ f, e.offset = some f ∧ (f = .cacheControl → e.handler = .setBuiltinMultiHeader) := by
  intro e he hne
  have hall : ∀ e ∈ setHandlersOut.entries, e.handler ≠ .setContentTypeHeader →
      e.offset.isSome ∧
        (e.offset = some .cacheControl → e.handler = .setBuiltinMultiHeader) := by decide
  obtain ⟨hsome, hcache⟩ := hall e he hne
  obtain ⟨f, hf⟩ := Option.isSome_iff_exists.mp hsome
  exact ⟨f, hf, fun hc => hcache (hc ▸ hf)⟩

theorem contentType_entry : ∀ e ∈ setHandlersOut.entries, e.handler = .setContentTypeHeader →
    e.name = str "Content-Type" := by decide

theorem contentType_name (hp : hv.Parsed setHandlersOut)
    (htype : hv.handler = .setContentTypeHeader) : sameName hv.key f.nginxName = false := by
  obtain ⟨e, he, hname, hhandler, -⟩ := hp.of_entry (by simp [htype])
  rw [contentType_entry e he (hhandler.symm.trans htype)] at hname
  rw [sameName_congr hname]
  cases f <;> decide

end Custom

section Handler

/-- What a handler returns on a response mirrors what the rule returns on its view. -/
abbrev MirrorsOut : Response → Except Fault (Rc × Response) → Except Fault (Rc × ResponseView) →
    Prop :=
  Mirrors view Tidy fun s => s.shape.pool.Reliable

theorem handleOut_fields (hv : OutVal) (value : Str) (s : Response) :
    match hv.refield value s.fields with
    | none => handleOut hv value s = .ok (.error, s)
    | some d => ∃ t : Response, t.shape = s.shape ∧ t.cell = s.cell ∧ t.ptr = s.ptr ∧
        t.fields = d ∧ handleOut hv value s = match hv.handler with
          | .setHeader => setHeaderHelper hv value none false t
          | .setContentTypeHeader => setHeaderHelper hv [] none true t
          | .setBuiltinMultiHeader => setBuiltinMultiHeader hv value t
          | _ => setBuiltinHeader hv value t := by
  unfold HeaderVal.refield handleOut
  cases hv.handler with
  | setHeader => exact ⟨s, rfl, rfl, rfl, rfl, rfl⟩
  | setBuiltinHeader => exact ⟨s, rfl, rfl, rfl, rfl, rfl⟩
  | setBuiltinMultiHeader => exact ⟨s, rfl, rfl, rfl, rfl, rfl⟩
  | setAcceptRangesHeader =>
    dsimp only
    unfold setAcceptRangesHeader
    split
    · exact ⟨{ s with allowRanges := false }, rfl, rfl, rfl, rfl, rfl⟩
    · exact ⟨s, rfl, rfl, rfl, rfl, rfl⟩
  | setContentLengthHeader =>
    dsimp only
    unfold setContentLengthHeader
    by_cases hv₀ : value = []
    · rw [if_pos hv₀, if_pos hv₀]
      refine ⟨{ s with contentLengthN := -1 }, rfl, rfl, rfl, rfl, ?_⟩
      rw [hv₀]
      rfl
    · rw [if_neg hv₀, if_neg hv₀]
      cases atosz value with
      | none => rfl
      | some n => exact ⟨{ s with contentLengthN := n }, rfl, rfl, rfl, rfl, rfl⟩
  | setContentTypeHeader =>
    dsimp only
    unfold setContentTypeHeader
    have htype : ∀ t : Response, t.shape = s.shape → t.cell = s.cell → t.ptr = s.ptr →
        t.fields = s.fields.withType value hv.hash → ∃ t' : Response, t'.shape = s.shape ∧
          t'.cell = s.cell ∧ t'.ptr = s.ptr ∧ t'.fields = s.fields.withType value hv.hash ∧
          setHeaderHelper hv [] none true t = setHeaderHelper hv [] none true t' :=
      fun t hshape hcell hptr hfields => ⟨t, hshape, hcell, hptr, hfields, rfl⟩
    apply htype
    · split <;> rfl
    · split <;> rfl
    · split <;> rfl
    · unfold ResponseFields.withType
      split <;> rename_i hfound <;> simp only [hfound] <;> rfl

theorem Tidy.congr (ht : s.Tidy) (hshape : s'.shape = s.shape) (hcell : s'.cell = s.cell)
    (hptr : s'.ptr = s.ptr) : s'.Tidy := by
  have hsp := Spares.congr ht.cache.apart hshape hcell hptr
  refine ⟨⟨hshape ▸ ht.cache.wellFormed, hsp.chain ht.cache.chain, hsp.apart⟩, ?_, ?_, ?_⟩
  · rw [hptr, hcell]
    exact ht.typed
  · unfold Response.named Response.shown
    rw [hshape, hcell, hptr]
    exact ht.single
  · unfold LocationShown Response.shown
    rw [hshape, hcell, hptr]
    exact ht.location

theorem valuesOf_congr (hshape : s'.shape = s.shape) (hcell : s'.cell = s.cell) :
    s'.valuesOf = s.valuesOf := by
  funext name
  unfold Response.valuesOf visible Response.shown
  rw [hshape, hcell]

theorem Edits.mirrors {t : Response} {run : Except Fault (Rc × Response)}
    {values : Str → List Str} (he : t.Edits run values) (hshape : t.shape = s.shape) :
    MirrorsOut s run (.ok (.ok, ⟨values, t.fields⟩)) := by
  unfold Edits at he
  rw [hshape] at he
  rcases he with ⟨s', rfl, hrel⟩ | ⟨s', rfl, ht', hg, hfields, rfl⟩
  · exact .exhausted hrel
  · exact .done ht' (fun hr => hg.reliable.mpr hr) (by rw [view, hfields])

/-- On a response that is in step with its pointers, a steady rule does what it does to the view. -/
theorem handleOut_mirrors (ht : s.Tidy) (hp : hv.Parsed setHandlersOut) (hst : hv.Steady)
    (hclear : hv.opcode = .clear → value = []) (hpass : hv.opcode ≠ .pass) :
    MirrorsOut s (handleOut hv value s) (hv.respond value s.view) := by
  have hfields := handleOut_fields hv value s
  unfold HeaderVal.respond
  rw [fields_view]
  cases hd : hv.refield value s.fields with
  | none =>
    rw [hd] at hfields
    dsimp only at hfields ⊢
    rw [hfields]
    exact .rejected
  | some d =>
    rw [hd] at hfields
    obtain ⟨t, hshape, hcell, hptr, rfl, he⟩ := hfields
    have ht' := ht.congr hshape hcell hptr
    dsimp only
    rw [he, values_view, ← valuesOf_congr hshape hcell]
    apply Edits.mirrors _ hshape
    have hexact : hv.handler ≠ .setHeader → hv.wildcard = false ∧ hv.hash ≠ 0 := fun hh => by
      obtain ⟨-, -, -, -, -, hw, hhash, -⟩ := hp.of_entry hh
      exact ⟨hw, hhash⟩
    have hsteady : hv.handler ≠ .setHeader → hv.handler ≠ .setContentTypeHeader →
        hv.offset ≠ some .etag ∧ (hv.opcode = .set ∨ hv.opcode = .clear) := fun hh hh' => by
      obtain ⟨hoff, hop⟩ := hst.2 (by simp [hh, hh'])
      exact ⟨hoff, hop.imp_right fun hop => hop.resolve_right hpass⟩
    have hsingle : hv.handler ≠ .setHeader → hv.handler ≠ .setContentTypeHeader →
        hv.handler ≠ .setBuiltinMultiHeader →
        t.Edits (setBuiltinHeader hv value t) (hv.onValues value t.valuesOf) := by
      intro h₁ h₂ h₃
      obtain ⟨hw, hhash⟩ := hexact h₁
      obtain ⟨hetag, hop⟩ := hsteady h₁ h₂
      obtain ⟨e, hm, -, hhandler, hoff, -⟩ := hp.of_entry h₁
      obtain ⟨f, hf, hcache⟩ := offset_single e hm (hhandler ▸ h₂)
      rw [hf] at hoff
      have hne : f ≠ .etag := by
        rintro rfl
        exact hetag hoff
      exact builtin_step ht' ⟨fun hc => h₃ (hhandler.trans (hcache hc)), hne⟩ hw
        (nginxName_of_offset hp hoff hne) hhash hoff hop hclear
    unfold HeaderVal.listed
    cases hh : hv.handler with
    | setHeader =>
      exact helper_step ht' ((hst.1 hh).resolve_left hpass) (fun _ f hf => custom_name hp hh hf)
        hclear hpass
    | setContentTypeHeader =>
      obtain ⟨hw, hhash⟩ := hexact (by simp [hh])
      exact helper_step ht' (Or.inl ⟨hw, hhash⟩) (fun _ f _ => contentType_name hp hh)
        (fun _ => rfl) hpass
    | setBuiltinMultiHeader =>
      obtain ⟨hw, hhash⟩ := hexact (by simp [hh])
      obtain ⟨hoff, hname⟩ := multi_of_handler hp hh
      exact cache_step ht' hoff hhash hw hname (hsteady (by simp [hh]) (by simp [hh])).2 hclear
    | setBuiltinHeader => exact hsingle (by simp [hh]) (by simp [hh]) (by simp [hh])
    | setAcceptRangesHeader => exact hsingle (by simp [hh]) (by simp [hh]) (by simp [hh])
    | setContentLengthHeader => exact hsingle (by simp [hh]) (by simp [hh]) (by simp [hh])

end Handler

end Response

end HeadersControl