import HeadersControl.Base.PtrArray
import HeadersControl.Response.CacheControl
import HeadersControl.Rules.Refinement

/-! # `Cache-Control` before nginx 1.23

Older versions of nginx keep the entries of `Cache-Control` in an array of pointers
and not in a chain. The handlers of this build do to the entries what those of the
newer build do, where the array lists the chain.
-/

namespace HeadersControl

open Segments Segments.Shape Response

/-- A response in a build with arrays. The fields `next` of its entries do not exist there. -/
structure ArrayResponse where
  rest : Response
  cacheControl : PtrArray

/-- The loop that hides the elements of the array behind the first one. -/
def hideElts : List (Option ℕ) → Response → Except Fault Response
  | [], s => .ok s
  | none :: _, _ => .error .unset
  | some h :: hs, s => hideElts hs (s.setCell h (s.cell h).hide)

/-- The handler of `Cache-Control`, before nginx 1.23. -/
def setBuiltinMultiHeaderArray (hv : OutVal) (value : Str) (t : ArrayResponse) :
    Except Fault (Rc × ArrayResponse) :=
  match hv.offset with
  | none => .error .null
  | some _ =>
      match if t.cacheControl.elts.isNone then t.cacheControl.init else (true, t.cacheControl) with
      | (false, pa) => .ok (.error, { t with cacheControl := pa })
      | (true, pa) =>
          match pa.elts.getD [] with
          | first :: elts =>
              match hideElts elts t.rest with
              | .error e => .error e
              | .ok s =>
                  match first with
                  | none => .error .unset
                  | some h =>
                      let hash := if value = [] then 0 else hv.hash
                      .ok (.ok, ⟨s.setCell h { s.cell h with value, hash }, pa⟩)
          | [] =>
              if value = [] then .ok (.ok, { t with cacheControl := pa })
              else match pa.push with
                | (false, pa) => .ok (.error, { t with cacheControl := pa })
                | (true, pa) =>
                    match t.rest.shape.push () with
                    | .error e => .error e
                    | .ok (none, sh) => .ok (.error, ⟨t.rest.setShape sh, pa⟩)
                    | .ok (some ho, sh) =>
                        let key := str "Cache-Control"
                        let elt :=
                          { t.rest.cell ho with value, hash := hv.hash, key, next := none }
                        .ok (.ok, ⟨(t.rest.setShape sh).setCell ho elt, pa.assignLast ho⟩)

def handleOutArray (hv : OutVal) (value : Str) (t : ArrayResponse) :
    Except Fault (Rc × ArrayResponse) :=
  match hv.handler with
  | .setBuiltinMultiHeader => setBuiltinMultiHeaderArray hv value t
  | _ => (handleOut hv value t.rest).map fun p => (p.1, { t with rest := p.2 })

/-- `ngx_http_headers_control_exec_output_header`. -/
def execOutputHeaderArray (cv : ComplexValue → ArrayResponse → Option Str) (hv : OutVal)
    (t : ArrayResponse) : Except Fault (Rc × ArrayResponse) :=
  execHeader cv handleOutArray hv t

namespace Response

section Head

variable {s s' : Response} {hv : OutVal} {value : Str} {out : Option OutField} {noCreate : Bool}

def withHead (s : Response) (x : Option ℕ) : Response := s.setPtr .cacheControl x

@[simp] theorem shape_withHead (x : Option ℕ) : (s.withHead x).shape = s.shape := rfl

@[simp] theorem cell_withHead (x : Option ℕ) : (s.withHead x).cell = s.cell := rfl

@[simp] theorem setCell_withHead (x : Option ℕ) (h : ℕ) (e : TableElt) :
    (s.withHead x).setCell h e = (s.setCell h e).withHead x := rfl

@[simp] theorem setShape_withHead (x : Option ℕ) (sh : Shape Unit) :
    (s.withHead x).setShape sh = (s.setShape sh).withHead x := rfl

theorem withHead_setPtr (x y : Option ℕ) :
    (s.setPtr .cacheControl x).withHead y = s.withHead y := by
  unfold withHead setPtr
  dsimp only
  rw [Function.update_idem]

theorem ptr_withHead {f : OutField} (hf : f ≠ .cacheControl) (x : Option ℕ) :
    (s.withHead x).ptr f = s.ptr f := by
  simp [withHead, setPtr, hf]

theorem store_withHead (hout : out ≠ some .cacheControl) (x : Option ℕ) (h : ℕ) :
    (s.withHead x).store out h = (s.store out h).withHead x := by
  cases out with
  | none => rfl
  | some f =>
    have hf : f ≠ .cacheControl := fun he => hout (congrArg some he)
    unfold withHead store setPtr
    dsimp only
    rw [Function.update_comm hf]

def atHead {α : Type} (x : Option ℕ) : Except Fault (α × Response) → Except Fault (α × Response) :=
  Except.map fun p => (p.1, p.2.withHead x)

theorem repairLocation_withHead (x : Option ℕ) :
    (s.withHead x).repairLocation = s.repairLocation.withHead x := by
  unfold repairLocation
  rw [ptr_withHead (by decide)]
  cases s.ptr .location with
  | none => rfl
  | some h =>
    dsimp only
    rw [cell_withHead]
    split
    · rfl
    · rfl

theorem scan_withHead (hout : out ≠ some .cacheControl) (x : Option ℕ) (n : ℕ)
    (p : PartPtr Unit) (i : ℕ) (matched : Bool) :
    scan hv value out n p i matched (s.withHead x) =
      atHead x (scan hv value out n p i matched s) := by
  induction n generalizing p i matched s with
  | zero => rfl
  | succ n ih =>
    unfold scan
    rw [shape_withHead]
    cases s.shape.seek p i with
    | none => rfl
    | some q =>
      obtain ⟨p, i⟩ := q
      dsimp only
      rw [cell_withHead]
      split_ifs
      · rfl
      · exact ih _ _ _
      · rfl
      · rw [setCell_withHead, store_withHead hout, ih]
      · rw [setCell_withHead, store_withHead hout, ih]
      · exact ih _ _ _

theorem append_withHead (hout : out ≠ some .cacheControl) (x : Option ℕ) :
    append hv value out (s.withHead x) = atHead x (append hv value out s) := by
  unfold append
  rw [shape_withHead]
  cases s.shape.push () with
  | error e => rfl
  | ok q =>
    obtain ⟨_ | h, sh⟩ := q
    · rfl
    · dsimp only
      cases sh.pool.allocBytes with
      | mk done pool =>
        cases done with
        | false => rfl
        | true =>
          dsimp only
          rw [setShape_withHead, setCell_withHead, store_withHead hout]
          rfl

theorem setHeaderHelper_withHead (hout : out ≠ some .cacheControl) (x : Option ℕ) :
    setHeaderHelper hv value out noCreate (s.withHead x) =
      atHead x (setHeaderHelper hv value out noCreate s) := by
  unfold setHeaderHelper
  dsimp only
  rw [repairLocation_withHead, shape_withHead, append_withHead hout, scan_withHead hout]
  by_cases happend : hv.opcode = .append
  · rw [if_pos happend, if_pos happend]
  · rw [if_neg happend, if_neg happend]
    cases scan hv value out (scanFuel s.repairLocation.shape) (.inline ()) 0 false
        s.repairLocation with
    | error e => rfl
    | ok q =>
      obtain ⟨stop, t⟩ := q
      rcases stop with _ | _ | _
      · rfl
      · dsimp only [atHead, Except.map]
        rw [append_withHead hout]
        split_ifs
        · rfl
        · rfl
      · rfl

theorem setBuiltinHeader_withHead (hoff : hv.offset ≠ some .cacheControl) (x : Option ℕ) :
    setBuiltinHeader hv value (s.withHead x) = atHead x (setBuiltinHeader hv value s) := by
  have hptr : hv.offset.bind (s.withHead x).ptr = hv.offset.bind s.ptr := by
    cases ho : hv.offset with
    | none => rfl
    | some f => exact ptr_withHead (fun hf => hoff (ho.trans (congrArg some hf))) x
  unfold setBuiltinHeader
  rw [hptr]
  cases hv.offset.bind s.ptr with
  | none =>
    dsimp only
    rw [setHeaderHelper_withHead hoff]
    split_ifs
    · rfl
    · rfl
  | some h =>
    dsimp only
    split_ifs
    · rfl
    · rfl
    · rfl

theorem handleOut_withHead (hmulti : hv.handler ≠ .setBuiltinMultiHeader)
    (hoff : hv.offset ≠ some .cacheControl) (x : Option ℕ) :
    handleOut hv value (s.withHead x) = atHead x (handleOut hv value s) := by
  have hnone : (none : Option OutField) ≠ some .cacheControl := by decide
  unfold handleOut
  cases hh : hv.handler with
  | setHeader => exact setHeaderHelper_withHead hnone x
  | setBuiltinHeader => exact setBuiltinHeader_withHead hoff x
  | setAcceptRangesHeader =>
    dsimp only
    unfold setAcceptRangesHeader
    split_ifs
    · exact setBuiltinHeader_withHead (s := { s with allowRanges := false }) hoff x
    · exact setBuiltinHeader_withHead hoff x
  | setContentLengthHeader =>
    dsimp only
    unfold setContentLengthHeader
    split_ifs
    · exact setBuiltinHeader_withHead (s := { s with contentLengthN := -1 }) hoff x
    · cases atosz value with
      | none => rfl
      | some n => exact setBuiltinHeader_withHead (s := { s with contentLengthN := n }) hoff x
  | setContentTypeHeader =>
    dsimp only
    unfold setContentTypeHeader
    dsimp only
    cases findCharset (value.length + 1) 0 value with
    | none =>
      let typed : Response := { s with
        contentType := value, contentTypeLen := value.length, contentTypeHash := hv.hash
        contentTypeLowcase := none }
      exact setHeaderHelper_withHead (s := typed) hnone x
    | some p =>
      let typed : Response := { s with
        contentType := value, contentTypeLen := p.1, contentTypeHash := hv.hash
        contentTypeLowcase := none, charset := charsetOf value p.2 }
      exact setHeaderHelper_withHead (s := typed) hnone x
  | setBuiltinMultiHeader => exact absurd hh hmulti

end Head

def Same (s : Response) (t : ArrayResponse) : Prop :=
  ∃ x, t.rest = s.withHead x

structure Agrees (s : Response) (t : ArrayResponse) : Prop where
  same : Same s t
  listed : ∃ hs, Chained s.cell (s.ptr .cacheControl) hs ∧
    t.cacheControl.elts.getD [] = hs.map some
  ample : ∀ n, t.cacheControl.fails n = false

variable {s s' : Response} {t : ArrayResponse} {hv : OutVal} {value : Str} {hs : List ℕ}

theorem hideElts_spec (hn : hs.Nodup) : hideElts (hs.map some) s =
    .ok { s with cell := fun h => if h ∈ hs then (s.cell h).hide else s.cell h } := by
  induction hs generalizing s with
  | nil => simp [hideElts]
  | cons x hs ih =>
    obtain ⟨hx, hn⟩ := List.nodup_cons.mp hn
    rw [List.map_cons, hideElts, ih hn]
    congr 2
    ext1 h
    by_cases hh : h = x
    · subst hh
      simp [hx]
    · simp [hh]

theorem chained_subset (hc : s.CacheChain) (hchain : Chained s.cell (s.ptr .cacheControl) hs) :
    hs ⊆ s.shape.slots () := by
  obtain ⟨cs, hcs, hentries⟩ := hc.chain
  obtain rfl := hcs.unique hchain
  intro h hh
  exact (mem_cacheEntries.mp ((hentries h).mp hh)).1

/-- The handler of `Cache-Control` does to the array what it does to the chain. -/
theorem setBuiltinMultiHeader_agrees (value : Str) (hc : s.CacheChain) (ha : Agrees s t)
    (hoff : hv.offset = some .cacheControl) :
    Matched Agrees Same (setBuiltinMultiHeader hv value s)
      (setBuiltinMultiHeaderArray hv value t) := by
  obtain ⟨rest, pa⟩ := t
  obtain ⟨⟨y, hrest⟩, ⟨hs, hchain, hlist⟩, hmem⟩ := ha
  dsimp only at hrest hlist hmem
  subst hrest
  obtain ⟨pa₁, hinit, helts, hfails⟩ := PtrArray.init_spec hmem
  rw [hlist] at helts
  have hmem₁ : ∀ n, pa₁.fails n = false := fun n => by rw [hfails, hmem]
  unfold setBuiltinMultiHeaderArray
  rw [hoff]
  dsimp only
  rw [hinit]
  dsimp only
  cases hs with
  | cons x hs =>
    have hcons : pa₁.elts = some (some x :: hs.map some) := helts
    have hn := List.nodup_cons.mp hchain.nodup
    have hlen : hs.length ≤ s.shape.pool.brk :=
      length_chain_le hc.wellFormed hchain (chained_subset hc hchain)
    rw [setBuiltinMultiHeader_write hoff hchain hlen, hcons]
    dsimp only [Option.getD_some]
    rw [hideElts_spec hn.2]
    dsimp only
    have hsame : ∀ s₁ : Response, s₁ = (writeChain hv value s x hs).withHead y →
        Matched Agrees Same (.ok (.ok, writeChain hv value s x hs)) (.ok (.ok, ⟨s₁, pa₁⟩)) := by
      rintro _ rfl
      refine .ended ⟨y, rfl⟩ fun _ => ⟨⟨y, rfl⟩, ⟨x :: hs, ?_, ?_⟩, hmem₁⟩
      · exact hchain.congr fun h _ => next_writeChain h
      · rw [helts]
        rfl
    apply hsame
    unfold setCell withHead setPtr writeChain
    congr 1
    ext1 h
    by_cases hh : h = x
    · subst hh
      simp [hn.1]
    · simp [hh]
  | nil =>
    have hnil : pa₁.elts = some [] := helts
    have hnone : s.ptr .cacheControl = none := hchain
    unfold setBuiltinMultiHeader
    rw [hoff, hnil]
    dsimp only [Option.getD_some]
    rw [hnone]
    dsimp only
    split_ifs with hv₀
    · refine .ended ⟨y, rfl⟩ fun _ => ⟨⟨y, rfl⟩, ⟨[], hchain, ?_⟩, hmem₁⟩
      rw [helts]
      rfl
    · obtain ⟨pa₂, hpush, helts₂, hfails₂⟩ := PtrArray.push_spec hmem₁
      rw [hpush]
      dsimp only
      rw [shape_withHead]
      rcases push_spec hc.wellFormed with ⟨q, hpush, -, -⟩ | ⟨a, sh, hpush, -, -, -, -⟩
      · rw [hpush]
        exact .ended ⟨y, rfl⟩ fun hne => absurd rfl hne
      · rw [hpush]
        dsimp only
        have hsame : Same
            (((s.setShape sh).setCell a { s.cell a with
              value, hash := hv.hash, key := str "Cache-Control", next := none }).setPtr
                .cacheControl (some a))
            ⟨((s.withHead y).setShape sh).setCell a { s.cell a with
              value, hash := hv.hash, key := str "Cache-Control", next := none },
              pa₂.assignLast a⟩ := by
          refine ⟨y, ?_⟩
          rw [withHead_setPtr]
          rfl
        refine .ended hsame fun _ => ⟨hsame, ⟨[a], ?_, ?_⟩, ?_⟩
        · exact ⟨by simp [setPtr], by simp [setPtr, Chained]⟩
        · simp [PtrArray.assignLast, helts₂, hnil]
        · intro n
          exact (congrFun hfails₂ n).trans (hmem₁ n)

theorem Outcome.chained {out : Option OutField} {noCreate : Bool} (hout : out ≠ some .cacheControl)
    (ho : Outcome hv value out noCreate s s') (hsub : hs ⊆ s.shape.slots ())
    (hc : Chained s.cell (s.ptr .cacheControl) hs) :
    Chained s'.cell (s'.ptr .cacheControl) hs := by
  cases ho with
  | unchanged => exact hc
  | swept =>
    rw [ptr_sweep_of_ne hout]
    exact hc.congr fun h _ => next_sweep h
  | @created a sh _ _ _ _ hnew =>
    rw [ptr_store_of_ne hout]
    apply hc.congr
    intro h hh
    have hne : h ≠ a := by
      rintro rfl
      exact hnew (hsub hh)
    simp [hne]

section Links

variable {out : Option OutField} {noCreate : Bool}

theorem setHeaderHelper_chained (hwf : s.shape.WellFormed ()) (hout : out ≠ some .cacheControl)
    (hsub : hs ⊆ s.shape.slots ()) (hc : Chained s.cell (s.ptr .cacheControl) hs)
    (he : setHeaderHelper hv value out noCreate s = .ok (.ok, s')) :
    Chained s'.cell (s'.ptr .cacheControl) hs := by
  obtain ⟨rc, s₁, he₁, -, hok⟩ := setHeaderHelper_run hv value out noCreate hwf
  cases he.symm.trans he₁
  apply (hok rfl).chained hout
  · simpa using hsub
  · rw [ptr_repairLocation]
    exact hc.congr fun h _ => next_repairLocation s h

theorem setBuiltinHeader_chained (hwf : s.shape.WellFormed ())
    (hoff : hv.offset ≠ some .cacheControl) (hsub : hs ⊆ s.shape.slots ())
    (hc : Chained s.cell (s.ptr .cacheControl) hs)
    (he : setBuiltinHeader hv value s = .ok (.ok, s')) :
    Chained s'.cell (s'.ptr .cacheControl) hs := by
  have hwrite : ∀ (h : ℕ) (e : TableElt), e.next = (s.cell h).next →
      Chained (s.setCell h e).cell ((s.setCell h e).ptr .cacheControl) hs := by
    intro h e hnext
    apply hc.congr
    intro x _
    by_cases hx : x = h
    · subst hx
      simpa using hnext
    · simp [hx]
  unfold setBuiltinHeader at he
  split at he
  · split_ifs at he
    · cases he
      exact hc
    · exact setHeaderHelper_chained hwf hoff hsub hc he
  · split_ifs at he
    · cases he
      exact hc
    · cases he
      exact hwrite _ _ rfl
    · cases he
      exact hwrite _ _ rfl

theorem handleOut_chained (hmulti : hv.handler ≠ .setBuiltinMultiHeader)
    (hwf : s.shape.WellFormed ()) (hoff : hv.offset ≠ some .cacheControl)
    (hsub : hs ⊆ s.shape.slots ()) (hc : Chained s.cell (s.ptr .cacheControl) hs)
    (he : handleOut hv value s = .ok (.ok, s')) :
    Chained s'.cell (s'.ptr .cacheControl) hs := by
  have hnone : (none : Option OutField) ≠ some .cacheControl := by decide
  obtain ⟨u, v, hshape, hcell, hptr, hcall⟩ := handleOut_calls hv value s
  rw [← hshape] at hwf hsub
  rw [← hcell, ← hptr] at hc
  rcases hcall with hrun | ⟨noCreate, hrun⟩ | ⟨-, hrun⟩ | ⟨hm, -⟩
  · cases hrun.symm.trans he
  · exact setHeaderHelper_chained hwf hnone hsub hc (hrun.symm.trans he)
  · exact setBuiltinHeader_chained hwf hoff hsub hc (hrun.symm.trans he)
  · exact absurd hm hmulti

end Links

theorem handleOut_agrees (value : Str) (hc : s.CacheChain) (ha : Agrees s t)
    (hp : hv.Parsed setHandlersOut) :
    Matched Agrees Same (handleOut hv value s) (handleOutArray hv value t) := by
  by_cases hmulti : hv.handler = .setBuiltinMultiHeader
  · unfold handleOut handleOutArray
    rw [hmulti]
    exact setBuiltinMultiHeader_agrees value hc ha (multi_of_handler hp hmulti).1
  · have hoff : hv.offset ≠ some .cacheControl := fun hoff =>
      hmulti (multi_of_sameName hp (nginxName_of_offset hp hoff (by decide))).1
    obtain ⟨⟨y, hrest⟩, ⟨hs, hchain, hlist⟩, hmem⟩ := ha
    obtain ⟨rc, s', he⟩ := handleOut_returns value hc hp
    have harray : handleOutArray hv value t =
        (handleOut hv value t.rest).map fun p => (p.1, { t with rest := p.2 }) := by
      unfold handleOutArray
      split
      · exact absurd ‹_› hmulti
      · rfl
    rw [harray, hrest, handleOut_withHead hmulti hoff, he]
    refine .ended ⟨y, rfl⟩ fun hrc => ⟨⟨y, rfl⟩, ⟨hs, ?_, hlist⟩, hmem⟩
    have hok : rc = .ok := by
      cases rc with
      | ok => rfl
      | error => exact absurd rfl hrc
      | declined => exact absurd he handleOut_ne_declined
    subst hok
    exact handleOut_chained hmulti hc.wellFormed hoff (chained_subset hc hchain) hchain he

end Response

end HeadersControl
