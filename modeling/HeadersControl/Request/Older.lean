import HeadersControl.Request.Derived

/-! # Requests before nginx 1.23

Older versions of nginx have neither the typed pointers of multi-valued headers nor
the links between entries. No other handler uses them, so that it does the same
without them.
-/

namespace HeadersControl

open Segments Segments.Shape

variable {ρ : Type} [DecidableEq ρ]

def TableElt.unlinked (e : TableElt) : TableElt := { e with next := none }

def HeadersIn.older (h : HeadersIn) : HeadersIn :=
  { h with ptr := fun f => if f.handler = .setBuiltinMultiHeader then none else h.ptr f }

def World.older (w : World ρ) : World ρ :=
  { w with cell := fun s => (w.cell s).unlinked, headersIn := fun r => (w.headersIn r).older }

def Frame.older (x : Option (Option ℕ)) (fr : Frame ρ) : Frame ρ := ⟨fr.w.older, fr.h.or x⟩

def atOlder {α : Type} (x : Option (Option ℕ)) :
    Except Fault (α × Frame ρ) → Except Fault (α × Frame ρ) :=
  Except.map fun p => (p.1, p.2.older x)

variable {r : ρ} {hv : InVal} {f : InField} {value : Str} {out : OutRef} {w : World ρ}
  {fr fr' : Frame ρ} {x : Option (Option ℕ)}

def OutRef.Single (out : OutRef) : Prop :=
  ∀ f, out = .field f → f.handler ≠ .setBuiltinMultiHeader

omit [DecidableEq ρ] in
@[simp] theorem shape_older : (fr.older x).w.shape = fr.w.shape := rfl

omit [DecidableEq ρ] in
theorem setList_older (sh : Shape ρ) (cell : ℕ → TableElt) :
    (fr.older x).setList sh (fun s => (cell s).unlinked) = (fr.setList sh cell).older x := rfl

theorem update_unlinked (cell : ℕ → TableElt) (a : ℕ) (e : TableElt) :
    Function.update (fun s => (cell s).unlinked) a e.unlinked =
      fun s => (Function.update cell a e s).unlinked :=
  (Function.comp_update TableElt.unlinked cell a e).symm

omit [DecidableEq ρ] in
theorem update_older (a : ℕ) (e : TableElt) (sh : Shape ρ) :
    (fr.older x).setList sh (Function.update (fr.older x).w.cell a e.unlinked) =
      (fr.setList sh (Function.update fr.w.cell a e)).older x := by
  rw [← setList_older, ← update_unlinked]
  rfl

theorem setHeadersIn_older (h : HeadersIn) :
    w.older.setHeadersIn r h.older = (w.setHeadersIn r h).older := by
  unfold World.setHeadersIn World.older
  dsimp only
  congr 1
  exact (Function.comp_update HeadersIn.older w.headersIn r h).symm

theorem setPtr_older (hf : f.handler ≠ .setBuiltinMultiHeader) (y : Option ℕ) :
    w.older.setPtr r f y = (w.setPtr r f y).older := by
  unfold World.setPtr
  rw [← setHeadersIn_older]
  congr 1
  unfold HeadersIn.older
  dsimp only [World.older, HeadersIn.older]
  congr 1
  funext g
  by_cases hg : g = f
  · subst hg
    simp [hf]
  · simp [hg]

theorem setPtr_multi_older (hf : f.handler = .setBuiltinMultiHeader) (y : Option ℕ) :
    (w.setPtr r f y).older = w.older := by
  unfold World.setPtr World.setHeadersIn World.older
  dsimp only
  congr 1
  funext r'
  by_cases hr : r' = r
  · subst hr
    rw [Function.update_self]
    unfold HeadersIn.older
    dsimp only
    congr 1
    funext g
    by_cases hg : g = f
    · subst hg
      simp [hf]
    · simp [hg]
  · rw [Function.update_of_ne hr]

omit [DecidableEq ρ] in
theorem ptr_older (hf : f.handler ≠ .setBuiltinMultiHeader) :
    ((fr.older x).w.headersIn r).ptr f = (fr.w.headersIn r).ptr f := if_neg hf

theorem store_older (hout : out.Single) (y : Option ℕ) :
    (fr.older x).store r out y = (fr.store r out y).older x := by
  cases out with
  | null => rfl
  | localVar => rfl
  | field f =>
    unfold Frame.store
    dsimp only [Frame.older]
    rw [setPtr_older (hout f rfl)]

theorem propagate_older (rs : List ρ) : (w.older.propagate r rs) = (w.propagate r rs).older := by
  induction rs generalizing w r with
  | nil => rfl
  | cons p rs ih =>
    have hcopy : w.older.copyHeadersIn r p = (w.copyHeadersIn r p).older := by
      unfold World.copyHeadersIn World.older
      dsimp only
      congr 1
      exact (Function.comp_update HeadersIn.older w.headersIn p (w.headersIn r)).symm
    rw [World.propagate, World.propagate, hcopy, ih]

theorem scan_older (hout : out.Single) (n : ℕ) (p : PartPtr ρ) (i : ℕ) (matched : Option ℕ) :
    scan r hv value out n p i matched (fr.older x) =
      atOlder x (scan r hv value out n p i matched fr) := by
  induction n generalizing p i matched fr with
  | zero => rfl
  | succ n ih =>
    unfold scan
    rw [shape_older]
    cases fr.w.shape.seek p i with
    | none => rfl
    | some q =>
      obtain ⟨p, i⟩ := q
      dsimp only
      have hkey : ((fr.older x).w.cell (fr.w.shape.addr p i)).key =
          (fr.w.cell (fr.w.shape.addr p i)).key := rfl
      rw [hkey]
      split_ifs
      · rfl
      · rfl
      · cases rmHeaderHelper fr.w.shape r p i with
        | error e => rfl
        | ok res =>
          obtain ⟨rc, sh⟩ := res
          dsimp only
          have hlist := @update_older ρ fr x (fr.w.shape.addr p i)
            { fr.w.cell (fr.w.shape.addr p i) with hash := 0 } sh
          split_ifs
          · rfl
          · refine Eq.trans ?_ (ih _ _ _)
            rw [← store_older hout, ← hlist]
            rfl
          · exact congrArg (fun fr => Except.ok (ScanEnd.returned .error, fr)) hlist
      · refine Eq.trans ?_ (ih _ _ _)
        rw [← store_older hout, ← update_older]
        rfl
      · exact ih _ _ _

theorem create_older (hout : out.Single) :
    create r hv value out (fr.older x) = atOlder x (create r hv value out fr) := by
  unfold create
  rw [shape_older]
  by_cases hlast : (fr.w.shape.header r).last = none
  · rw [if_pos hlast, if_pos hlast]
    rfl
  rw [if_neg hlast, if_neg hlast]
  cases fr.w.shape.push r with
  | error e => rfl
  | ok q =>
    obtain ⟨_ | s, sh⟩ := q
    · rfl
    · dsimp only
      cases sh.pool.allocBytes with
      | mk done pool =>
        cases done with
        | false =>
          refine congrArg (fun fr => Except.ok (Rc.error, fr)) (Eq.trans ?_ (update_older _ _ _))
          rfl
        | true =>
          dsimp only
          have hlist := @update_older ρ fr x s { fr.w.cell s with
            hash := if value = [] then 0 else hv.hash, key := hv.key, value, next := none
            lowcaseKey := strlow hv.key } (sh.setPool pool)
          have hstore := (congrArg (Frame.store · r out (some s)) hlist).trans (store_older hout _)
          by_cases hnull : out = .null
          · rw [if_pos hnull, if_pos hnull]
            exact congrArg (fun fr => Except.ok (Rc.ok, fr)) hstore
          · rw [if_neg hnull, if_neg hnull]
            refine congrArg (fun fr => Except.ok (Rc.ok, fr)) (Eq.trans
              (congrArg (fun fr : Frame ρ => { fr with w := fr.w.propagate r (fr.w.ancestors r) })
                hstore) ?_)
            unfold Frame.older
            dsimp only
            rw [← propagate_older]
            rfl

theorem setHeaderHelper_older (hout : out.Single) :
    setHeaderHelper r hv value out (fr.older x) =
      atOlder x (setHeaderHelper r hv value out fr) := by
  unfold setHeaderHelper
  rw [shape_older, create_older hout, scan_older hout]
  by_cases happ : hv.opcode = .append
  · rw [if_pos happ, if_pos happ]
  rw [if_neg happ, if_neg happ]
  cases scan r hv value out (scanFuel fr.w.shape) (.inline r) 0 none fr with
  | error e => rfl
  | ok res =>
    obtain ⟨_ | _ | _, fr₁⟩ := res
    · rfl
    · dsimp only [atOlder, Except.map]
      rw [create_older hout]
      split_ifs
      · rfl
      · rfl
    · rfl

theorem setBuiltinHeader_older
    (hsingle : ∀ f, hv.offset = some f → f.handler ≠ .setBuiltinMultiHeader) :
    setBuiltinHeader r hv value (fr.older x) = atOlder x (setBuiltinHeader r hv value fr) := by
  have hnull : OutRef.null.Single := fun _ hf => by cases hf
  unfold setBuiltinHeader
  cases hoff : hv.offset with
  | none => exact setHeaderHelper_older hnull
  | some f =>
    have hf := hsingle f hoff
    have hout : (OutRef.field f).Single := fun g hg => by
      cases hg
      exact hf
    dsimp only
    rw [ptr_older hf]
    cases (fr.w.headersIn r).ptr f with
    | none => exact setHeaderHelper_older hout
    | some a =>
      dsimp only
      split_ifs
      · rfl
      · exact setHeaderHelper_older hout
      · refine Eq.trans ?_ (setHeaderHelper_older hout)
        rw [← update_older]
        rfl
      · refine congrArg (fun fr => Except.ok (Rc.ok, fr)) (Eq.trans ?_ (update_older _ _ _))
        rfl

theorem modifyIn_older {g : HeadersIn → HeadersIn} (hg : ∀ h : HeadersIn, g h.older = (g h).older) :
    (fr.older x).modifyIn r g = (fr.modifyIn r g).older x := by
  unfold Frame.modifyIn Frame.older
  dsimp only
  rw [← setHeadersIn_older, ← hg]
  rfl

/-- A rule on anything but a multi-valued header does the same in both builds. -/
theorem runHandlerIn_older (hmulti : hv.handler ≠ .setBuiltinMultiHeader)
    (hsingle : ∀ f, hv.offset = some f → f.handler ≠ .setBuiltinMultiHeader) :
    runHandlerIn r hv value (fr.older x) = atOlder x (runHandlerIn r hv value fr) := by
  have hset : ∀ {value : Str} {fr fr₀ : Frame ρ}, fr = fr₀.older x →
      setBuiltinHeader r hv value fr = atOlder x (setBuiltinHeader r hv value fr₀) := by
    rintro value _ fr₀ rfl
    exact setBuiltinHeader_older hsingle
  unfold runHandlerIn
  cases hh : hv.handler with
  | setHeader => exact setHeaderHelper_older fun _ hf => by cases hf
  | setBuiltinHeader => exact hset rfl
  | setHostHeader =>
    dsimp only
    unfold setHostHeader
    rw [shape_older]
    generalize validateHost value fr.w.shape.pool false = res
    obtain ⟨rc, host, pool⟩ := res
    have hlist : (fr.older x).setList (fr.w.shape.setPool pool) (fr.older x).w.cell =
        (fr.setList (fr.w.shape.setPool pool) fr.w.cell).older x := rfl
    dsimp only
    rw [hlist]
    split_ifs
    · rfl
    · exact hset (modifyIn_older fun _ => rfl)
    · exact hset (modifyIn_older fun _ => rfl)
  | setConnectionHeader =>
    dsimp only
    rw [setConnectionHeader_eq, setConnectionHeader_eq]
    have hmod : (fr.older x).modifyIn r (connected value) =
        (fr.modifyIn r (connected value)).older x := modifyIn_older fun _ => rfl
    apply hset
    rw [hmod]
    rfl
  | setUserAgentHeader => exact hset (modifyIn_older fun _ => rfl)
  | setContentLengthHeader =>
    dsimp only
    unfold setContentLengthHeader
    split_ifs
    · exact hset (modifyIn_older fun _ => rfl)
    · cases atosz value with
      | none => rfl
      | some n => exact hset (modifyIn_older fun _ => rfl)
  | setBuiltinMultiHeader => exact absurd hh hmulti

end HeadersControl
