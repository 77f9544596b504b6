import HeadersControl.Base.TableElt
import HeadersControl.Segments.Push

/-! # Requests

A request owns a list of header entries, typed pointers to the entries that nginx
knows by name, and fields that are derived from their values. All requests of a
tree share the slots that hold the entries, so a state covers all of them.
-/

namespace HeadersControl

open Segments

/-- The typed pointers of `ngx_http_headers_in_t` that the handler table names. -/
inductive InField
  | host | connection | ifModifiedSince | ifUnmodifiedSince | ifMatch | ifNoneMatch | userAgent
  | referer | contentLength | contentType | range | ifRange | transferEncoding | expect | upgrade
  | acceptEncoding | via | authorization | keepAlive | xForwardedFor | xRealIp | depth
  | destination | overwrite | date | cookie
  deriving DecidableEq, Repr

inductive ConnectionType | unknown | close | keepAlive
  deriving DecidableEq, Repr

/-- The flags that `ngx_http_process_user_agent` sets. -/
structure Browser where
  msie : Bool
  msie6 : Bool
  opera : Bool
  gecko : Bool
  chrome : Bool
  safari : Bool
  konqueror : Bool
  deriving DecidableEq, Repr

/-- `ngx_http_headers_in_t` without its list, which is part of the shape. -/
structure HeadersIn where
  ptr : InField → Option ℕ
  server : Str
  contentLengthN : ℤ
  connectionType : ConnectionType
  keepAliveN : ℤ
  browser : Browser

/--
A tree of requests. `ancestors r` are the parent of `r`, its parent and so on up to the main
request, for which it is empty; `status` is `headers_out.status`.
-/
structure World (ρ : Type) where
  shape : Shape ρ
  cell : ℕ → TableElt
  headersIn : ρ → HeadersIn
  status : ρ → ℕ
  keepalive : ρ → Bool
  ancestors : ρ → List ρ
  not_ancestor : ∀ r, r ∉ ancestors r

/-- The argument `output_header`: null, the address of a typed pointer, or that of a local. -/
inductive OutRef | null | field (f : InField) | localVar
  deriving DecidableEq, Repr

/-- A world with the local variable `h` of a handler, which starts uninitialised. -/
structure Frame (ρ : Type) where
  w : World ρ
  h : Option (Option ℕ)

variable {ρ : Type} [DecidableEq ρ]

namespace World

def setList (w : World ρ) (sh : Shape ρ) (cell : ℕ → TableElt) : World ρ :=
  { w with shape := sh, cell := cell }

def setHeadersIn (w : World ρ) (r : ρ) (h : HeadersIn) : World ρ :=
  { w with headersIn := Function.update w.headersIn r h }

def setPtr (w : World ρ) (r : ρ) (f : InField) (x : Option ℕ) : World ρ :=
  w.setHeadersIn r { w.headersIn r with ptr := Function.update (w.headersIn r).ptr f x }

def copyHeadersIn (w : World ρ) (src dst : ρ) : World ρ :=
  { w with
    shape := { w.shape with
      header := Function.update w.shape.header dst (w.shape.header src) }
    headersIn := Function.update w.headersIn dst (w.headersIn src) }

/-- The loop `while (r != r->main)` that copies `headers_in` from parent to parent. -/
def propagate (w : World ρ) : ρ → List ρ → World ρ
  | _, [] => w
  | r, parent :: rest => (w.copyHeadersIn r parent).propagate parent rest

def entries (w : World ρ) (r : ρ) : List (Str × Str) :=
  (w.shape.slots r).map fun s => ((w.cell s).key, (w.cell s).value)

def ofEntries (es : List (Str × Str)) (nalloc : ℕ) (ptr : InField → Option ℕ) : World Unit where
  shape := .single es.length nalloc
  cell s :=
    let e := es.getD s ([], [])
    ⟨hashKeyLc e.1, e.1, e.2, strlow e.1, none⟩
  headersIn _ := ⟨ptr, [], -1, .unknown, -1, ⟨false, false, false, false, false, false, false⟩⟩
  status _ := 0
  keepalive _ := true
  ancestors _ := []
  not_ancestor := by simp

end World

namespace Frame

def setList (fr : Frame ρ) (sh : Shape ρ) (cell : ℕ → TableElt) : Frame ρ :=
  { fr with w := fr.w.setList sh cell }

def store (fr : Frame ρ) (r : ρ) (out : OutRef) (x : Option ℕ) : Frame ρ :=
  match out with
  | .null => fr
  | .field f => { fr with w := fr.w.setPtr r f x }
  | .localVar => { fr with h := some x }

variable (fr : Frame ρ) (r : ρ) (out : OutRef) (x y : Option ℕ) (sh sh' : Shape ρ)
  (cell cell' : ℕ → TableElt)

omit [DecidableEq ρ] in
@[simp] theorem shape_setList : (fr.setList sh cell).w.shape = sh := rfl

omit [DecidableEq ρ] in
@[simp] theorem cell_setList : (fr.setList sh cell).w.cell = cell := rfl

omit [DecidableEq ρ] in
@[simp] theorem headersIn_setList : (fr.setList sh cell).w.headersIn = fr.w.headersIn := rfl

omit [DecidableEq ρ] in
@[simp] theorem ancestors_setList : (fr.setList sh cell).w.ancestors = fr.w.ancestors := rfl

omit [DecidableEq ρ] in
@[simp] theorem setList_setList :
    (fr.setList sh cell).setList sh' cell' = fr.setList sh' cell' := rfl

omit [DecidableEq ρ] in
@[simp] theorem setList_self : fr.setList fr.w.shape fr.w.cell = fr := rfl

@[simp] theorem shape_store : (fr.store r out x).w.shape = fr.w.shape := by cases out <;> rfl

@[simp] theorem cell_store : (fr.store r out x).w.cell = fr.w.cell := by cases out <;> rfl

@[simp] theorem ancestors_store : (fr.store r out x).w.ancestors = fr.w.ancestors := by
  cases out <;> rfl

theorem ptr_store_self (f : InField) : ((fr.store r (.field f) x).w.headersIn r).ptr f = x := by
  simp [store, World.setPtr, World.setHeadersIn]

theorem ptr_store_of_ne {f : InField} (h : out ≠ .field f) :
    ((fr.store r out x).w.headersIn r).ptr f = (fr.w.headersIn r).ptr f := by
  cases out with
  | null => rfl
  | localVar => rfl
  | field g =>
    have hne : f ≠ g := fun he => h (by rw [he])
    simp [store, World.setPtr, World.setHeadersIn, hne]

theorem store_setList :
    (fr.setList sh cell).store r out x = (fr.store r out x).setList sh cell := by
  cases out <;> rfl

@[simp] theorem store_store : (fr.store r out x).store r out y = fr.store r out y := by
  cases out <;> simp [store, World.setPtr, World.setHeadersIn]

end Frame

end HeadersControl
