import HeadersControl.Response.Helper

/-! # Response header handlers

Most builtin response headers are written through their typed pointer, without a
look at the list. `Content-Type` and `Content-Length` also have fields of their
own, and `Cache-Control` is a chain of entries.
-/

namespace HeadersControl

open Segments

inductive OutHandler
  | setHeader | setBuiltinHeader | setAcceptRangesHeader | setContentLengthHeader
  | setContentTypeHeader | setBuiltinMultiHeader
  deriving DecidableEq, Repr

/-- `ngx_http_headers_control_set_handlers` of the response side. -/
def setHandlersOut : SetHandlers OutHandler OutField where
  entries :=
    [⟨str "Server", some .server, .setBuiltinHeader⟩,
      ⟨str "Date", some .date, .setBuiltinHeader⟩,
      ⟨str "Content-Encoding", some .contentEncoding, .setBuiltinHeader⟩,
      ⟨str "Location", some .location, .setBuiltinHeader⟩,
      ⟨str "Refresh", some .refresh, .setBuiltinHeader⟩,
      ⟨str "Last-Modified", some .lastModified, .setBuiltinHeader⟩,
      ⟨str "Content-Range", some .contentRange, .setBuiltinHeader⟩,
      ⟨str "Accept-Ranges", some .acceptRanges, .setAcceptRangesHeader⟩,
      ⟨str "WWW-Authenticate", some .wwwAuthenticate, .setBuiltinHeader⟩,
      ⟨str "Expires", some .expires, .setBuiltinHeader⟩,
      ⟨str "E-Tag", some .etag, .setBuiltinHeader⟩,
      ⟨str "Content-Length", some .contentLength, .setContentLengthHeader⟩,
      ⟨str "Content-Type", none, .setContentTypeHeader⟩,
      ⟨str "Cache-Control", some .cacheControl, .setBuiltinMultiHeader⟩]
  generic := .setHeader

abbrev OutVal := HeaderVal OutHandler OutField

namespace Response

def setHeader (hv : OutVal) (value : Str) (s : Response) : Except Fault (Rc × Response) :=
  setHeaderHelper hv value none false s

def setBuiltinHeader (hv : OutVal) (value : Str) (s : Response) : Except Fault (Rc × Response) :=
  match hv.offset.bind s.ptr with
  | none =>
      if hv.opcode = .rewrite then .ok (.ok, s) else setHeaderHelper hv value hv.offset false s
  | some h =>
      if hv.opcode = .add then .ok (.ok, s)
      else if value = [] then .ok (.ok, s.setCell h { s.cell h with hash := 0, value })
      else .ok (.ok, s.setCell h { s.cell h with hash := hv.hash, key := hv.key, value })

def hideChain : ℕ → Option ℕ → Response → Option Response
  | _, none, s => some s
  | 0, some _, _ => none
  | n + 1, some h, s => hideChain n (s.cell h).next (s.setCell h (s.cell h).hide)

/-- The handler of `Cache-Control`, for nginx 1.23 and later. -/
def setBuiltinMultiHeader (hv : OutVal) (value : Str) (s : Response) :
    Except Fault (Rc × Response) :=
  match hv.offset with
  | none => .error .null
  | some f =>
      match s.ptr f with
      | some h =>
          match hideChain (s.shape.pool.brk + 1) (s.cell h).next s with
          | none => .error .endless
          | some s =>
              let hash := if value = [] then 0 else hv.hash
              .ok (.ok, s.setCell h { s.cell h with value, hash })
      | none =>
          if value = [] then .ok (.ok, s)
          else match s.shape.push () with
            | .error e => .error e
            | .ok (none, sh) => .ok (.error, s.setShape sh)
            | .ok (some ho, sh) =>
                let key := str "Cache-Control"
                let elt := { s.cell ho with value, hash := hv.hash, key, next := none }
                .ok (.ok, ((s.setShape sh).setCell ho elt).setPtr f (some ho))

/--
The loop over a content type, at offset `i` with the bytes `rest`. It gives the offset of the
semicolon in front of the charset parameter and the bytes behind `charset=`.
-/
def findCharset : ℕ → ℕ → Str → Option (ℕ × Str)
  | 0, _, _ => none
  | _ + 1, _, [] => none
  | n + 1, i, c :: rest =>
      if c ≠ 59 then findCharset n (i + 1) rest
      else
        let spaces := (rest.takeWhile (· = 32)).length
        let rest := rest.drop spaces
        if rest = [] then none
        else if rest.length < 8 ∨ !strncaseeq 8 rest (str "charset=") then
          findCharset n (i + 1 + spaces + 1) rest.tail
        else some (i, rest.drop 8)

/-- The charset behind `charset=`; its length wraps around where a sole quote ends the value. -/
def charsetOf (value p : Str) : Charset :=
  let p := if p.head? = some 34 then p.tail else p
  let last : ℕ := if value.getLast? = some 34 then 1 else 0
  ⟨BitVec.ofInt 64 (p.length - last), p⟩

def setContentTypeHeader (hv : OutVal) (value : Str) (s : Response) :
    Except Fault (Rc × Response) :=
  let s := { s with
    contentTypeLen := value.length
    contentType := value
    contentTypeHash := hv.hash
    contentTypeLowcase := none }
  let s := match findCharset (value.length + 1) 0 value with
    | none => s
    | some (last, p) => { s with contentTypeLen := last, charset := charsetOf value p }
  setHeaderHelper hv [] none true s

def clearBuiltinHeader (hv : OutVal) (_value : Str) (s : Response) :
    Except Fault (Rc × Response) :=
  setBuiltinHeader hv [] s

def clearContentLengthHeader (hv : OutVal) (value : Str) (s : Response) :
    Except Fault (Rc × Response) :=
  clearBuiltinHeader hv value { s with contentLengthN := -1 }

def setContentLengthHeader (hv : OutVal) (value : Str) (s : Response) :
    Except Fault (Rc × Response) :=
  if value = [] then clearContentLengthHeader hv value s
  else match atosz value with
    | none => .ok (.error, s)
    | some len => setBuiltinHeader hv value { s with contentLengthN := len }

def setAcceptRangesHeader (hv : OutVal) (value : Str) (s : Response) :
    Except Fault (Rc × Response) :=
  setBuiltinHeader hv value (if value = [] then { s with allowRanges := false } else s)

def handleOut (hv : OutVal) (value : Str) (s : Response) : Except Fault (Rc × Response) :=
  match hv.handler with
  | .setHeader => setHeader hv value s
  | .setBuiltinHeader => setBuiltinHeader hv value s
  | .setAcceptRangesHeader => setAcceptRangesHeader hv value s
  | .setContentLengthHeader => setContentLengthHeader hv value s
  | .setContentTypeHeader => setContentTypeHeader hv value s
  | .setBuiltinMultiHeader => setBuiltinMultiHeader hv value s

/-- `ngx_http_headers_control_exec_output_header`. -/
def execOutputHeader (cv : ComplexValue → Response → Option Str) (hv : OutVal) (s : Response) :
    Except Fault (Rc × Response) :=
  execHeader cv handleOut hv s

section Uniform

variable {hv : OutVal} {value : Str} {s s' : Response}

theorem setBuiltinHeader_id (id : ℕ) :
    setBuiltinHeader { hv with id } value s = setBuiltinHeader hv value s := by
  simp only [setBuiltinHeader, setHeaderHelper_id]

theorem handleOut_id (id : ℕ) : handleOut { hv with id } = handleOut hv := by
  funext value s
  simp only [handleOut, setHeader, setAcceptRangesHeader, setContentLengthHeader,
    clearContentLengthHeader, clearBuiltinHeader, setContentTypeHeader, setBuiltinMultiHeader,
    setBuiltinHeader_id, setHeaderHelper_id]

theorem setBuiltinHeader_ne_declined : setBuiltinHeader hv value s ≠ .ok (.declined, s') := by
  unfold setBuiltinHeader
  split
  · split
    · simp
    · exact setHeaderHelper_ne_declined _ _
  · split_ifs <;> simp

theorem setBuiltinMultiHeader_ne_declined :
    setBuiltinMultiHeader hv value s ≠ .ok (.declined, s') := by
  unfold setBuiltinMultiHeader
  split
  · simp
  · split
    · split <;> simp
    · split
      · simp
      · split <;> simp

/--
Once it has set the fields of its own, every handler calls one of three functions, or rejects the
value.
-/
theorem handleOut_calls (hv : OutVal) (value : Str) (s : Response) :
    ∃ (t : Response) (v : Str), t.shape = s.shape ∧ t.cell = s.cell ∧ t.ptr = s.ptr ∧
      (handleOut hv value s = .ok (.error, t) ∨
        (∃ noCreate, handleOut hv value s = setHeaderHelper hv v none noCreate t) ∨
        hv.handler ≠ .setHeader ∧ handleOut hv value s = setBuiltinHeader hv v t ∨
        hv.handler = .setBuiltinMultiHeader ∧
          handleOut hv value s = setBuiltinMultiHeader hv v t) := by
  unfold handleOut
  cases hh : hv.handler with
  | setHeader => exact ⟨s, value, rfl, rfl, rfl, Or.inr (Or.inl ⟨false, rfl⟩)⟩
  | setBuiltinHeader =>
    exact ⟨s, value, rfl, rfl, rfl, Or.inr (Or.inr (Or.inl ⟨by simp, rfl⟩))⟩
  | setAcceptRangesHeader =>
    refine ⟨_, value, ?_, ?_, ?_, Or.inr (Or.inr (Or.inl ⟨by simp, rfl⟩))⟩
    · split <;> rfl
    · split <;> rfl
    · split <;> rfl
  | setContentLengthHeader =>
    dsimp only
    unfold setContentLengthHeader
    split
    · exact ⟨{ s with contentLengthN := -1 }, [], rfl, rfl, rfl,
        Or.inr (Or.inr (Or.inl ⟨by simp, rfl⟩))⟩
    · cases atosz value with
      | none => exact ⟨s, value, rfl, rfl, rfl, Or.inl rfl⟩
      | some len =>
        exact ⟨{ s with contentLengthN := len }, value, rfl, rfl, rfl,
          Or.inr (Or.inr (Or.inl ⟨by simp, rfl⟩))⟩
  | setContentTypeHeader =>
    refine ⟨_, [], ?_, ?_, ?_, Or.inr (Or.inl ⟨true, rfl⟩)⟩
    · split <;> rfl
    · split <;> rfl
    · split <;> rfl
  | setBuiltinMultiHeader =>
    exact ⟨s, value, rfl, rfl, rfl, Or.inr (Or.inr (Or.inr ⟨rfl, rfl⟩))⟩

theorem handleOut_ne_declined : handleOut hv value s ≠ .ok (.declined, s') := by
  obtain ⟨t, v, -, -, -, he | ⟨noCreate, he⟩ | ⟨-, he⟩ | ⟨-, he⟩⟩ := handleOut_calls hv value s
  · simp [he]
  · rw [he]
    exact setHeaderHelper_ne_declined _ _
  · rw [he]
    exact setBuiltinHeader_ne_declined
  · rw [he]
    exact setBuiltinMultiHeader_ne_declined

end Uniform

end Response

end HeadersControl
