import HeadersControl.Request.Helper
import HeadersControl.Request.Host

/-! # Request header handlers

Each builtin request header has a handler that keeps its typed pointer, and the
fields that nginx derives from its value, in step with the list.
-/

namespace HeadersControl

open Segments

inductive InHandler
  | setHeader | setBuiltinHeader | setHostHeader | setConnectionHeader | setUserAgentHeader
  | setContentLengthHeader | setBuiltinMultiHeader
  deriving DecidableEq, Repr

namespace InField

def name : InField → Str
  | host => str "Host"
  | connection => str "Connection"
  | ifModifiedSince => str "If-Modified-Since"
  | ifUnmodifiedSince => str "If-Unmodified-Since"
  | ifMatch => str "If-Match"
  | ifNoneMatch => str "If-None-Match"
  | userAgent => str "User-Agent"
  | referer => str "Referer"
  | contentLength => str "Content-Length"
  | contentType => str "Content-Type"
  | range => str "Range"
  | ifRange => str "If-Range"
  | transferEncoding => str "Transfer-Encoding"
  | expect => str "Expect"
  | upgrade => str "Upgrade"
  | acceptEncoding => str "Accept-Encoding"
  | via => str "Via"
  | authorization => str "Authorization"
  | keepAlive => str "Keep-Alive"
  | xForwardedFor => str "X-Forwarded-For"
  | xRealIp => str "X-Real-IP"
  | depth => str "Depth"
  | destination => str "Destination"
  | overwrite => str "Overwrite"
  | date => str "Date"
  | cookie => str "Cookie"

def handler : InField → InHandler
  | host => .setHostHeader
  | connection => .setConnectionHeader
  | userAgent => .setUserAgentHeader
  | contentLength => .setContentLengthHeader
  | xForwardedFor => .setBuiltinMultiHeader
  | cookie => .setBuiltinMultiHeader
  | _ => .setBuiltinHeader

def all : List InField :=
  [host, connection, ifModifiedSince, ifUnmodifiedSince, ifMatch, ifNoneMatch, userAgent, referer,
    contentLength, contentType, range, ifRange, transferEncoding, expect, upgrade, acceptEncoding,
    via, authorization, keepAlive, xForwardedFor, xRealIp, depth, destination, overwrite, date,
    cookie]

end InField

/-- `ngx_http_headers_control_set_handlers` of the request side. -/
def setHandlersIn : SetHandlers InHandler InField where
  entries := InField.all.map fun f => ⟨f.name, some f, f.handler⟩
  generic := .setHeader

variable {ρ : Type} [DecidableEq ρ]

abbrev InVal := HeaderVal InHandler InField

def setHeader (r : ρ) (hv : InVal) (value : Str) (fr : Frame ρ) : Except Fault (Rc × Frame ρ) :=
  setHeaderHelper r hv value .null fr

def setBuiltinHeader (r : ρ) (hv : InVal) (value : Str) (fr : Frame ρ) :
    Except Fault (Rc × Frame ρ) :=
  match hv.offset with
  | none => setHeaderHelper r hv value .null fr
  | some f =>
      match (fr.w.headersIn r).ptr f with
      | none => setHeaderHelper r hv value (.field f) fr
      | some h =>
          if hv.opcode = .add then .ok (.ok, fr)
          else if hv.opcode = .append then setHeaderHelper r hv value (.field f) fr
          else if value = [] then
            let cell := Function.update fr.w.cell h { fr.w.cell h with hash := 0, value }
            setHeaderHelper r hv value (.field f) (fr.setList fr.w.shape cell)
          else
            let cell := Function.update fr.w.cell h { fr.w.cell h with hash := hv.hash, value }
            .ok (.ok, fr.setList fr.w.shape cell)

def Frame.modifyIn (fr : Frame ρ) (r : ρ) (f : HeadersIn → HeadersIn) : Frame ρ :=
  { fr with w := fr.w.setHeadersIn r (f (fr.w.headersIn r)) }

def setHostHeader (r : ρ) (hv : InVal) (value : Str) (fr : Frame ρ) :
    Except Fault (Rc × Frame ρ) :=
  if value ≠ [] then
    let (rc, host, pool) := validateHost value fr.w.shape.pool false
    let fr := fr.setList (fr.w.shape.setPool pool) fr.w.cell
    if rc ≠ .ok then .ok (.error, fr)
    else setBuiltinHeader r hv value (fr.modifyIn r fun h => { h with server := host })
  else setBuiltinHeader r hv value (fr.modifyIn r fun h => { h with server := value })

def clearBuiltinHeader (r : ρ) (hv : InVal) (_value : Str) (fr : Frame ρ) :
    Except Fault (Rc × Frame ρ) :=
  setBuiltinHeader r hv [] fr

def clearContentLengthHeader (r : ρ) (hv : InVal) (value : Str) (fr : Frame ρ) :
    Except Fault (Rc × Frame ρ) :=
  clearBuiltinHeader r hv value (fr.modifyIn r fun h => { h with contentLengthN := -1 })

def setContentLengthHeader (r : ρ) (hv : InVal) (value : Str) (fr : Frame ρ) :
    Except Fault (Rc × Frame ρ) :=
  if value = [] then clearContentLengthHeader r hv value fr
  else match atosz value with
    | none => .ok (.error, fr)
    | some len =>
        setBuiltinHeader r hv value (fr.modifyIn r fun h => { h with contentLengthN := len })

def detectMsie (value : Str) : Bool × Bool :=
  match strstrn value (str "MSIE ") with
  | none => (false, false)
  | some msie =>
      if msie + 7 < value.length then
        let major := value.getD (msie + 5) 0
        let msie6 := value.getD (msie + 6) 0 = 46 ∧
          (major = 52 ∨ major = 53 ∨
            major = 54 ∧ (strstrn (value.drop (msie + 8)) (str "SV1")).isNone)
        (true, msie6)
      else (false, false)

def detectBrowser (value : Str) : Browser :=
  let contains (pat : String) : Bool := (strstrn value (str pat)).isSome
  let (msie, msie6) := detectMsie value
  let opera := contains "Opera"
  let msie := msie && !opera
  let msie6 := msie6 && !opera
  let gecko := !msie && !opera && contains "Gecko/"
  let chrome := !msie && !opera && !gecko && contains "Chrome/"
  let safari := !msie && !opera && !gecko && !chrome && contains "Safari/" && contains "Mac OS X"
  let konqueror := !msie && !opera && !gecko && !chrome && !safari && contains "Konqueror"
  ⟨msie, msie6, opera, gecko, chrome, safari, konqueror⟩

def noBrowser : Browser := ⟨false, false, false, false, false, false, false⟩

def setUserAgentHeader (r : ρ) (hv : InVal) (value : Str) (fr : Frame ρ) :
    Except Fault (Rc × Frame ρ) :=
  let browser := if value = [] then noBrowser else detectBrowser value
  setBuiltinHeader r hv value (fr.modifyIn r fun h => { h with browser })

def setConnectionHeader (r : ρ) (hv : InVal) (value : Str) (fr : Frame ρ) :
    Except Fault (Rc × Frame ρ) :=
  let fr := fr.modifyIn r fun h => { h with connectionType := .unknown }
  if value = [] then setBuiltinHeader r hv value fr
  else if (strcasestrn value (str "close")).isSome then
    let fr := fr.modifyIn r fun h => { h with connectionType := .close, keepAliveN := -1 }
    setBuiltinHeader r hv value
      { fr with w := { fr.w with keepalive := Function.update fr.w.keepalive r false } }
  else if (strcasestrn value (str "keep-alive")).isSome then
    setBuiltinHeader r hv value (fr.modifyIn r fun h => { h with connectionType := .keepAlive })
  else setBuiltinHeader r hv value fr

def chainEnd (cell : ℕ → TableElt) : ℕ → ℕ → Option ℕ
  | 0, _ => none
  | n + 1, h =>
      match (cell h).next with
      | none => some h
      | some h' => chainEnd cell n h'

/-- The handler of `Cookie` and `X-Forwarded-For`, for nginx 1.23 and later. -/
def setBuiltinMultiHeader (r : ρ) (hv : InVal) (value : Str) (fr : Frame ρ) :
    Except Fault (Rc × Frame ρ) :=
  if fr.w.status r = 400 ∨ (fr.w.shape.header r).last = none then .ok (.ok, fr)
  else match hv.offset with
    | none => .error .null
    | some f =>
        let fr := { fr with h := none }
        let fr := if (fr.w.headersIn r).ptr f ≠ none then { fr with w := fr.w.setPtr r f none }
          else fr
        match setHeaderHelper r hv value .localVar fr with
        | .error e => .error e
        | .ok (.error, fr) => .ok (.error, fr)
        | .ok (_, fr) =>
            if value = [] then .ok (.ok, fr)
            else match fr.h with
              | none => .error .unset
              | some none => .error .null
              | some (some h) =>
                  match (fr.w.headersIn r).ptr f with
                  | none =>
                      let w := fr.w.setPtr r f (some h)
                      let cell := Function.update w.cell h { w.cell h with next := none }
                      .ok (.ok, { fr with w := w.setList w.shape cell })
                  | some head =>
                      match chainEnd fr.w.cell (fr.w.shape.pool.brk + 1) head with
                      | none => .error .endless
                      | some tail =>
                          let cell := Function.update fr.w.cell tail
                            { fr.w.cell tail with next := some h }
                          let cell := Function.update cell h { cell h with next := none }
                          .ok (.ok, fr.setList fr.w.shape cell)

def runHandlerIn (r : ρ) (hv : InVal) (value : Str) (fr : Frame ρ) :
    Except Fault (Rc × Frame ρ) :=
  match hv.handler with
  | .setHeader => setHeader r hv value fr
  | .setBuiltinHeader => setBuiltinHeader r hv value fr
  | .setHostHeader => setHostHeader r hv value fr
  | .setConnectionHeader => setConnectionHeader r hv value fr
  | .setUserAgentHeader => setUserAgentHeader r hv value fr
  | .setContentLengthHeader => setContentLengthHeader r hv value fr
  | .setBuiltinMultiHeader => setBuiltinMultiHeader r hv value fr

def handleIn (r : ρ) (hv : InVal) (value : Str) (w : World ρ) : Except Fault (Rc × World ρ) :=
  (runHandlerIn r hv value ⟨w, none⟩).map fun res => (res.1, res.2.w)

/-- `ngx_http_headers_control_exec_input_header`. -/
def execInputHeader (cv : ComplexValue → World ρ → Option Str) (r : ρ) (hv : InVal)
    (w : World ρ) : Except Fault (Rc × World ρ) :=
  execHeader cv (handleIn r) hv w

theorem handleIn_eq_ok {r : ρ} {hv : InVal} {value : Str} {w w' : World ρ} {rc : Rc}
    (he : handleIn r hv value w = .ok (rc, w')) :
    ∃ fr', runHandlerIn r hv value ⟨w, none⟩ = .ok (rc, fr') ∧ fr'.w = w' := by
  unfold handleIn at he
  cases hrun : runHandlerIn r hv value ⟨w, none⟩ with
  | error e =>
    rw [hrun] at he
    cases he
  | ok res =>
    rw [hrun] at he
    cases he
    exact ⟨res.2, rfl, rfl⟩

section Uniform

variable {r : ρ} {hv : InVal} {value : Str} {fr fr' : Frame ρ}

theorem setBuiltinHeader_id (id : ℕ) :
    setBuiltinHeader r { hv with id } value fr = setBuiltinHeader r hv value fr := by
  simp only [setBuiltinHeader, setHeaderHelper_id]

theorem handleIn_id (id : ℕ) : handleIn r { hv with id } = handleIn r hv := by
  funext value w
  unfold handleIn
  congr 1
  simp only [runHandlerIn, setHeader, setHostHeader, setConnectionHeader, setUserAgentHeader,
    setContentLengthHeader, clearContentLengthHeader, clearBuiltinHeader, setBuiltinMultiHeader,
    setBuiltinHeader_id, setHeaderHelper_id]

theorem setBuiltinHeader_ne_declined : setBuiltinHeader r hv value fr ≠ .ok (.declined, fr') := by
  unfold setBuiltinHeader
  split
  · exact setHeaderHelper_ne_declined _ _
  · split
    · exact setHeaderHelper_ne_declined _ _
    · split_ifs
      · simp
      · exact setHeaderHelper_ne_declined _ _
      · exact setHeaderHelper_ne_declined _ _
      · simp

theorem setBuiltinMultiHeader_ne_declined :
    setBuiltinMultiHeader r hv value fr ≠ .ok (.declined, fr') := by
  unfold setBuiltinMultiHeader
  split
  · simp
  · split
    · simp
    · dsimp only
      split
      · simp
      · simp
      · split
        · simp
        · split
          · simp
          · simp
          · split
            · simp
            · split <;> simp

theorem runHandlerIn_ne_declined : runHandlerIn r hv value fr ≠ .ok (.declined, fr') := by
  unfold runHandlerIn
  split
  · exact setHeaderHelper_ne_declined _ _
  · exact setBuiltinHeader_ne_declined
  · unfold setHostHeader
    dsimp only
    split_ifs
    · simp
    · exact setBuiltinHeader_ne_declined
    · exact setBuiltinHeader_ne_declined
  · unfold setConnectionHeader
    dsimp only
    split_ifs <;> exact setBuiltinHeader_ne_declined
  · exact setBuiltinHeader_ne_declined
  · unfold setContentLengthHeader
    split
    · exact setBuiltinHeader_ne_declined
    · split
      · simp
      · exact setBuiltinHeader_ne_declined
  · exact setBuiltinMultiHeader_ne_declined

theorem handleIn_ne_declined {w w' : World ρ} : handleIn r hv value w ≠ .ok (.declined, w') := by
  unfold handleIn
  cases h : runHandlerIn r hv value ⟨w, none⟩ with
  | error e => simp [Except.map]
  | ok res =>
    rintro he
    simp only [Except.map, Except.ok.injEq, Prod.mk.injEq] at he
    exact runHandlerIn_ne_declined (h.trans (by rw [← he.1]))

end Uniform

end HeadersControl
