import HeadersControl.Request.Derived
import HeadersControl.Request.MultiValued

/-! # Rules that have nothing to do

`add` on a header that is present and `rewrite` on one that is absent leave the
list and the typed pointers alone. The handlers with derived fields compute these
all the same, so a request is untouched only where they have that value already.
-/

namespace HeadersControl

open Segments Segments.Shape

/-- The derived fields are what nginx derives from that value of the field `f`. -/
def Derived.Reflects (d : Derived) (f : InField) (value : Str) : Prop :=
  match f.handler with
  | .setHostHeader =>
      value = [] ∧ d.server = [] ∨ ∃ host, HostForm value host ∧ d.server = strlow (stripDot host)
  | .setContentLengthHeader =>
      value = [] ∧ d.contentLengthN = -1 ∨
        ∃ len : ℕ, atosz value = some len ∧ d.contentLengthN = len
  | .setUserAgentHeader => d.browser = if value = [] then noBrowser else detectBrowser value
  | .setConnectionHeader =>
      d.connectionType = connectionOf value ∧
        (connectionOf value = .close → d.keepAliveN = -1 ∧ d.keepalive = false)
  | _ => True

variable {ρ : Type} [DecidableEq ρ] {r : ρ} {hv : InVal} {f : InField} {value : Str}
  {fr fr' : Frame ρ} {w w' : World ρ}

def World.Untouched (w w' : World ρ) : Prop :=
  w' = { w with shape := w.shape.setPool w'.shape.pool }

def NoOp (hv : InVal) (w : World ρ) (r : ρ) (f : InField) : Prop :=
  hv.opcode = .add ∧ w.first r f.name ≠ none ∨ hv.opcode = .rewrite ∧ w.first r f.name = none

theorem setBuiltinHeader_noOp (value : Str) (h : fr.w.InStep r) (hw : hv.wildcard = false)
    (hname : sameName hv.key f.name = true) (hoff : hv.offset = some f)
    (hsingle : f.handler ≠ .setBuiltinMultiHeader) (hno : NoOp hv fr.w r f) :
    setBuiltinHeader r hv value fr = .ok (.ok, fr) := by
  have hptr := h.coherent f hsingle
  unfold setBuiltinHeader
  rw [hoff]
  dsimp only
  rcases hno with ⟨hop, hfirst⟩ | ⟨hop, hfirst⟩
  · cases hp : (fr.w.headersIn r).ptr f with
    | none => exact absurd (hptr.symm.trans hp) hfirst
    | some a => exact if_pos hop
  · rw [hptr, hfirst]
    have hmiss : ¬ hv.Hit value fr.w r := fun hit => (hit_iff_first hw hname).mp hit hfirst
    dsimp only
    rw [setHeaderHelper_no_hit h.wellFormed (by simp [hop]) hmiss, if_pos (Or.inr hop)]

omit [DecidableEq ρ] in
theorem NoOp.congr (hno : NoOp hv w r f) (hslots : w'.shape.slots r = w.shape.slots r)
    (hcell : w'.cell = w.cell) : NoOp hv w' r f := by
  unfold NoOp World.first at hno ⊢
  rwa [hslots, hcell]

theorem untouched_iff (pool : Pool) {x : HeadersIn} {k : Bool}
    (hshape : w'.shape = w.shape.setPool pool) (hcell : w'.cell = w.cell)
    (hhead : w'.headersIn = Function.update w.headersIn r x) (hstatus : w'.status = w.status)
    (hkeep : w'.keepalive = Function.update w.keepalive r k)
    (hanc : w'.ancestors = w.ancestors) :
    w.Untouched w' ↔ x = w.headersIn r ∧ k = w.keepalive r := by
  obtain ⟨shape, cell, headersIn, status, keepalive, ancestors, hanc₁⟩ := w
  obtain ⟨shape', cell', headersIn', status', keepalive', ancestors', hanc₂⟩ := w'
  dsimp only at hshape hcell hhead hstatus hkeep hanc
  subst hshape hcell hhead hstatus hkeep hanc
  simp [World.Untouched, Function.update_eq_self_iff]

theorem untouched_modifyIn (pool : Pool) (g : HeadersIn → HeadersIn) (k : Bool)
    (hfr : fr'.w = { (fr.setList (fr.w.shape.setPool pool) fr.w.cell).w.setHeadersIn r
      (g (fr.w.headersIn r)) with keepalive := Function.update fr.w.keepalive r k }) :
    fr.w.Untouched fr'.w ↔ g (fr.w.headersIn r) = fr.w.headersIn r ∧ k = fr.w.keepalive r :=
  untouched_iff pool (by rw [hfr]; rfl) (by rw [hfr]; rfl) (by rw [hfr]; rfl)
    (by rw [hfr]; rfl) (by rw [hfr]) (by rw [hfr]; rfl)

theorem untouched_setPool (fr : Frame ρ) (r : ρ) (pool : Pool) (g : HeadersIn → HeadersIn) :
    fr.w.Untouched ((fr.setList (fr.w.shape.setPool pool) fr.w.cell).modifyIn r g).w ↔
      g (fr.w.headersIn r) = fr.w.headersIn r := by
  rw [untouched_modifyIn pool g (fr.w.keepalive r), and_iff_left rfl]
  rw [Function.update_eq_self]
  rfl

section Fields

variable {h : HeadersIn}

theorem server_eq_iff {x : Str} : { h with server := x } = h ↔ h.server = x := by
  cases h
  simp [eq_comm]

theorem contentLengthN_eq_iff {n : ℤ} : { h with contentLengthN := n } = h ↔
    h.contentLengthN = n := by
  cases h
  simp [eq_comm]

theorem browser_eq_iff {b : Browser} : { h with browser := b } = h ↔ h.browser = b := by
  cases h
  simp [eq_comm]

theorem connected_eq_iff : connected value h = h ↔
    h.connectionType = connectionOf value ∧ (connectionOf value = .close → h.keepAliveN = -1) := by
  cases h
  by_cases hc : connectionOf value = .close <;> simp [connected, hc, eq_comm]

end Fields

theorem setHostHeader_noOp (h : fr.w.InStep r) (hw : hv.wildcard = false)
    (hname : sameName hv.key (str "Host") = true) (hoff : hv.offset = some .host)
    (hno : NoOp hv fr.w r .host) :
    ∃ rc fr', setHostHeader r hv value fr = .ok (rc, fr') ∧
      (rc = .ok → (fr.w.Untouched fr'.w ↔ value = [] ∧ (fr.w.headersIn r).server = [] ∨
        ∃ host, HostForm value host ∧ (fr.w.headersIn r).server = strlow (stripDot host))) := by
  unfold setHostHeader
  by_cases hv₀ : value = []
  · rw [if_neg (not_not_intro hv₀)]
    refine ⟨.ok, _, setBuiltinHeader_noOp (f := .host) value (h.modifyIn fun _ => rfl) hw hname hoff
      (by decide) hno, fun _ => ?_⟩
    apply ((untouched_setPool fr r fr.w.shape.pool _).trans server_eq_iff).trans
    constructor
    · intro hs
      exact Or.inl ⟨hv₀, hs.trans hv₀⟩
    · rintro (⟨-, hs⟩ | ⟨host, ⟨port, hv, -, -, hne⟩, -⟩)
      · exact hs.trans hv₀.symm
      · have hnil := (List.append_eq_nil_iff.mp (hv.symm.trans hv₀)).1
        exact absurd (by rw [hnil]; rfl) hne
  · rw [if_pos hv₀]
    have hg := validateHost_grows value fr.w.shape.pool false
    have hform : ∀ host, HostForm value host →
        (validateHost value fr.w.shape.pool false).1 = .ok →
        (validateHost value fr.w.shape.pool false).2.1 = strlow (stripDot host) :=
      fun host hh => (validateHost_of_form _ false hh).2.2
    have hacc : (validateHost value fr.w.shape.pool false).1 ≠ .declined ↔
        ∃ host, HostForm value host := validateHost_accepts_iff
    generalize validateHost value fr.w.shape.pool false = res at hg hform hacc
    obtain ⟨rc, server, pool⟩ := res
    dsimp only at hg hform hacc ⊢
    by_cases hrc : rc = .ok
    · rw [if_neg (not_not_intro hrc)]
      obtain ⟨host, hhost⟩ := hacc.mp (by simp [hrc])
      obtain rfl := hform host hhost hrc
      have hstep := (h.setPool hg).modifyIn
        (g := fun x => { x with server := strlow (stripDot host) }) fun _ => rfl
      have hno' : NoOp hv (fr.setList (fr.w.shape.setPool pool) fr.w.cell).w r .host :=
        hno.congr (h.wellFormed.slots_setPool hg) rfl
      refine ⟨.ok, _, setBuiltinHeader_noOp (f := .host) value hstep hw hname hoff
        (by decide) hno', fun _ => ?_⟩
      apply ((untouched_setPool fr r pool _).trans server_eq_iff).trans
      constructor
      · intro hs
        exact Or.inr ⟨host, hhost, hs⟩
      · rintro (⟨hnil, -⟩ | ⟨host', hhost', hs⟩)
        · exact absurd hnil hv₀
        · rw [hs, hhost'.unique hhost]
    · rw [if_pos hrc]
      exact ⟨.error, _, rfl, fun he => by cases he⟩

theorem runHandlerIn_noOp (fr : Frame ρ) (value : Str) (h : fr.w.InStep r)
    (hw : hv.wildcard = false) (hname : sameName hv.key f.name = true) (hoff : hv.offset = some f)
    (hhandler : hv.handler = f.handler) (hsingle : f.handler ≠ .setBuiltinMultiHeader)
    (hno : NoOp hv fr.w r f) :
    ∃ rc fr', runHandlerIn r hv value fr = .ok (rc, fr') ∧
      (rc = .ok → (fr.w.Untouched fr'.w ↔ (fr.w.derived r).Reflects f value)) := by
  have hdone : ∀ {fr₁ : Frame ρ} (value : Str), fr₁.w.InStep r → NoOp hv fr₁.w r f →
      setBuiltinHeader r hv value fr₁ = .ok (.ok, fr₁) := fun value h₁ hno₁ =>
    setBuiltinHeader_noOp value h₁ hw hname hoff hsingle hno₁
  have hmodify : ∀ (value : Str) (g : HeadersIn → HeadersIn), (∀ x, (g x).ptr = x.ptr) →
      setBuiltinHeader r hv value (fr.modifyIn r g) = .ok (.ok, fr.modifyIn r g) ∧
        (fr.w.Untouched (fr.modifyIn r g).w ↔ g (fr.w.headersIn r) = fr.w.headersIn r) := by
    intro value g hg
    exact ⟨hdone value (h.modifyIn hg) hno, untouched_setPool fr r fr.w.shape.pool g⟩
  unfold runHandlerIn Derived.Reflects
  rw [hhandler]
  cases hf : f.handler with
  | setHeader => cases f <;> cases hf
  | setBuiltinMultiHeader => exact absurd hf hsingle
  | setBuiltinHeader => exact ⟨.ok, fr, hdone value h hno, fun _ => iff_of_true rfl trivial⟩
  | setHostHeader =>
    obtain rfl : f = .host := by cases f <;> first | rfl | cases hf
    exact setHostHeader_noOp h hw hname hoff hno
  | setConnectionHeader =>
    dsimp only
    rw [setConnectionHeader_eq]
    have hstep := h.modifyIn (g := connected value) fun _ => rfl
    refine ⟨.ok, _, hdone value ⟨hstep.wellFormed, hstep.coherent⟩ hno, fun _ => ?_⟩
    rw [untouched_modifyIn fr.w.shape.pool _ _ rfl, connected_eq_iff, and_assoc]
    apply and_congr_right
    intro _
    by_cases hc : connectionOf value = .close <;>
      simp [hc, World.derived, eq_comm (a := false)]
  | setUserAgentHeader =>
    obtain ⟨he, hiff⟩ := hmodify value (fun x => { x with
      browser := if value = [] then noBrowser else detectBrowser value }) fun _ => rfl
    exact ⟨.ok, _, he, fun _ => hiff.trans browser_eq_iff⟩
  | setContentLengthHeader =>
    dsimp only
    unfold setContentLengthHeader clearContentLengthHeader clearBuiltinHeader
    by_cases hv₀ : value = []
    · obtain ⟨he, hiff⟩ := hmodify [] (fun x => { x with contentLengthN := -1 }) fun _ => rfl
      rw [if_pos hv₀]
      refine ⟨.ok, _, he, fun _ => hiff.trans (contentLengthN_eq_iff.trans ?_)⟩
      simp [hv₀, atosz, World.derived]
    · rw [if_neg hv₀]
      cases hlen : atosz value with
      | none => exact ⟨.error, fr, rfl, fun hc => by cases hc⟩
      | some len =>
        obtain ⟨he, hiff⟩ := hmodify value (fun x => { x with contentLengthN := len }) fun _ => rfl
        refine ⟨.ok, _, he, fun _ => hiff.trans (contentLengthN_eq_iff.trans ?_)⟩
        simp [hv₀, World.derived]

/--
From a request with coherent typed pointers, `add` on a present and `rewrite` on an absent
single-valued header that return `NGX_OK` leave the request untouched exactly where its derived
fields are already those of the value.
-/
theorem noop_untouched (w : World ρ) (r : ρ) (hv : InVal) (f : InField) (value : Str)
    (hwf : w.shape.WellFormed r) (hc : w.Coherent r) (hp : hv.Parsed setHandlersIn)
    (hoff : hv.offset = some f) (hsingle : f.handler ≠ .setBuiltinMultiHeader)
    (hno : NoOp hv w r f) :
    ∃ rc w', handleIn r hv value w = .ok (rc, w') ∧
      (rc = .ok → (w.Untouched w' ↔ (w.derived r).Reflects f value)) := by
  obtain ⟨hname, hhandler, -, hw⟩ := hp.of_offset hoff
  obtain ⟨rc, fr', he, hiff⟩ := runHandlerIn_noOp ⟨w, none⟩ value ⟨hwf, hc⟩ hw hname hoff
    hhandler hsingle hno
  exact ⟨rc, fr'.w, by rw [handleIn, he]; rfl, hiff⟩

def tenBytes : World Unit :=
  let w : World Unit := .ofEntries [(str "Content-Length", str "10")] 4 fun f =>
    if f = .contentLength then some 0 else none
  w.setHeadersIn () { w.headersIn () with contentLengthN := 10 }

theorem tenBytes_wellFormed : tenBytes.shape.WellFormed () :=
  single_wellFormed (by decide) (by decide)

theorem tenBytes_coherent : tenBytes.Coherent () := fun f _ => by cases f <;> decide

/-- `add Content-Length 10` leaves the request untouched, as the length is 10 already. -/
theorem noop_untouched_same : ∃ (hv : InVal) (w' : World Unit),
    parseDirective (fun _ => true) setHandlersIn 0
      [str "add", str "Content-Length", str "10"] = .ok hv ∧
    handleIn () hv (str "10") tenBytes = .ok (.ok, w') ∧ tenBytes.Untouched w' := by
  have hp := (parseDirective_eq_ok (rfl : parseDirective (fun _ => true) setHandlersIn 0
    [str "add", str "Content-Length", str "10"] = .ok _)).2
  obtain ⟨rc, w', he, hiff⟩ := noop_untouched tenBytes () _ .contentLength (str "10")
    tenBytes_wellFormed tenBytes_coherent hp rfl (by decide) (Or.inl ⟨rfl, by decide⟩)
  obtain rfl : rc = .ok := (Prod.mk.inj (Except.ok.inj (he.symm.trans rfl))).1
  exact ⟨_, w', rfl, he, (hiff rfl).mpr (Or.inr ⟨10, by decide, rfl⟩)⟩

/-- `add Content-Length 5` keeps the entry with the value 10, but the length of the body is 5. -/
theorem noop_untouched_length : ∃ (hv : InVal) (w' : World Unit),
    tenBytes.shape.WellFormed () ∧ tenBytes.Coherent () ∧
    parseDirective (fun _ => true) setHandlersIn 0
      [str "add", str "Content-Length", str "5"] = .ok hv ∧
    hv.opcode = .add ∧ tenBytes.first () (str "Content-Length") ≠ none ∧
    handleIn () hv (str "5") tenBytes = .ok (.ok, w') ∧
    w'.entries () = [(str "Content-Length", str "10")] ∧
    (w'.headersIn ()).contentLengthN = 5 ∧ ¬ tenBytes.Untouched w' := by
  refine ⟨_, _, tenBytes_wellFormed, tenBytes_coherent, rfl, rfl, by decide, rfl, by decide,
    by decide, fun h => ?_⟩
  have hlen := congrArg (fun w : World Unit => (w.headersIn ()).contentLengthN) h
  exact absurd hlen (by decide)

end HeadersControl
