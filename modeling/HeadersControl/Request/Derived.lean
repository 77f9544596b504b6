import HeadersControl.Request.Coherence
import HeadersControl.Request.HostGrammar

/-! # Derived request fields

The handlers compute the fields that nginx derives from a value before they edit
the list, and the edit leaves these fields alone. For `Host` the field is the
normalised host, and a value that is no host changes nothing.
-/

namespace HeadersControl

open Segments Segments.Shape

def connectionOf (value : Str) : ConnectionType :=
  if value = [] then .unknown
  else if (strcasestrn value (str "close")).isSome then .close
  else if (strcasestrn value (str "keep-alive")).isSome then .keepAlive
  else .unknown

structure Derived where
  server : Str
  contentLengthN : ℤ
  connectionType : ConnectionType
  keepAliveN : ℤ
  browser : Browser
  keepalive : Bool
  deriving DecidableEq, Repr

def World.derived {ρ : Type} (w : World ρ) (r : ρ) : Derived where
  server := (w.headersIn r).server
  contentLengthN := (w.headersIn r).contentLengthN
  connectionType := (w.headersIn r).connectionType
  keepAliveN := (w.headersIn r).keepAliveN
  browser := (w.headersIn r).browser
  keepalive := w.keepalive r

variable {ρ : Type} [DecidableEq ρ] {r : ρ} {hv : InVal} {value : Str} {out : OutRef}
  {fr fr' : Frame ρ} {w w' : World ρ} {f : InField}

theorem keepalive_propagate {as : List ρ} : (w.propagate r as).keepalive = w.keepalive := by
  induction as generalizing w r with
  | nil => rfl
  | cons p as ih => exact ih (w := w.copyHeadersIn r p) (r := p)

theorem derived_store (fr : Frame ρ) (r : ρ) (out : OutRef) (x : Option ℕ) :
    (fr.store r out x).w.derived r = fr.w.derived r := by
  cases out with
  | null => rfl
  | localVar => rfl
  | field f => simp [Frame.store, World.derived, World.setPtr, World.setHeadersIn]

theorem derived_propagate (fr : Frame ρ) (r : ρ) (out : OutRef) :
    (fr.propagate r out).w.derived r = fr.w.derived r := by
  have hkeep : (fr.propagate r out).w.keepalive = fr.w.keepalive := by
    unfold Frame.propagate
    split
    · rfl
    · exact keepalive_propagate
  simp only [World.derived, Frame.headersIn_propagate, hkeep]

theorem Outcome.derived (ho : Outcome r hv value out fr fr') :
    fr'.w.derived r = fr.w.derived r := by
  cases ho with
  | unchanged => rfl
  | cleared => exact derived_store fr r out none
  | kept => exact derived_store fr r out _
  | created =>
    rw [derived_propagate, derived_store]
    rfl

theorem setBuiltinHeader_derived (hwf : fr.w.shape.WellFormed r)
    (he : setBuiltinHeader r hv value fr = .ok (.ok, fr')) :
    fr'.w.derived r = fr.w.derived r := by
  have hhelper : ∀ {out : OutRef} {fr₁ : Frame ρ},
      setHeaderHelper r hv value out fr₁ = .ok (.ok, fr') → fr₁.w.shape.WellFormed r →
      fr'.w.derived r = fr₁.w.derived r := by
    intro out fr₁ he₁ hwf₁
    exact (Outcome.of_run hwf₁ he₁).derived
  unfold setBuiltinHeader at he
  split at he
  · exact hhelper he hwf
  · split at he
    · exact hhelper he hwf
    · split_ifs at he
      · cases he
        rfl
      · exact hhelper he hwf
      · exact (hhelper he hwf).trans rfl
      · cases he
        rfl

def connected (value : Str) (h : HeadersIn) : HeadersIn :=
  { h with
    connectionType := connectionOf value
    keepAliveN := if connectionOf value = .close then -1 else h.keepAliveN }

theorem setConnectionHeader_eq (fr : Frame ρ) : setConnectionHeader r hv value fr =
    setBuiltinHeader r hv value { fr with
      w := { (fr.modifyIn r (connected value)).w with
        keepalive := Function.update fr.w.keepalive r
          (if connectionOf value = .close then false else fr.w.keepalive r) } } := by
  unfold setConnectionHeader connected connectionOf
  by_cases hv₀ : value = []
  · simp [hv₀, Frame.modifyIn, World.setHeadersIn]
  · cases (strcasestrn value (str "close")).isSome with
    | true => simp [hv₀, Frame.modifyIn, World.setHeadersIn]
    | false =>
      cases (strcasestrn value (str "keep-alive")).isSome with
      | true => simp [hv₀, Frame.modifyIn, World.setHeadersIn]
      | false => simp [hv₀, Frame.modifyIn, World.setHeadersIn]

/-- How the handler of the field `f` changes the derived fields for a value. -/
def Derives (f : InField) (value : Str) (d d' : Derived) : Prop :=
  match f.handler with
  | .setHostHeader =>
      ∃ host, HostForm value host ∧ d' = { d with server := strlow (stripDot host) }
  | .setContentLengthHeader =>
      ∃ len : ℕ, atosz value = some len ∧ d' = { d with contentLengthN := len }
  | .setUserAgentHeader => d' = { d with browser := detectBrowser value }
  | .setConnectionHeader =>
      d' = { d with
        connectionType := connectionOf value
        keepAliveN := if connectionOf value = .close then -1 else d.keepAliveN
        keepalive := if connectionOf value = .close then false else d.keepalive }
  | _ => d' = d

def World.Designates (w : World ρ) (r : ρ) (f : InField) (a : ℕ) : Prop :=
  (w.headersIn r).ptr f = some a ∧ a ∈ w.shape.slots r ∧
    sameName (w.cell a).key f.name = true

theorem setBuiltinHeader_set (fr : Frame ρ) (hwf : fr.w.shape.WellFormed r)
    (hw : hv.wildcard = false)
    (hname : sameName hv.key f.name = true) (hoff : hv.offset = some f) (hop : hv.opcode = .set)
    (hv₀ : value ≠ []) :
    ∃ rc fr', setBuiltinHeader r hv value fr = .ok (rc, fr') ∧
      (fr.w.shape.pool.Reliable → rc = .ok) ∧
      (rc = .ok → ∃ a, (fr'.w.headersIn r).ptr f = some a ∧ (fr'.w.cell a).value = value ∧
        ((∀ b, (fr.w.headersIn r).ptr f = some b → fr.w.Designates r f b) →
          fr'.w.Designates r f a)) := by
  unfold setBuiltinHeader
  rw [hoff]
  dsimp only
  cases hptr : (fr.w.headersIn r).ptr f with
  | some a =>
    simp only [hop, hv₀, reduceCtorEq, if_false]
    refine ⟨.ok, _, rfl, fun _ => rfl, fun _ => ⟨a, hptr, by simp, fun hdes => ?_⟩⟩
    obtain ⟨hp, ha, hkey⟩ := hdes a rfl
    exact ⟨hp, ha, by simpa using hkey⟩
  | none =>
    have hkey : ∀ {name : Str}, hv.hits value name = true → sameName name f.name = true := by
      intro name hit
      rw [hits_exact value hw] at hit
      rw [sameName_congr hit, hname]
    obtain ⟨rc, fr', he, hrel, hok⟩ := setHeaderHelper_run hv value (.field f) fr hwf
    refine ⟨rc, fr', he, hrel, fun hrc => ?_⟩
    cases hok hrc with
    | unchanged hu =>
      rcases hu with ⟨hadd, -⟩ | ⟨-, -, hnil | hre⟩
      · cases hop.symm.trans hadd
      · exact absurd hnil hv₀
      · cases hop.symm.trans hre
    | cleared _ _ hnil => exact absurd hnil hv₀
    | @kept a sh cell _ _ _ hfind hk =>
      have hca : cell a = { fr.w.cell a with value } := by
        rw [hk.same a (by simp), Function.update_self]
      have hp : (((fr.store r (.field f) (some a)).setList sh cell).w.headersIn r).ptr f =
          some a := Frame.ptr_store_self fr r (some a) f
      refine ⟨a, hp, by simp [hca], fun _ => ⟨hp, ?_, ?_⟩⟩
      · simp only [Frame.shape_setList, hk.slots]
        exact List.mem_filter.mpr ⟨List.mem_of_find?_eq_some hfind, by simp⟩
      · simp only [Frame.cell_setList, hca]
        exact hkey (by simpa using List.find?_some hfind)
    | @created a sh _ hwf' _ hslots _ =>
      refine ⟨a, ?_, ?_, fun _ => ⟨?_, ?_, ?_⟩⟩
      · rw [Frame.headersIn_propagate, Frame.ptr_store_self]
      · simp [Frame.cell_propagate, newElt]
      · rw [Frame.headersIn_propagate, Frame.ptr_store_self]
      · rw [(Frame.keep_propagate (by simpa using hwf')).2]
        simp [hslots]
      · simpa [Frame.cell_propagate, newElt] using hname

section Host

variable {v host : Str}

theorem HeaderVal.Parsed.of_offset (hp : hv.Parsed setHandlersIn) (hoff : hv.offset = some f) :
    sameName hv.key f.name = true ∧ hv.handler = f.handler ∧ hv.opcode ≠ .append ∧
      hv.wildcard = false := by
  have hhandler := hp.handler
  rcases hp.cases with ⟨e, he, hfind, hname, hh, ho⟩ | ⟨-, -, hnone⟩
  · obtain ⟨g, -, rfl⟩ := List.mem_map.mp he
    obtain rfl : g = f := Option.some.inj (ho.symm.trans hoff)
    refine ⟨hname, hh, fun happ => ?_, hp.exact_of_field hname⟩
    rw [hp.append happ] at hfind
    cases hfind
  · cases hnone.symm.trans hoff

theorem setHostHeader_rejects (w : World ρ) (hv₀ : v ≠ []) (h : ¬ ∃ host, HostForm v host) :
    setHostHeader r hv v ⟨w, none⟩ = .ok (.error, ⟨w, none⟩) := by
  unfold setHostHeader
  rw [if_pos hv₀, validateHost_of_not w.shape.pool false h]
  rfl

theorem setHostHeader_set (fr : Frame ρ) (hv₀ : v ≠ []) (h : HostForm v host)
    (hwf : fr.w.shape.WellFormed r) (hw : hv.wildcard = false)
    (hname : sameName hv.key (str "Host") = true) (hoff : hv.offset = some .host)
    (hop : hv.opcode = .set) :
    ∃ rc fr', setHostHeader r hv v fr = .ok (rc, fr') ∧
      (fr.w.shape.pool.Reliable → rc = .ok) ∧
      (rc = .ok → (fr'.w.headersIn r).server = strlow (stripDot host) ∧
        ∃ a, (fr'.w.headersIn r).ptr .host = some a ∧ (fr'.w.cell a).value = v ∧
          ((∀ b, (fr.w.headersIn r).ptr .host = some b → fr.w.Designates r .host b) →
            fr'.w.Designates r .host a)) := by
  obtain ⟨hne, hok, hres⟩ := validateHost_of_form fr.w.shape.pool false h
  have hg := validateHost_grows v fr.w.shape.pool false
  unfold setHostHeader
  rw [if_pos hv₀]
  generalize validateHost v fr.w.shape.pool false = res at hne hok hres hg
  obtain ⟨rc, server, pool⟩ := res
  dsimp only at hne hok hres hg ⊢
  cases rc with
  | declined => exact absurd rfl hne
  | error => exact ⟨.error, _, rfl, fun hr => (by cases hok hr), fun hc => by cases hc⟩
  | ok =>
    rw [if_neg (by simp)]
    set fr₁ := (fr.setList (fr.w.shape.setPool pool) fr.w.cell).modifyIn r
      fun x => { x with server } with hfr₁
    have hptr : (fr₁.w.headersIn r).ptr = (fr.w.headersIn r).ptr := by
      simp [hfr₁, Frame.modifyIn, World.setHeadersIn]
    have hwf₁ : fr₁.w.shape.WellFormed r := hwf.setPool hg
    have hslots : fr₁.w.shape.slots r = fr.w.shape.slots r := hwf.slots_setPool hg
    obtain ⟨rc, fr', he, hrel, hset⟩ :=
      setBuiltinHeader_set (f := .host) fr₁ hwf₁ hw hname hoff hop hv₀
    refine ⟨rc, fr', he, fun hr => hrel (hg.reliable.mpr hr), fun hrc => ?_⟩
    obtain ⟨a, hp, hval, hdes⟩ := hset hrc
    subst hrc
    constructor
    · have hserver := congrArg Derived.server (setBuiltinHeader_derived hwf₁ he)
      rw [← hres rfl]
      simpa [World.derived, hfr₁, Frame.modifyIn, World.setHeadersIn] using hserver
    · refine ⟨a, hp, hval, fun hall => hdes fun b hb => ?_⟩
      rw [hptr] at hb
      obtain ⟨hb', hmem, hkey⟩ := hall b hb
      exact ⟨by rw [hptr]; exact hb', by rw [hslots]; exact hmem, hkey⟩

/--
`validateHost` accepts exactly the hosts with an optional port, and normalises them to hosts that
it maps to themselves; none of its comparisons of positions wraps around. `set` stores the result
and keeps the value in the entry, and a rejected value leaves the request as it was.
-/
theorem host_validation (v : Str) (hv₀ : v ≠ []) :
    (∀ (pool : Pool) (alloc : Bool),
      ((validateHost v pool alloc).1 ≠ .declined ↔ ∃ host, HostForm v host) ∧
        (pool.Reliable → (validateHost v pool alloc).1 ≠ .error) ∧
        ∀ host, HostForm v host → (validateHost v pool alloc).1 = .ok →
          (validateHost v pool alloc).2.1 = strlow (stripDot host)) ∧
    (∀ host, HostForm v host → ∀ (pool : Pool) (alloc : Bool),
      (validateHost (strlow (stripDot host)) pool alloc).1 ≠ .declined ∧
        (pool.Reliable → (validateHost (strlow (stripDot host)) pool alloc).1 = .ok) ∧
        ((validateHost (strlow (stripDot host)) pool alloc).1 = .ok →
          (validateHost (strlow (stripDot host)) pool alloc).2.1 = strlow (stripDot host))) ∧
    (v.length + 1 < 2 ^ 64 → ∀ (alloc : Bool) (pre : Str) (s : HostScan), pre <+: v →
      HostScan.loop ⟨.hostStart, v.length, v.length, 0, alloc⟩ 0 pre = some s →
      s.Fits pre.length) ∧
    ∀ (w : World ρ) (r : ρ) (hv : InVal), w.shape.WellFormed r → hv.Parsed setHandlersIn →
      hv.offset = some .host →
      ((¬ ∃ host, HostForm v host) → handleIn r hv v w = .ok (.error, w)) ∧
      ∀ host, HostForm v host → hv.opcode = .set →
        ∃ rc w', handleIn r hv v w = .ok (rc, w') ∧ (w.shape.pool.Reliable → rc = .ok) ∧
          (rc = .ok → (w'.headersIn r).server = strlow (stripDot host) ∧
            ∃ a, (w'.headersIn r).ptr .host = some a ∧ (w'.cell a).value = v ∧
              ((∀ b, (w.headersIn r).ptr .host = some b → w.Designates r .host b) →
                w'.Designates r .host a)) := by
  refine ⟨fun pool alloc => ⟨validateHost_accepts_iff, fun hr he => ?_, fun host h =>
    (validateHost_of_form pool alloc h).2.2⟩, fun host h => h.idempotent, ?_, ?_⟩
  · by_cases h : ∃ host, HostForm v host
    · obtain ⟨host, h⟩ := h
      rw [(validateHost_of_form pool alloc h).2.1 hr] at he
      cases he
    · rw [validateHost_of_not pool alloc h] at he
      cases he
  · intro hlen alloc pre s hpre he
    exact (Scanned.of_loop hpre.length_le he).fits hpre.length_le hlen
  · intro w r hv hwf hp hoff
    obtain ⟨hname, hhandler, -, hw⟩ := hp.of_offset hoff
    have hrun : ∀ fr : Frame ρ, runHandlerIn r hv v fr = setHostHeader r hv v fr := fun fr => by
      rw [runHandlerIn, hhandler]
      rfl
    constructor
    · intro h
      rw [handleIn, hrun, setHostHeader_rejects w hv₀ h]
      rfl
    · intro host h hop
      obtain ⟨rc, fr', he, hrel, hset⟩ :=
        setHostHeader_set ⟨w, none⟩ hv₀ h hwf hw hname hoff hop
      exact ⟨rc, fr'.w, by rw [handleIn, hrun, he]; rfl, hrel, hset⟩

/-- `set Host Example.COM.:8080` on a request with two `Host` entries. -/
theorem host_validation_port : ∃ (hv : InVal) (w' : World Unit),
    parseDirective (fun _ => true) setHandlersIn 0
      [str "set", str "Host", str "Example.COM.:8080"] = .ok hv ∧
    handleIn () hv (str "Example.COM.:8080") twoHosts = .ok (.ok, w') ∧
    (w'.headersIn ()).server = str "example.com" := by
  have hp := (parseDirective_eq_ok (rfl : parseDirective (fun _ => true) setHandlersIn 0
    [str "set", str "Host", str "Example.COM.:8080"] = .ok _)).2
  have hbytes : ((str "Example.COM.").all fun c => isNameByte c || c == 46) = true := by decide
  have hdigits : (str "8080").all isDigit = true := by decide
  have hform : HostForm (str "Example.COM.:8080") (str "Example.COM.") :=
    ⟨str ":8080", rfl,
      .name (fun c hc => by simpa using List.all_eq_true.mp hbytes c hc)
        (by unfold NoTwoDots; decide),
      .digits (List.all_eq_true.mp hdigits) (by decide), by decide⟩
  obtain ⟨rc, w', he, hrel, hset⟩ := ((host_validation (str "Example.COM.:8080")
    (by decide)).2.2.2 twoHosts () _ (single_wellFormed (by decide) (by decide)) hp rfl).2
      _ hform rfl
  obtain rfl := hrel fun _ => rfl
  exact ⟨_, w', rfl, he, (hset rfl).1⟩

end Host

end HeadersControl
