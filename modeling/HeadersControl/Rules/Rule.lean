import HeadersControl.Base.Nginx
import HeadersControl.Segments.Memory

/-! # Rules and their execution

A directive becomes a rule, which names its handler and the offset of the typed
field that the handler writes. Executing a rule checks its condition, evaluates
its value and calls the handler. The request and the response side differ only in
their handlers, so rules are generic in the types of handlers and offsets.
-/

namespace HeadersControl

open Segments

inductive Opcode | set | clear | add | append | rewrite | pass
  deriving DecidableEq, Repr

/-- A compiled complex value, given by the text it was compiled from. -/
abbrev ComplexValue := Str

/-- `ngx_http_headers_control_header_val_t`. A zeroed `value` is `none`, offset 0 is `none`. -/
structure HeaderVal (η ο : Type) where
  value : Option ComplexValue
  hash : Word
  key : Str
  handler : η
  offset : Option ο
  opcode : Opcode
  filter : Option ComplexValue
  negative : Bool
  next : Bool
  id : ℕ
  wildcard : Bool
  deriving Repr

/-- `ngx_http_headers_control_set_header_t`. -/
structure SetHeader (η ο : Type) where
  name : Str
  offset : Option ο
  handler : η

/-- A handler table; the terminating entry with a null name gives the generic handler. -/
structure SetHandlers (η ο : Type) where
  entries : List (SetHeader η ο)
  generic : η

variable {η ο σ : Type}

def SetHandlers.find (t : SetHandlers η ο) (key : Str) : Option (SetHeader η ο) :=
  t.entries.find? fun e => sameName key e.name

namespace HeaderVal

/-- The name test of an exact or wildcard rule against the name of an entry. -/
def matchesName (hv : HeaderVal η ο) (name : Str) : Bool :=
  if hv.wildcard then
    hv.key.length - 1 ≤ name.length && strncaseeq (hv.key.length - 1) name hv.key
  else sameName name hv.key

def overrides (hv : HeaderVal η ο) : Bool := hv.filter.isNone && !hv.next && !hv.wildcard

def locks (hv : HeaderVal η ο) : Bool := !hv.wildcard && !hv.next

end HeaderVal

/-- A condition value is false when it is empty or "0". -/
def isFalsy (v : Str) : Bool := v.length = 0 ∨ v = str "0"

/-- `ngx_http_complex_value`: a zeroed value evaluates to the empty string. -/
def complexValue (cv : ComplexValue → σ → Option Str) (v : Option ComplexValue) (s : σ) :
    Option Str :=
  match v with
  | none => some []
  | some text => cv text s

/--
The part of `ngx_http_headers_control_exec_input_header` behind the condition. The evaluated
value ends with the NUL that `parseHeader` appended to its text, which is cut off.
-/
def action (cv : ComplexValue → σ → Option Str)
    (handle : HeaderVal η ο → Str → σ → Except Fault (Rc × σ)) (hv : HeaderVal η ο) (s : σ) :
    Except Fault (Rc × σ) :=
  if hv.opcode = .pass then .ok (.ok, s)
  else match complexValue cv hv.value s with
    | none => .ok (.error, s)
    | some value => handle hv value.dropLast s

/-- `ngx_http_headers_control_exec_input_header` and its copy for responses. -/
def execHeader (cv : ComplexValue → σ → Option Str)
    (handle : HeaderVal η ο → Str → σ → Except Fault (Rc × σ)) (hv : HeaderVal η ο) (s : σ) :
    Except Fault (Rc × σ) :=
  match hv.filter with
  | none => action cv handle hv s
  | some filter =>
      match cv filter s with
      | none => .ok (.error, s)
      | some val =>
          if isFalsy val then
            if !hv.negative then .ok (.declined, s) else action cv handle hv s
          else if hv.negative then .ok (.declined, s) else action cv handle hv s

/-- Whether the condition of a rule holds, or `none` where it cannot be evaluated. -/
def condition (cv : ComplexValue → σ → Option Str) (hv : HeaderVal η ο) (s : σ) : Option Bool :=
  match hv.filter with
  | none => some true
  | some filter => (cv filter s).map fun val => isFalsy val == hv.negative

theorem execHeader_eq (cv : ComplexValue → σ → Option Str)
    (handle : HeaderVal η ο → Str → σ → Except Fault (Rc × σ)) (hv : HeaderVal η ο) (s : σ) :
    execHeader cv handle hv s = match condition cv hv s with
      | none => .ok (.error, s)
      | some false => .ok (.declined, s)
      | some true => action cv handle hv s := by
  unfold execHeader condition
  cases hf : hv.filter with
  | none => rfl
  | some filter =>
    cases hc : cv filter s with
    | none => simp [hc]
    | some val =>
      cases hval : isFalsy val <;> cases hneg : hv.negative <;> simp [hc, hval]

theorem condition_of_overrides {cv : ComplexValue → σ → Option Str} {hv : HeaderVal η ο} (s : σ)
    (h : hv.overrides = true) : condition cv hv s = some true := by
  cases hf : hv.filter with
  | none => simp [condition, hf]
  | some filter => simp [HeaderVal.overrides, hf] at h

theorem action_ne_declined {cv : ComplexValue → σ → Option Str}
    {handle : HeaderVal η ο → Str → σ → Except Fault (Rc × σ)}
    (hh : ∀ hv v s s', handle hv v s ≠ .ok (.declined, s')) {hv : HeaderVal η ο} {s s' : σ} :
    action cv handle hv s ≠ .ok (.declined, s') := by
  unfold action
  split
  · simp
  · split
    · simp
    · exact hh _ _ _ _

theorem execHeader_inv {cv : ComplexValue → σ → Option Str}
    {handle : HeaderVal η ο → Str → σ → Except Fault (Rc × σ)} {hv : HeaderVal η ο} {s s' : σ}
    {rc : Rc} (he : execHeader cv handle hv s = .ok (rc, s')) :
    s' = s ∧ (rc = .ok → hv.opcode = .pass) ∨ hv.opcode ≠ .pass ∧ ∃ value,
      complexValue cv hv.value s = some value ∧ handle hv value.dropLast s = .ok (rc, s') := by
  rw [execHeader_eq] at he
  split at he
  · cases he
    exact Or.inl ⟨rfl, nofun⟩
  · cases he
    exact Or.inl ⟨rfl, nofun⟩
  · unfold action at he
    split_ifs at he with hpass
    · cases he
      exact Or.inl ⟨rfl, fun _ => hpass⟩
    · split at he
      · cases he
        exact Or.inl ⟨rfl, nofun⟩
      · exact Or.inr ⟨hpass, _, ‹_›, he⟩

theorem matchesName_exact {hv : HeaderVal η ο} (h : hv.wildcard = false) (name : Str) :
    hv.matchesName name = sameName name hv.key := by
  simp [HeaderVal.matchesName, h]

theorem matchesName_congr {hv : HeaderVal η ο} {a b : Str} (h : sameName a b = true) :
    hv.matchesName a = hv.matchesName b := by
  unfold HeaderVal.matchesName
  rw [sameName_congr h, (Prod.mk.inj (sameName_iff.mp h)).1]
  split
  · by_cases hlen : hv.key.length - 1 ≤ b.length
    · have ha : hv.key.length - 1 ≤ a.length := by rwa [(Prod.mk.inj (sameName_iff.mp h)).1]
      rw [strncaseeq_congr h ha (Nat.sub_le _ _)]
    · simp [hlen]
  · rfl

end HeadersControl
