import HeadersControl.Rules.Rule

/-! # The directive parser

`request_header_control` and `response_header_control` share one parser, which
turns the arguments of a directive into a rule. Whether a text compiles as a
complex value is decided by nginx.
-/

namespace HeadersControl

/-- Why a directive is rejected. -/
inductive ConfError
  | tooFewArguments
  | unknownOperation (op : Str)
  | nameRequired
  | valueRequired
  | invalidParameter (arg : Str)
  | emptyName
  | nameWhitespace (key : Str)
  | appendBuiltin (key : Str)
  | compile (text : Str)
  deriving DecidableEq, Repr

/-- What is logged after the directive name, and the argument that is quoted there. -/
def ConfError.log : ConfError → String × Option Str
  | .tooFewArguments => (": too few arguments", none)
  | .unknownOperation op => (": unknown operation", some op)
  | .nameRequired => (": header name is required", none)
  | .valueRequired => (": header value is required", none)
  | .invalidParameter arg => (": invalid parameter", some arg)
  | .emptyName => (": empty header name", none)
  | .nameWhitespace key => (": header name contains whitespace:", some key)
  | .appendBuiltin key => (": can not append builtin headers", some key)
  | .compile _ => ("", none)

variable {η ο : Type}

def isspace (c : UInt8) : Bool := c = 32 ∨ c = 9 ∨ c = 13 ∨ c = 10

def parseOpcode (op : Str) : Except ConfError Opcode :=
  if sameName op (str "set") then .ok .set
  else if sameName op (str "add") then .ok .add
  else if sameName op (str "pass") then .ok .pass
  else if sameName op (str "clear") then .ok .clear
  else if sameName op (str "append") then .ok .append
  else if sameName op (str "rewrite") then .ok .rewrite
  else .error (.unknownOperation op)

/-- `ngx_http_compile_complex_value`, with the verdict of nginx as an oracle. -/
def compileComplexValue (compiles : Str → Bool) (text : Str) : Except ConfError ComplexValue :=
  if compiles text then .ok text else .error (.compile text)

/-- The parts of a rule that `ngx_http_headers_control_parse_header` fills in. -/
def parseHeader (compiles : Str → Bool) (handlers : SetHandlers η ο) (opcode : Opcode)
    (key value : Str) :
    Except ConfError (Option (SetHeader η ο) × Option ComplexValue) := do
  if key = [] then throw .emptyName
  if key.any isspace then throw (.nameWhitespace key)
  let found := handlers.find key
  let value := if opcode = .clear then [] else value
  if value = [] then pure (found, none)
  else
    -- the NUL is compiled as part of the value, so that request values end with it
    let text ← compileComplexValue compiles (value ++ [0])
    pure (found, some text)

/-- The `-n` flag. -/
def parseNext : List Str → Bool × List Str
  | [] => (false, [])
  | arg :: args => if arg = str "-n" then (true, args) else (false, arg :: args)

/-- The value, which `clear` and `pass` do not take. -/
def parseValue (opcode : Opcode) (args : List Str) : Except ConfError (Str × List Str) :=
  if opcode = .clear ∨ opcode = .pass then .ok ([], args)
  else match args with
    | [] => .error .valueRequired
    | value :: args => .ok (value, args)

/-- The optional condition `if=` or `if!=`, with its polarity. -/
def parseFilter (compiles : Str → Bool) :
    List Str → Except ConfError (Option ComplexValue × Bool × List Str)
  | [] => .ok (none, false, [])
  | arg :: args =>
      if 3 < arg.length ∧ str "if=" <+: arg then do
        let filter ← compileComplexValue compiles (arg.drop 3)
        pure (some filter, false, args)
      else if 4 < arg.length ∧ str "if!=" <+: arg then do
        let filter ← compileComplexValue compiles (arg.drop 4)
        pure (some filter, true, args)
      else .error (.invalidParameter arg)

/--
`ngx_http_headers_control_parse_directive` on the arguments behind the directive name. The
rule gets the number of earlier rules as its id.
-/
def parseDirective (compiles : Str → Bool) (handlers : SetHandlers η ο) (cnt : ℕ)
    (args : List Str) : Except ConfError (HeaderVal η ο) := do
  match args with
  | op :: args =>
    if args = [] then throw .tooFewArguments
    let opcode ← parseOpcode op
    let (next, args) := parseNext args
    match args with
    | [] => throw .nameRequired
    | key :: args =>
      let (value, args) ← parseValue opcode args
      let (filter, negative, args) ← parseFilter compiles args
      match args with
      | arg :: _ => throw (.invalidParameter arg)
      | [] =>
        let (found, text) ← parseHeader compiles handlers opcode key value
        -- the source searches the table again, and behind equal lengths compares the same bytes
        if opcode = .append ∧ found.isSome then throw (.appendBuiltin key)
        pure
          { value := text
            hash := hashKeyLc key
            key
            handler := found.elim handlers.generic SetHeader.handler
            offset := found.bind SetHeader.offset
            opcode
            filter
            negative
            next
            id := cnt
            wildcard := key.getLast? = some 42 }
  | [] => throw .tooFewArguments

/-- What every rule satisfies that the parser lets through. -/
structure HeaderVal.Parsed (handlers : SetHandlers η ο) (hv : HeaderVal η ο) : Prop where
  key_ne_nil : hv.key ≠ []
  hash : hv.hash = hashKeyLc hv.key
  handler : hv.handler = (handlers.find hv.key).elim handlers.generic SetHeader.handler
  offset : hv.offset = (handlers.find hv.key).bind SetHeader.offset
  clear : hv.opcode = .clear → hv.value = none
  append : hv.opcode = .append → handlers.find hv.key = none
  wildcard : hv.wildcard = decide (hv.key.getLast? = some 42)

theorem HeaderVal.Parsed.cases {handlers : SetHandlers η ο} {hv : HeaderVal η ο}
    (hp : hv.Parsed handlers) :
    (∃ e ∈ handlers.entries, handlers.find hv.key = some e ∧ sameName hv.key e.name = true ∧
      hv.handler = e.handler ∧ hv.offset = e.offset) ∨
    (∀ e ∈ handlers.entries, sameName hv.key e.name = false) ∧
      hv.handler = handlers.generic ∧ hv.offset = none := by
  have hh := hp.handler
  have ho := hp.offset
  cases hf : handlers.find hv.key with
  | none =>
    rw [hf] at hh ho
    exact Or.inr ⟨fun e he => by simpa using List.find?_eq_none.mp hf e he, hh, ho⟩
  | some e =>
    rw [hf] at hh ho
    exact Or.inl ⟨e, List.mem_of_find?_eq_some hf, rfl, by simpa using List.find?_some hf, hh, ho⟩

variable {compiles : Str → Bool} {handlers : SetHandlers η ο} {opcode : Opcode} {key value : Str}

theorem parseHeader_eq_ok {res : Option (SetHeader η ο) × Option ComplexValue}
    (h : parseHeader compiles handlers opcode key value = .ok res) :
    key ≠ [] ∧ res.1 = handlers.find key ∧ (opcode = .clear → res.2 = none) := by
  simp only [parseHeader, throw, throwThe, MonadExceptOf.throw, bind, Except.bind, pure,
    Except.pure] at h
  by_cases hkey : key = []
  · simp [hkey] at h
  rw [if_neg hkey] at h
  split at h
  · cases h
  by_cases hvalue : (if opcode = .clear then [] else value) = []
  · rw [if_pos hvalue] at h
    obtain rfl := Except.ok.inj h
    exact ⟨hkey, rfl, fun _ => rfl⟩
  · rw [if_neg hvalue] at h
    split at h
    · cases h
    · obtain rfl := Except.ok.inj h
      exact ⟨hkey, rfl, fun hc => absurd (if_pos hc) hvalue⟩

theorem parseDirective_eq_ok {cnt : ℕ} {args : List Str} {hv : HeaderVal η ο}
    (h : parseDirective compiles handlers cnt args = .ok hv) :
    hv.id = cnt ∧ hv.Parsed handlers := by
  obtain _ | ⟨op, args⟩ := args
  · cases h
  simp only [parseDirective, throw, throwThe, MonadExceptOf.throw, bind, Except.bind, pure,
    Except.pure] at h
  split at h
  · cases h
  split at h
  · cases h
  split at h
  · cases h
  split at h
  · cases h
  split at h
  · cases h
  split at h
  · cases h
  split at h
  · cases h
  · rename_i hparse
    obtain ⟨hkey, hfound, hclear⟩ := parseHeader_eq_ok hparse
    split at h
    · cases h
    · rename_i happend
      obtain rfl := Except.ok.inj h
      refine ⟨rfl, hkey, rfl, by rw [hfound], by rw [hfound], hclear, fun ha => ?_, rfl⟩
      rw [← hfound]
      exact Option.not_isSome_iff_eq_none.mp fun hs => happend ⟨ha, hs⟩

end HeadersControl
