import HeadersControl.Rules.Grammar

/-! # Rules as directives

An accepted rule is spelled out as the arguments of a directive again. The parser
reads the same rule from them, and nothing but the letters of the operation can
differ from what was read at first.
-/

namespace HeadersControl

variable {η ο : Type} {compiles : Str → Bool} {handlers : SetHandlers η ο} {d : Phrase}
  {hv : HeaderVal η ο} {args : List Str} {cnt : ℕ}

def HeaderVal.phrase (hv : HeaderVal η ο) : Phrase where
  word := hv.opcode.word
  opcode := hv.opcode
  next := hv.next
  key := hv.key
  value := if hv.opcode.takesValue then some (hv.value.elim [] List.dropLast) else none
  filter := hv.filter.map fun text => (hv.negative, text)

def HeaderVal.directive (hv : HeaderVal η ο) : List Str := hv.phrase.args

namespace Phrase

def lower (d : Phrase) : Phrase := { d with word := d.opcode.word }

theorem lower_args (hd : d.Valid compiles handlers) :
    d.lower.args = d.args.modifyHead strlow := by
  simp [args, lower, hd.word]

theorem Valid.lower (hd : d.Valid compiles handlers) : d.lower.Valid compiles handlers where
  word := by
    show strlow d.opcode.word = d.opcode.word
    cases d.opcode <;> decide
  greedy := hd.greedy
  key_ne_nil := hd.key_ne_nil
  plain := hd.plain
  value := hd.value
  filter := hd.filter
  append := hd.append
  compiles_filter := hd.compiles_filter
  compiles_text := hd.compiles_text

theorem value_of_text (v : Str) : (text (some v)).elim [] List.dropLast = v := by
  by_cases hv : v = []
  · subst hv
    rfl
  · have htext : text (some v) = some (v ++ [0]) := if_neg hv
    rw [htext, Option.elim_some, List.dropLast_concat]

theorem phrase_rule (hd : d.Valid compiles handlers) (cnt : ℕ) :
    (d.rule handlers cnt).phrase = d.lower := by
  obtain ⟨word, opcode, next, key, value, filter⟩ := d
  have hvalue : (if opcode.takesValue then some ((text value).elim [] List.dropLast) else none) =
      value := by
    cases value with
    | none =>
      have htakes : opcode.takesValue = false := hd.value.symm
      rw [htakes]
      rfl
    | some v =>
      have htakes : opcode.takesValue = true := hd.value.symm
      rw [htakes, value_of_text]
      rfl
  have hfilter : (filter.map Prod.snd).map (fun text => (filter.elim false Prod.fst, text)) =
      filter := by
    cases filter <;> rfl
  exact congrArg₂ (Phrase.mk opcode.word opcode next key) hvalue hfilter

end Phrase

theorem directive_eq (hp : handlers.Proper)
    (h : parseDirective compiles handlers cnt args = .ok hv) :
    hv.directive = args.modifyHead strlow := by
  obtain ⟨d, hd, rfl, rfl⟩ := (parseDirective_iff hp).mp h
  rw [HeaderVal.directive, Phrase.phrase_rule hd, Phrase.lower_args hd]

theorem parse_directive (hp : handlers.Proper)
    (h : parseDirective compiles handlers cnt args = .ok hv) (n : ℕ) :
    parseDirective compiles handlers n hv.directive = .ok { hv with id := n } := by
  obtain ⟨d, hd, rfl, rfl⟩ := (parseDirective_iff hp).mp h
  apply (parseDirective_iff hp).mpr
  refine ⟨d.lower, hd.lower, ?_, rfl⟩
  rw [HeaderVal.directive, Phrase.phrase_rule hd]

/--
Both parsers read a rule again from the directive that is written for it, at any place, and this
directive is the one that was read, up to the letters of its operation.
-/
theorem directive_round_trip :
    (∀ (hv : HeaderVal InHandler InField) (cnt : ℕ) (args : List Str),
      parseDirective compiles setHandlersIn cnt args = .ok hv →
      hv.directive = args.modifyHead strlow ∧ ∀ n,
        parseDirective compiles setHandlersIn n hv.directive = .ok { hv with id := n }) ∧
    ∀ (hv : HeaderVal OutHandler OutField) (cnt : ℕ) (args : List Str),
      parseDirective compiles setHandlersOut cnt args = .ok hv →
      hv.directive = args.modifyHead strlow ∧ ∀ n,
        parseDirective compiles setHandlersOut n hv.directive = .ok { hv with id := n } := by
  constructor
  · intro hv cnt args h
    exact ⟨directive_eq setHandlersIn_proper h, parse_directive setHandlersIn_proper h⟩
  · intro hv cnt args h
    exact ⟨directive_eq setHandlersOut_proper h, parse_directive setHandlersOut_proper h⟩

/-- The name `-n` needs its flag, and a value that looks like a condition stays a value. -/
theorem directive_round_trip_flag :
    ∃ hv, parseDirective (fun _ => true) setHandlersOut 0
        [str "SET", str "-n", str "-n", str "if=x", str "if!=y"] = .ok hv ∧
      hv.directive = [str "set", str "-n", str "-n", str "if=x", str "if!=y"] := by
  have hparse : parseDirective (fun _ => true) setHandlersOut 0
    [str "SET", str "-n", str "-n", str "if=x", str "if!=y"] = .ok _ := rfl
  exact ⟨_, hparse, (directive_round_trip.2 _ 0 _ hparse).1.trans (by decide)⟩

end HeadersControl
