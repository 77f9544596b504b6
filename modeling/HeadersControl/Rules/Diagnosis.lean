import HeadersControl.Rules.Grammar

/-! # What is wrong with a directive

A directive that the grammar does not accept is rejected for one reason, which is
described here by its parts as well. The parser gives this reason.
-/

namespace HeadersControl

variable {η ο : Type}

namespace Phrase

/-- What has to hold for the arguments of a directive to be told apart. -/
structure Spelled (d : Phrase) : Prop where
  word : strlow d.word = d.opcode.word
  greedy : d.next = false → d.key ≠ str "-n"
  value : d.value.isSome = d.opcode.takesValue
  filter : ∀ x ∈ d.filter, x.2 ≠ []

def IsCondition (arg : Str) : Prop := ∃ negative x, x ≠ [] ∧ arg = polarity negative ++ x

/-- What is wrong with the name or the value. -/
inductive Blames (compiles : Str → Bool) (handlers : SetHandlers η ο) (d : Phrase) :
    ConfError → Prop
  | empty : d.key = [] → Blames compiles handlers d .emptyName
  | whitespace : (∃ c ∈ d.key, isspace c = true) → Blames compiles handlers d (.nameWhitespace d.key)
  | text {v : Str} : d.key ≠ [] → (∀ c ∈ d.key, isspace c = false) → v ∈ text d.value →
      compiles v = false → Blames compiles handlers d (.compile v)
  | builtin {e : SetHeader η ο} : d.key ≠ [] → (∀ c ∈ d.key, isspace c = false) →
      (∀ v ∈ text d.value, compiles v = true) → d.opcode = .append → e ∈ handlers.entries →
      strlow d.key = strlow e.name → Blames compiles handlers d (.appendBuiltin d.key)

end Phrase

/-- The reason why a directive with these arguments is rejected. -/
inductive Rejected (compiles : Str → Bool) (handlers : SetHandlers η ο) :
    List Str → ConfError → Prop
  | few {args : List Str} : args.length < 2 → Rejected compiles handlers args .tooFewArguments
  | operation {op : Str} {args : List Str} : args ≠ [] → (∀ o : Opcode, strlow op ≠ o.word) →
      Rejected compiles handlers (op :: args) (.unknownOperation op)
  | name {op : Str} {o : Opcode} : strlow op = o.word →
      Rejected compiles handlers [op, str "-n"] .nameRequired
  | value {op key : Str} {o : Opcode} {next : Bool} : strlow op = o.word → o.takesValue = true →
      (next = false → key ≠ str "-n") →
      Rejected compiles handlers (op :: (Phrase.flag next ++ [key])) .valueRequired
  | parameter {d : Phrase} {arg : Str} {rest : List Str} : d.Spelled → d.filter = none →
      ¬ Phrase.IsCondition arg →
      Rejected compiles handlers (d.args ++ arg :: rest) (.invalidParameter arg)
  | condition {d : Phrase} {x : Bool × Str} {rest : List Str} : d.Spelled → d.filter = some x →
      compiles x.2 = false → Rejected compiles handlers (d.args ++ rest) (.compile x.2)
  | superfluous {d : Phrase} {x : Bool × Str} {arg : Str} {rest : List Str} : d.Spelled →
      d.filter = some x → compiles x.2 = true →
      Rejected compiles handlers (d.args ++ arg :: rest) (.invalidParameter arg)
  | header {d : Phrase} {e : ConfError} : d.Spelled → (∀ x ∈ d.filter, compiles x.2 = true) →
      d.Blames compiles handlers e → Rejected compiles handlers d.args e

section Readers

variable {compiles : Str → Bool} {handlers : SetHandlers η ο} {opcode : Opcode} {key v : Str}
  {args rest : List Str} {next negative : Bool} {filter : Option ComplexValue} {e : ConfError}

theorem bind_eq_error {α β : Type} {m : Except ConfError α} {k : α → Except ConfError β} :
    (m >>= k) = .error e ↔ m = .error e ∨ ∃ x, m = .ok x ∧ k x = .error e := by
  cases m with
  | error e' =>
    constructor
    · intro h
      obtain rfl := Except.error.inj h
      exact Or.inl rfl
    · rintro (h | ⟨x, hx, -⟩)
      · obtain rfl := Except.error.inj h
        rfl
      · cases hx
  | ok x =>
    constructor
    · intro h
      exact Or.inr ⟨x, rfl, h⟩
    · rintro (h | ⟨x', hx, h⟩)
      · cases h
      · obtain rfl := Except.ok.inj hx
        exact h

theorem parseOpcode_error {op : Str} : parseOpcode op = .error e ↔
    (∀ o : Opcode, strlow op ≠ o.word) ∧ e = .unknownOperation op := by
  constructor
  · intro h
    constructor
    · intro o ho
      cases (parseOpcode_iff.mpr ho).symm.trans h
    · unfold parseOpcode at h
      split_ifs at h
      exact (Except.error.inj h).symm
  · rintro ⟨hno, rfl⟩
    cases hop : parseOpcode op with
    | ok o => exact absurd (parseOpcode_iff.mp hop) (hno o)
    | error e =>
      unfold parseOpcode at hop
      split_ifs at hop
      exact hop.symm

theorem parseValue_error : parseValue opcode args = .error e ↔
    opcode.takesValue = true ∧ args = [] ∧ e = .valueRequired := by
  unfold parseValue
  cases opcode <;> cases args <;> simp [Opcode.takesValue, eq_comm]

theorem parseFilter_cons (arg : Str) : parseFilter compiles (arg :: args) =
    if (Phrase.polarity false).length < arg.length ∧ Phrase.polarity false <+: arg then do
      let filter ← compileComplexValue compiles (arg.drop (Phrase.polarity false).length)
      pure (some filter, false, args)
    else if (Phrase.polarity true).length < arg.length ∧ Phrase.polarity true <+: arg then do
      let filter ← compileComplexValue compiles (arg.drop (Phrase.polarity true).length)
      pure (some filter, true, args)
    else .error (.invalidParameter arg) := rfl

theorem parseFilter_condition {neg : Bool} {x : Str} (hx : x ≠ []) :
    parseFilter compiles ((Phrase.polarity neg ++ x) :: args) =
      if compiles x = true then .ok (some x, neg, args) else .error (.compile x) := by
  have hpre : ∀ neg', (Phrase.polarity neg').length < (Phrase.polarity neg ++ x).length ∧
      Phrase.polarity neg' <+: Phrase.polarity neg ++ x ↔ neg' = neg :=
    fun neg' => polarity_unique rfl hx
  have hread : (do
      let filter ← compileComplexValue compiles
        ((Phrase.polarity neg ++ x).drop (Phrase.polarity neg).length)
      pure (some filter, neg, args)) =
        if compiles x = true then (.ok (some x, neg, args) :
          Except ConfError (Option ComplexValue × Bool × List Str)) else .error (.compile x) := by
    rw [List.drop_left, compileComplexValue]
    cases compiles x with
    | true => rfl
    | false => rfl
  rw [← hread, parseFilter_cons]
  cases neg with
  | false => exact if_pos ((hpre false).mpr rfl)
  | true =>
    have hne : ¬ ((Phrase.polarity false).length < (Phrase.polarity true ++ x).length ∧
        Phrase.polarity false <+: Phrase.polarity true ++ x) := by
      rw [hpre]
      decide
    rw [if_neg hne]
    exact if_pos ((hpre true).mpr rfl)

theorem parseFilter_other {arg : Str} (h : ¬ Phrase.IsCondition arg) :
    parseFilter compiles (arg :: args) = .error (.invalidParameter arg) := by
  have hneg : ∀ neg, ¬ ((Phrase.polarity neg).length < arg.length ∧
      Phrase.polarity neg <+: arg) := by
    rintro neg ⟨hlen, x, rfl⟩
    refine h ⟨neg, x, ?_, rfl⟩
    rintro rfl
    simp at hlen
  rw [parseFilter_cons, if_neg (hneg false)]
  exact if_neg (hneg true)

theorem parseFilter_error : parseFilter compiles args = .error e ↔
    ∃ arg rest, args = arg :: rest ∧ (¬ Phrase.IsCondition arg ∧ e = .invalidParameter arg ∨
      ∃ x : Bool × Str, x.2 ≠ [] ∧ arg = Phrase.polarity x.1 ++ x.2 ∧ compiles x.2 = false ∧
        e = .compile x.2) := by
  constructor
  · intro h
    cases args with
    | nil => cases h
    | cons arg args =>
      refine ⟨arg, args, rfl, ?_⟩
      by_cases hc : Phrase.IsCondition arg
      · obtain ⟨neg, x, hx, rfl⟩ := hc
        rw [parseFilter_condition hx] at h
        split_ifs at h with hcompiles
        obtain rfl := Except.error.inj h
        exact Or.inr ⟨(neg, x), hx, rfl, by simpa using hcompiles, rfl⟩
      · rw [parseFilter_other hc] at h
        exact Or.inl ⟨hc, (Except.error.inj h).symm⟩
  · rintro ⟨arg, rest, rfl, ⟨hc, rfl⟩ | ⟨⟨neg, x⟩, hx, rfl, hcompiles, rfl⟩⟩
    · exact parseFilter_other hc
    · rw [parseFilter_condition hx]
      exact if_neg (by simp [hcompiles])

theorem parseFilter_rest {arg : Str} :
    parseFilter compiles args = .ok (filter, negative, arg :: rest) ↔
      ∃ x : Bool × Str, x.2 ≠ [] ∧ args = Phrase.condition (some x) ++ arg :: rest ∧
        compiles x.2 = true ∧ filter = some x.2 ∧ negative = x.1 := by
  constructor
  · intro h
    cases args with
    | nil => cases h
    | cons arg' args =>
      by_cases hc : Phrase.IsCondition arg'
      · obtain ⟨neg, x, hx, rfl⟩ := hc
        rw [parseFilter_condition hx] at h
        split_ifs at h with hcompiles
        cases h
        exact ⟨(_, x), hx, rfl, hcompiles, rfl, rfl⟩
      · rw [parseFilter_other hc] at h
        cases h
  · rintro ⟨⟨neg, x⟩, hx, rfl, hcompiles, rfl, rfl⟩
    exact (parseFilter_condition hx).trans (if_pos hcompiles)

theorem parseHeader_plain {value : Option Str} (hvalue : value.isSome = opcode.takesValue)
    (hkey : key ≠ []) (hplain : ∀ c ∈ key, isspace c = false) :
    parseHeader compiles handlers opcode key (value.getD []) =
      (Phrase.text value).elim (.ok (handlers.find key, none)) fun text =>
        if compiles text = true then .ok (handlers.find key, some text)
        else .error (.compile text) := by
  have hclear : (if opcode = .clear then [] else value.getD []) = value.getD [] := by
    split_ifs with hc
    · subst hc
      rw [Option.isNone_iff_eq_none.mp (Option.isSome_eq_false_iff.mp hvalue), Option.getD_none]
    · rfl
  have hspace : ¬ key.any isspace = true := by simpa using hplain
  simp only [parseHeader, throw, throwThe, MonadExceptOf.throw, hclear]
  rw [if_neg hkey, if_neg hspace]
  cases value with
  | none => rfl
  | some v =>
    by_cases hv : v = []
    · subst hv
      rfl
    · have htext : Phrase.text (some v) = some (v ++ [0]) := if_neg hv
      rw [htext, Option.elim_some]
      show (if v = [] then pure (handlers.find key, none)
        else do
          let text ← compileComplexValue compiles (v ++ [0])
          pure (handlers.find key, some text)) = _
      rw [if_neg hv, compileComplexValue]
      cases compiles (v ++ [0]) with
      | true => rfl
      | false => rfl

theorem parseHeader_error {value : Option Str} (hvalue : value.isSome = opcode.takesValue) :
    parseHeader compiles handlers opcode key (value.getD []) = .error e ↔
      key = [] ∧ e = .emptyName ∨ (∃ c ∈ key, isspace c = true) ∧ e = .nameWhitespace key ∨
      key ≠ [] ∧ (∀ c ∈ key, isspace c = false) ∧
        ∃ v ∈ Phrase.text value, compiles v = false ∧ e = .compile v := by
  by_cases hkey : key = []
  · subst hkey
    constructor
    · intro h
      exact Or.inl ⟨rfl, (Except.error.inj h).symm⟩
    · rintro (⟨-, rfl⟩ | ⟨⟨c, hc, -⟩, -⟩ | ⟨hne, -⟩)
      · rfl
      · cases hc
      · exact absurd rfl hne
  by_cases hplain : ∀ c ∈ key, isspace c = false
  · have hno : ¬ ∃ c ∈ key, isspace c = true := by simpa using hplain
    rw [parseHeader_plain hvalue hkey hplain]
    constructor
    · intro h
      refine Or.inr (Or.inr ⟨hkey, hplain, ?_⟩)
      cases htext : Phrase.text value with
      | none =>
        rw [htext] at h
        cases h
      | some v =>
        rw [htext, Option.elim_some] at h
        split_ifs at h with hc
        exact ⟨v, rfl, by simpa using hc, (Except.error.inj h).symm⟩
    · rintro (⟨hnil, -⟩ | ⟨hc, -⟩ | ⟨-, -, v, hv, hc, rfl⟩)
      · exact absurd hnil hkey
      · exact absurd hc hno
      · rw [Option.mem_def.mp hv, Option.elim_some]
        exact if_neg (by simp [hc])
  · have hc : ∃ c ∈ key, isspace c = true := by simpa using hplain
    have hspace : key.any isspace = true := List.any_eq_true.mpr hc
    simp only [parseHeader, throw, throwThe, MonadExceptOf.throw]
    rw [if_neg hkey, if_pos hspace]
    constructor
    · intro h
      exact Or.inr (Or.inl ⟨hc, (Except.error.inj h).symm⟩)
    · rintro (⟨hnil, -⟩ | ⟨-, rfl⟩ | ⟨-, hall, -⟩)
      · exact absurd hnil hkey
      · rfl
      · exact absurd hall hplain

variable (compiles) in
theorem parseDirective_spelled (hp : handlers.Proper) {d : Phrase} (hd : d.Spelled) (cnt : ℕ)
    (rest : List Str) : ∃ k : Option ComplexValue × Bool × List Str →
      Except ConfError (HeaderVal η ο),
      parseDirective compiles handlers cnt
          (d.word :: (Phrase.flag d.next ++ d.key :: (d.value.toList ++ rest))) =
        (parseFilter compiles rest >>= k) ∧
      (∀ f n arg more, k (f, n, arg :: more) = .error (.invalidParameter arg)) ∧
      ∀ f n e, k (f, n, []) = .error e ↔ d.Blames compiles handlers e := by
  have hop : parseOpcode d.word = .ok d.opcode := parseOpcode_iff.mpr hd.word
  have hnext : parseNext (Phrase.flag d.next ++ d.key :: (d.value.toList ++ rest)) =
      (d.next, d.key :: (d.value.toList ++ rest)) :=
    parseNext_iff.mpr ⟨rfl, fun hn hk => hd.greedy hn (Option.some.inj hk)⟩
  have hvalue : parseValue d.opcode (d.value.toList ++ rest) = .ok (d.value.getD [], rest) :=
    parseValue_iff.mpr ⟨d.value, hd.value, rfl, rfl⟩
  simp only [parseDirective, throw, throwThe, MonadExceptOf.throw]
  rw [if_neg (by simp), hop, hnext]
  dsimp only [bind, Except.bind]
  rw [hvalue]
  refine ⟨_, rfl, fun _ _ _ _ => rfl, fun f n e => ?_⟩
  change (parseHeader compiles handlers d.opcode d.key (d.value.getD []) >>= fun res =>
    if d.opcode = .append ∧ res.1.isSome = true then Except.error (ConfError.appendBuiltin d.key)
    else Except.ok _) = _ ↔ _
  rw [bind_eq_error, parseHeader_error hd.value]
  constructor
  · rintro ((⟨hkey, rfl⟩ | ⟨hspace, rfl⟩ | ⟨hkey, hplain, v, hv, hc, rfl⟩) | ⟨res, hres, h⟩)
    · exact .empty hkey
    · exact .whitespace hspace
    · exact .text hkey hplain hv hc
    · obtain ⟨hkey, hplain, htext, rfl⟩ := (parseHeader_iff hd.value).mp hres
      split_ifs at h with happend
      obtain rfl := Except.error.inj h
      obtain ⟨entry, hfind⟩ := Option.isSome_iff_exists.mp happend.2
      obtain ⟨hm, hname⟩ := hp.find_eq_some.mp hfind
      exact .builtin hkey hplain htext happend.1 hm hname
  · intro h
    cases h with
    | empty hkey => exact Or.inl (Or.inl ⟨hkey, rfl⟩)
    | whitespace hspace => exact Or.inl (Or.inr (Or.inl ⟨hspace, rfl⟩))
    | text hkey hplain hv hc => exact Or.inl (Or.inr (Or.inr ⟨hkey, hplain, _, hv, hc, rfl⟩))
    | builtin hkey hplain htext hop hm hname =>
      have hfind := hp.find_eq_some.mpr ⟨hm, hname⟩
      refine Or.inr ⟨_, (parseHeader_iff hd.value).mpr ⟨hkey, hplain, htext, rfl⟩, ?_⟩
      rw [if_pos ⟨hop, by simp [hfind]⟩]

end Readers

variable {compiles : Str → Bool} {handlers : SetHandlers η ο} {args : List Str} {e : ConfError}

theorem Phrase.args_append (d : Phrase) (rest : List Str) : d.args ++ rest =
    d.word :: (flag d.next ++ d.key :: (d.value.toList ++ (condition d.filter ++ rest))) := by
  simp [Phrase.args]

section Stages

variable {op : Str} {o : Opcode} {cnt : ℕ} (hne : args ≠ [])
include hne

theorem parseDirective_of_word (hop : parseOpcode op = .error e) :
    parseDirective compiles handlers cnt (op :: args) = .error e := by
  simp only [parseDirective, throw, throwThe, MonadExceptOf.throw]
  rw [if_neg hne, hop]
  rfl

theorem parseDirective_of_name {next : Bool} (hop : parseOpcode op = .ok o)
    (hnext : parseNext args = (next, [])) :
    parseDirective compiles handlers cnt (op :: args) = .error .nameRequired := by
  simp only [parseDirective, throw, throwThe, MonadExceptOf.throw]
  rw [if_neg hne, hop, hnext]
  rfl

theorem parseDirective_of_value {next : Bool} {key : Str} {rest : List Str}
    (hop : parseOpcode op = .ok o) (hnext : parseNext args = (next, key :: rest))
    (hvalue : parseValue o rest = .error e) :
    parseDirective compiles handlers cnt (op :: args) = .error e := by
  simp only [parseDirective, throw, throwThe, MonadExceptOf.throw]
  rw [if_neg hne, hop, hnext]
  dsimp only [bind, Except.bind]
  rw [hvalue]

end Stages

theorem rejected_of_more (hp : handlers.Proper) {op key : Str} {o : Opcode} {next : Bool}
    {value : Option Str} (hspelled : ∀ x : Option (Bool × Str), (∀ y ∈ x, y.2 ≠ []) →
      (Phrase.mk op o next key value x).Spelled) {cnt : ℕ} {more : List Str}
    (h : parseDirective compiles handlers cnt
      (op :: (Phrase.flag next ++ key :: (value.toList ++ more))) = .error e) :
    Rejected compiles handlers (op :: (Phrase.flag next ++ key :: (value.toList ++ more))) e := by
  have hnone := hspelled none (by simp)
  cases hf : parseFilter compiles more with
  | error e' =>
    obtain ⟨k, hparse, -, -⟩ := parseDirective_spelled compiles hp hnone cnt more
    rw [hf] at hparse
    obtain rfl := Except.error.inj (hparse.symm.trans h)
    obtain ⟨arg, rest, rfl, ⟨hc, rfl⟩ | ⟨x, hx, rfl, hc, rfl⟩⟩ := parseFilter_error.mp hf
    · have hr : Rejected compiles handlers
          (Phrase.args ⟨op, o, next, key, value, none⟩ ++ arg :: rest) (.invalidParameter arg) :=
        .parameter hnone rfl hc
      rwa [Phrase.args_append] at hr
    · have hr : Rejected compiles handlers
          (Phrase.args ⟨op, o, next, key, value, some x⟩ ++ rest) (.compile x.2) :=
        .condition (hspelled (some x) (by simpa using hx)) rfl hc
      rwa [Phrase.args_append] at hr
  | ok p =>
    obtain ⟨f, n, _ | ⟨arg, rest⟩⟩ := p
    · obtain ⟨x, rfl, hx, hc, -, -⟩ := parseFilter_iff.mp hf
      obtain ⟨k, hparse, -, hend⟩ :=
        parseDirective_spelled compiles hp (hspelled x hx) cnt (Phrase.condition x)
      rw [hf] at hparse
      exact .header (hspelled x hx) hc ((hend f n e).mp (hparse.symm.trans h))
    · obtain ⟨x, hx, rfl, hc, -, -⟩ := parseFilter_rest.mp hf
      have hd := hspelled (some x) (by simpa using hx)
      obtain ⟨k, hparse, hrest, -⟩ := parseDirective_spelled compiles hp hd cnt
        (Phrase.condition (some x) ++ arg :: rest)
      rw [hf] at hparse
      obtain rfl := Except.error.inj ((hrest f n arg rest).symm.trans (hparse.symm.trans h))
      have hr : Rejected compiles handlers
          (Phrase.args ⟨op, o, next, key, value, some x⟩ ++ arg :: rest)
          (.invalidParameter arg) := .superfluous hd rfl hc
      rwa [Phrase.args_append] at hr

theorem rejected_of_parse (hp : handlers.Proper) {cnt : ℕ}
    (h : parseDirective compiles handlers cnt args = .error e) :
    Rejected compiles handlers args e := by
  obtain _ | ⟨op, _ | ⟨arg, args⟩⟩ := args
  · cases h
    exact .few (by simp)
  · cases h
    exact .few (by simp)
  cases hop : parseOpcode op with
  | error e' =>
    obtain rfl := Except.error.inj ((parseDirective_of_word (by simp) hop).symm.trans h)
    obtain ⟨hno, rfl⟩ := parseOpcode_error.mp hop
    exact .operation (by simp) hno
  | ok o =>
    have hword := parseOpcode_iff.mp hop
    obtain ⟨next, rest, hnext⟩ : ∃ next rest, parseNext (arg :: args) = (next, rest) := ⟨_, _, rfl⟩
    obtain ⟨hargs, hgreedy⟩ := parseNext_iff.mp hnext
    obtain _ | ⟨key, rest⟩ := rest
    · obtain rfl := Except.error.inj ((parseDirective_of_name (by simp) hop hnext).symm.trans h)
      cases next with
      | false => cases hargs
      | true =>
        rw [hargs]
        exact .name hword
    · have hkey : next = false → key ≠ str "-n" := fun hn hk => hgreedy hn (congrArg some hk)
      rw [hargs] at h ⊢
      cases hvalue : parseValue o rest with
      | error e' =>
        obtain rfl := Except.error.inj
          ((parseDirective_of_value (by simp) hop hnext hvalue).symm.trans (hargs ▸ h))
        obtain ⟨htakes, rfl, rfl⟩ := parseValue_error.mp hvalue
        exact .value hword htakes hkey
      | ok p =>
        obtain ⟨v, more⟩ := p
        obtain ⟨value, hsome, rfl, rfl⟩ := parseValue_iff.mp hvalue
        exact rejected_of_more hp (fun x hx => ⟨hword, hkey, hsome, hx⟩) h

theorem Rejected.parse (hp : handlers.Proper) (cnt : ℕ) (h : Rejected compiles handlers args e) :
    parseDirective compiles handlers cnt args = .error e := by
  cases h with
  | few hlen =>
    obtain _ | ⟨op, _ | ⟨arg, args⟩⟩ := args
    · rfl
    · rfl
    · exact absurd hlen (by simp)
  | operation hne hno => exact parseDirective_of_word hne (parseOpcode_error.mpr ⟨hno, rfl⟩)
  | name hop => exact parseDirective_of_name (by simp) (parseOpcode_iff.mpr hop) rfl
  | @value op key o next hop htakes hgreedy =>
    have hnext : parseNext (Phrase.flag next ++ [key]) = (next, [key]) :=
      parseNext_iff.mpr ⟨rfl, fun hn hk => hgreedy hn (Option.some.inj hk)⟩
    exact parseDirective_of_value (by simp) (parseOpcode_iff.mpr hop) hnext
      (parseValue_error.mpr ⟨htakes, rfl, rfl⟩)
  | @parameter d arg rest hd hnone hc =>
    obtain ⟨k, hparse, -, -⟩ := parseDirective_spelled compiles hp hd cnt (arg :: rest)
    rw [Phrase.args_append, hnone]
    refine hparse.trans (bind_eq_error.mpr (Or.inl ?_))
    exact parseFilter_other hc
  | @condition d x rest hd hx hc =>
    obtain ⟨k, hparse, -, -⟩ :=
      parseDirective_spelled compiles hp hd cnt (Phrase.condition d.filter ++ rest)
    rw [Phrase.args_append]
    refine hparse.trans (bind_eq_error.mpr (Or.inl ?_))
    rw [hx]
    exact (parseFilter_condition (hd.filter x hx)).trans (if_neg (by simp [hc]))
  | @superfluous d x arg rest hd hx hc =>
    obtain ⟨k, hparse, hrest, -⟩ :=
      parseDirective_spelled compiles hp hd cnt (Phrase.condition d.filter ++ arg :: rest)
    rw [Phrase.args_append]
    refine hparse.trans (bind_eq_error.mpr (Or.inr ⟨_, ?_, hrest (some x.2) x.1 arg rest⟩))
    rw [hx]
    exact parseFilter_rest.mpr ⟨x, hd.filter x hx, rfl, hc, rfl, rfl⟩
  | @header d e hd hc hblame =>
    obtain ⟨k, hparse, -, hend⟩ :=
      parseDirective_spelled compiles hp hd cnt (Phrase.condition d.filter)
    have hfilter : parseFilter compiles (Phrase.condition d.filter) =
        .ok (d.filter.map Prod.snd, d.filter.elim false Prod.fst, []) :=
      parseFilter_iff.mpr ⟨d.filter, rfl, hd.filter, hc, rfl, rfl⟩
    exact hparse.trans (bind_eq_error.mpr (Or.inr ⟨_, hfilter, (hend _ _ e).mpr hblame⟩))

theorem parseDirective_error (hp : handlers.Proper) (cnt : ℕ) :
    parseDirective compiles handlers cnt args = .error e ↔ Rejected compiles handlers args e := by
  constructor
  · intro h
    exact rejected_of_parse hp h
  · intro h
    exact h.parse hp cnt

theorem Rejected.quoted (h : Rejected compiles handlers args e) {arg : Str} (ha : arg ∈ e.log.2) :
    arg ∈ args := by
  have hkey : ∀ d : Phrase, d.key ∈ d.args := fun d => by simp [Phrase.args]
  cases h with
  | operation =>
    obtain rfl := Option.some.inj ha
    exact List.mem_cons_self
  | parameter =>
    obtain rfl := Option.some.inj ha
    simp
  | superfluous =>
    obtain rfl := Option.some.inj ha
    simp
  | @header d _ _ _ hblame =>
    cases hblame with
    | whitespace =>
      obtain rfl := Option.some.inj ha
      exact hkey d
    | builtin =>
      obtain rfl := Option.some.inj ha
      exact hkey d
    | empty => cases ha
    | text => cases ha
  | few => cases ha
  | name => cases ha
  | value => cases ha
  | condition => cases ha

/--
Both directives reject an argument vector for the reason that its parts give, whatever the number
of rules so far, and an argument that is quoted in the log is one of the directive.
-/
theorem directive_diagnosis (compiles : Str → Bool) (cnt : ℕ) (args : List Str) (e : ConfError) :
    (parseDirective compiles setHandlersIn cnt args = .error e ↔
      Rejected compiles setHandlersIn args e) ∧
    (parseDirective compiles setHandlersOut cnt args = .error e ↔
      Rejected compiles setHandlersOut args e) ∧
    (parseDirective compiles setHandlersIn cnt args = .error e ∨
      parseDirective compiles setHandlersOut cnt args = .error e → ∀ arg ∈ e.log.2, arg ∈ args) := by
  refine ⟨parseDirective_error setHandlersIn_proper cnt,
    parseDirective_error setHandlersOut_proper cnt, ?_⟩
  rintro (h | h) arg harg
  · exact ((parseDirective_error setHandlersIn_proper cnt).mp h).quoted harg
  · exact ((parseDirective_error setHandlersOut_proper cnt).mp h).quoted harg

/-- An argument that is too many comes before a name that is empty. -/
example : parseDirective (fun _ => true) setHandlersOut 0
    [str "set", [], str "v", str "if=c", str "x"] = .error (.invalidParameter (str "x")) := rfl

end HeadersControl
