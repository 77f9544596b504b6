import HeadersControl.Request.Handlers
import HeadersControl.Response.Handlers
import HeadersControl.Rules.Isolation
import Mathlib.Data.List.Infix

/-! # The grammar of directives

A directive is described by its parts and by what they must satisfy, without a
position in its arguments. The parser accepts the argument vectors that spell out
such parts and gives the rule that the parts describe.
-/

namespace HeadersControl

variable {ι η ο : Type}

def Opcode.word : Opcode → Str
  | .set => str "set"
  | .clear => str "clear"
  | .add => str "add"
  | .append => str "append"
  | .rewrite => str "rewrite"
  | .pass => str "pass"

def Opcode.takesValue : Opcode → Bool
  | .clear => false
  | .pass => false
  | _ => true

/-- The parts of a directive; a condition is given by its polarity and its text. -/
structure Phrase where
  word : Str
  opcode : Opcode
  next : Bool
  key : Str
  value : Option Str
  filter : Option (Bool × Str)

namespace Phrase

def flag (next : Bool) : List Str := if next then [str "-n"] else []

def polarity (negative : Bool) : Str := if negative then str "if!=" else str "if="

def condition (filter : Option (Bool × Str)) : List Str :=
  filter.toList.map fun x => polarity x.1 ++ x.2

def args (d : Phrase) : List Str :=
  d.word :: (flag d.next ++ d.key :: (d.value.toList ++ condition d.filter))

def text (value : Option Str) : Option ComplexValue :=
  value.bind fun v => if v = [] then none else some (v ++ [0])

/-- The grammar, where `compiles` is the verdict of nginx on complex values. -/
structure Valid (compiles : Str → Bool) (handlers : SetHandlers η ο) (d : Phrase) : Prop where
  word : strlow d.word = d.opcode.word
  greedy : d.next = false → d.key ≠ str "-n"
  key_ne_nil : d.key ≠ []
  plain : ∀ c ∈ d.key, isspace c = false
  value : d.value.isSome = d.opcode.takesValue
  filter : ∀ x ∈ d.filter, x.2 ≠ []
  append : d.opcode = .append → ∀ e ∈ handlers.entries, strlow d.key ≠ strlow e.name
  compiles_filter : ∀ x ∈ d.filter, compiles x.2 = true
  compiles_text : ∀ v ∈ text d.value, compiles v = true

def rule (handlers : SetHandlers η ο) (cnt : ℕ) (d : Phrase) : HeaderVal η ο where
  value := text d.value
  hash := hashKeyLc d.key
  key := d.key
  handler := (handlers.find d.key).elim handlers.generic SetHeader.handler
  offset := (handlers.find d.key).bind SetHeader.offset
  opcode := d.opcode
  filter := d.filter.map Prod.snd
  negative := d.filter.elim false Prod.fst
  next := d.next
  id := cnt
  wildcard := d.key.getLast? = some 42

/-- A rule does what the parts of its directive say. -/
structure Describes (handlers : SetHandlers η ο) (cnt : ℕ) (d : Phrase) (hv : HeaderVal η ο) :
    Prop where
  opcode : hv.opcode = d.opcode
  next : hv.next = d.next
  key : hv.key = d.key
  hash : hv.hash = hashKeyLc d.key
  wildcard : hv.wildcard = true ↔ d.key.getLast? = some 42
  value : hv.value = text d.value
  filter : hv.filter = d.filter.map Prod.snd
  negative : hv.negative = true ↔ ∃ x, d.filter = some (true, x)
  id : hv.id = cnt
  handler :
    (∃ e ∈ handlers.entries,
      (∀ e' ∈ handlers.entries, strlow d.key = strlow e'.name ↔ e' = e) ∧
        hv.handler = e.handler ∧ hv.offset = e.offset) ∨
    (∀ e ∈ handlers.entries, strlow d.key ≠ strlow e.name) ∧
      hv.handler = handlers.generic ∧ hv.offset = none

end Phrase

structure SetHandlers.Proper (handlers : SetHandlers η ο) : Prop where
  plain : ∀ e ∈ handlers.entries, 0 ∉ e.name
  distinct : (handlers.entries.map fun e => strlow e.name).Nodup

theorem setHandlersIn_proper : setHandlersIn.Proper where
  plain := by decide
  distinct := by decide

theorem setHandlersOut_proper : setHandlersOut.Proper where
  plain := by decide
  distinct := by decide

theorem sameName_iff_of_plain {a b : Str} (hb : 0 ∉ b) :
    sameName a b = true ↔ strlow a = strlow b := by
  constructor
  · intro h
    exact strlow_eq_of_sameName h hb
  · intro h
    have ha : 0 ∉ a := by
      intro ha
      have hlow : tolower 0 ∈ strlow b := h ▸ List.mem_map_of_mem ha
      obtain ⟨c, hc, hz⟩ := List.mem_map.mp hlow
      exact hb (tolower_eq_zero.mp hz ▸ hc)
    exact (sameName_iff_strlow ha hb).mpr h

namespace SetHandlers.Proper

variable {handlers : SetHandlers η ο} {key : Str} {e : SetHeader η ο}

theorem find_eq_some (hp : handlers.Proper) :
    handlers.find key = some e ↔ e ∈ handlers.entries ∧ strlow key = strlow e.name := by
  obtain ⟨hplain, hdistinct⟩ := hp
  unfold SetHandlers.find
  constructor
  · intro h
    have he := List.mem_of_find?_eq_some h
    exact ⟨he, (sameName_iff_of_plain (hplain e he)).mp (by simpa using List.find?_some h)⟩
  · rintro ⟨he, hkey⟩
    have hsame : sameName key e.name = true := (sameName_iff_of_plain (hplain e he)).mpr hkey
    cases hfind : handlers.entries.find? fun e => sameName key e.name with
    | none => exact absurd hsame (List.find?_eq_none.mp hfind e he)
    | some e' =>
      have hm := List.mem_of_find?_eq_some hfind
      have hkey' := (sameName_iff_of_plain (hplain e' hm)).mp (by simpa using List.find?_some hfind)
      rw [List.inj_on_of_nodup_map hdistinct hm he (hkey'.symm.trans hkey)]

theorem find_eq_none (hp : handlers.Proper) :
    handlers.find key = none ↔ ∀ e ∈ handlers.entries, strlow key ≠ strlow e.name := by
  rw [Option.eq_none_iff_forall_ne_some]
  constructor
  · intro h e he hkey
    exact h e (hp.find_eq_some.mpr ⟨he, hkey⟩)
  · intro h e hfind
    obtain ⟨he, hkey⟩ := hp.find_eq_some.mp hfind
    exact h e he hkey

end SetHandlers.Proper

section Readers

variable {compiles : Str → Bool} {handlers : SetHandlers η ο} {opcode : Opcode} {key v : Str}
  {args rest : List Str} {next negative : Bool} {filter : Option ComplexValue}

theorem parseOpcode_iff {op : Str} : parseOpcode op = .ok opcode ↔ strlow op = opcode.word := by
  have hword : ∀ o : Opcode, sameName op o.word = true ↔ strlow op = o.word := by
    intro o
    rw [sameName_iff_of_plain (by cases o <;> decide)]
    cases o <;> rfl
  have hinj : ∀ o o' : Opcode, o.word = o'.word → o = o' := by
    intro o o' h
    cases o <;> cases o' <;> first | rfl | exact absurd h (by decide)
  constructor
  · intro h
    unfold parseOpcode at h
    split_ifs at h with h₁ h₂ h₃ h₄ h₅ h₆
    all_goals obtain rfl := Except.ok.inj h
    · exact (hword .set).mp h₁
    · exact (hword .add).mp h₂
    · exact (hword .pass).mp h₃
    · exact (hword .clear).mp h₄
    · exact (hword .append).mp h₅
    · exact (hword .rewrite).mp h₆
  · intro h
    have hsame : ∀ o : Opcode, sameName op o.word = decide (o = opcode) := by
      intro o
      rw [Bool.eq_iff_iff, hword, decide_eq_true_iff, h]
      exact ⟨fun he => (hinj _ _ he).symm, fun he => by rw [he]⟩
    have hset := hsame .set
    have hadd := hsame .add
    have hpass := hsame .pass
    have hclear := hsame .clear
    have happend := hsame .append
    have hrewrite := hsame .rewrite
    simp only [Opcode.word] at hset hadd hpass hclear happend hrewrite
    unfold parseOpcode
    rw [hset, hadd, hpass, hclear, happend, hrewrite]
    cases opcode <;> rfl

theorem parseNext_iff : parseNext args = (next, rest) ↔
    args = Phrase.flag next ++ rest ∧ (next = false → rest.head? ≠ some (str "-n")) := by
  have hread : parseNext args = if args.head? = some (str "-n") then (true, args.tail)
      else (false, args) := by
    cases args with
    | nil => rfl
    | cons arg args => simp [parseNext]
  rw [hread]
  constructor
  · intro h
    split_ifs at h with hhead
    · obtain ⟨rfl, rfl⟩ := Prod.mk.inj h
      exact ⟨(List.cons_head?_tail hhead).symm, nofun⟩
    · obtain ⟨rfl, rfl⟩ := Prod.mk.inj h
      exact ⟨rfl, fun _ => hhead⟩
  · rintro ⟨rfl, hgreedy⟩
    cases next with
    | true => rfl
    | false => exact if_neg (hgreedy rfl)

theorem parseValue_iff : parseValue opcode args = .ok (v, rest) ↔
    ∃ value : Option Str, value.isSome = opcode.takesValue ∧ args = value.toList ++ rest ∧
      v = value.getD [] := by
  have htakes : opcode.takesValue = false ↔ opcode = .clear ∨ opcode = .pass := by
    cases opcode <;> decide
  unfold parseValue
  constructor
  · intro h
    split at h
    · rename_i hnone
      obtain ⟨rfl, rfl⟩ := Prod.mk.inj (Except.ok.inj h)
      exact ⟨none, (htakes.mpr hnone).symm, rfl, rfl⟩
    · rename_i hsome
      cases args with
      | nil => cases h
      | cons arg args =>
        obtain ⟨rfl, rfl⟩ := Prod.mk.inj (Except.ok.inj h)
        exact ⟨some arg, (Bool.eq_true_of_not_eq_false (mt htakes.mp hsome)).symm, rfl, rfl⟩
  · rintro ⟨value, hvalue, rfl, rfl⟩
    cases value with
    | none =>
      rw [if_pos (htakes.mp hvalue.symm)]
      rfl
    | some arg =>
      rw [if_neg (mt htakes.mpr (by simp [← hvalue]))]
      rfl

theorem compileComplexValue_iff {text : Str} {cv : ComplexValue} :
    compileComplexValue compiles text = .ok cv ↔ compiles text = true ∧ cv = text := by
  unfold compileComplexValue
  cases compiles text <;> simp [eq_comm]

theorem bind_eq_ok {α β : Type} {m : Except ConfError α} {k : α → Except ConfError β} {y : β} :
    (m >>= k) = .ok y ↔ ∃ x, m = .ok x ∧ k x = .ok y := by
  cases m with
  | error e => exact ⟨nofun, nofun⟩
  | ok x =>
    constructor
    · intro h
      exact ⟨x, rfl, h⟩
    · rintro ⟨x', hx, h⟩
      obtain rfl := Except.ok.inj hx
      exact h

theorem readFilter_iff {arg : Str} (neg : Bool)
    (h : (Phrase.polarity neg).length < arg.length ∧ Phrase.polarity neg <+: arg) :
    (do let filter ← compileComplexValue compiles (arg.drop (Phrase.polarity neg).length)
        pure (some filter, neg, args)) =
        (.ok (filter, negative, rest) : Except ConfError (Option ComplexValue × Bool × List Str)) ↔
      ∃ x, arg = Phrase.polarity neg ++ x ∧ x ≠ [] ∧ compiles x = true ∧ filter = some x ∧
        negative = neg ∧ rest = args := by
  obtain ⟨hlen, x, rfl⟩ := h
  have hx : x ≠ [] := by
    rintro rfl
    simp at hlen
  rw [List.drop_left, bind_eq_ok]
  simp only [compileComplexValue_iff, pure, Except.pure, Except.ok.injEq, Prod.mk.injEq,
    List.append_cancel_left_eq]
  constructor
  · rintro ⟨text, ⟨hc, rfl⟩, rfl, rfl, rfl⟩
    exact ⟨text, rfl, hx, hc, rfl, rfl, rfl⟩
  · rintro ⟨text, rfl, -, hc, rfl, rfl, rfl⟩
    exact ⟨x, ⟨hc, rfl⟩, rfl, rfl, rfl⟩

theorem polarity_unique {arg x : Str} {neg neg' : Bool} (h : arg = Phrase.polarity neg ++ x)
    (hx : x ≠ []) :
    (Phrase.polarity neg').length < arg.length ∧ Phrase.polarity neg' <+: arg ↔ neg' = neg := by
  have hlen : 0 < x.length := List.length_pos_iff.mpr hx
  have hdistinct : ∀ b b' : Bool,
      (Phrase.polarity b').take 3 <+: (Phrase.polarity b).take 3 → b' = b := by decide
  have hlong : ∀ b : Bool, 3 ≤ (Phrase.polarity b).length := by decide
  constructor
  · rintro ⟨-, hpre⟩
    have htake := hpre.take 3
    rw [h, List.take_append_of_le_length (hlong neg)] at htake
    exact hdistinct neg neg' htake
  · rintro rfl
    rw [h, List.length_append]
    exact ⟨by omega, List.prefix_append _ _⟩

theorem parseFilter_iff : parseFilter compiles args = .ok (filter, negative, []) ↔
    ∃ x : Option (Bool × Str), args = Phrase.condition x ∧ (∀ y ∈ x, y.2 ≠ []) ∧
      (∀ y ∈ x, compiles y.2 = true) ∧ filter = x.map Prod.snd ∧
      negative = x.elim false Prod.fst := by
  cases args with
  | nil =>
    constructor
    · intro h
      obtain ⟨rfl, rfl⟩ : none = filter ∧ false = negative := by simpa [parseFilter] using h
      exact ⟨none, rfl, nofun, nofun, rfl, rfl⟩
    · rintro ⟨_ | x, hargs, -, -, rfl, rfl⟩
      · rfl
      · cases hargs
  | cons arg args =>
    have hread : ∀ neg, (Phrase.polarity neg).length < arg.length ∧ Phrase.polarity neg <+: arg →
        ((∃ x : Option (Bool × Str), arg :: args = Phrase.condition x ∧ (∀ y ∈ x, y.2 ≠ []) ∧
            (∀ y ∈ x, compiles y.2 = true) ∧ filter = x.map Prod.snd ∧
            negative = x.elim false Prod.fst) ↔
          ∃ x, arg = Phrase.polarity neg ++ x ∧ x ≠ [] ∧ compiles x = true ∧ filter = some x ∧
            negative = neg ∧ [] = args) := by
      intro neg hpre
      constructor
      · rintro ⟨_ | ⟨neg', x⟩, hargs, hx, hc, rfl, rfl⟩
        · cases hargs
        · obtain ⟨harg, rfl⟩ := List.cons.inj hargs
          obtain rfl := (polarity_unique harg (hx _ rfl)).mp hpre
          exact ⟨x, harg, hx _ rfl, hc _ rfl, rfl, rfl, rfl⟩
      · rintro ⟨x, rfl, hx, hc, rfl, rfl, rfl⟩
        exact ⟨some (negative, x), rfl, by simpa using hx, by simpa using hc, rfl, rfl⟩
    unfold parseFilter
    dsimp only
    split_ifs with heq hne
    · rw [hread false heq]
      exact readFilter_iff false heq
    · rw [hread true hne]
      exact readFilter_iff true hne
    · apply iff_of_false nofun
      rintro ⟨_ | ⟨neg, x⟩, hargs, hx, -⟩
      · cases hargs
      · have hpre := (polarity_unique (List.cons.inj hargs).1 (hx _ rfl)).mpr rfl
        cases neg
        · exact heq hpre
        · exact hne hpre

theorem parseHeader_iff {value : Option Str} (hvalue : value.isSome = opcode.takesValue)
    {res : Option (SetHeader η ο) × Option ComplexValue} :
    parseHeader compiles handlers opcode key (value.getD []) = .ok res ↔
      key ≠ [] ∧ (∀ c ∈ key, isspace c = false) ∧
        (∀ text ∈ Phrase.text value, compiles text = true) ∧
        res = (handlers.find key, Phrase.text value) := by
  have hclear : (if opcode = .clear then [] else value.getD []) = value.getD [] := by
    split_ifs with hc
    · subst hc
      rw [Option.isNone_iff_eq_none.mp (Option.isSome_eq_false_iff.mp hvalue), Option.getD_none]
    · rfl
  have hspace : key.any isspace = true ↔ ¬ ∀ c ∈ key, isspace c = false := by
    simp
  simp only [parseHeader, throw, throwThe, MonadExceptOf.throw, hclear]
  by_cases hkey : key = []
  · simp [hkey, bind, Except.bind]
  by_cases hplain : ∀ c ∈ key, isspace c = false
  · rw [if_neg hkey, if_neg (mt hspace.mp (not_not_intro hplain))]
    show (if value.getD [] = [] then pure (handlers.find key, none)
      else do
        let text ← compileComplexValue compiles (value.getD [] ++ [0])
        pure (handlers.find key, some text)) = .ok res ↔ _
    by_cases hv : value.getD [] = []
    · have htext : Phrase.text value = none := by
        cases value with
        | none => rfl
        | some v => exact if_pos hv
      rw [if_pos hv, htext]
      constructor
      · intro h
        exact ⟨hkey, hplain, by simp, (Except.ok.inj h).symm⟩
      · rintro ⟨-, -, -, rfl⟩
        rfl
    · have htext : Phrase.text value = some (value.getD [] ++ [0]) := by
        cases value with
        | none => exact absurd rfl hv
        | some v => exact if_neg hv
      rw [if_neg hv, htext, bind_eq_ok]
      constructor
      · rintro ⟨text, hc, h⟩
        obtain ⟨hcompiles, rfl⟩ := compileComplexValue_iff.mp hc
        exact ⟨hkey, hplain, by simpa using hcompiles, (Except.ok.inj h).symm⟩
      · rintro ⟨-, -, hcompiles, rfl⟩
        exact ⟨_, compileComplexValue_iff.mpr ⟨hcompiles _ rfl, rfl⟩, rfl⟩
  · rw [if_neg hkey, if_pos (hspace.mpr hplain)]
    simp [hplain, bind, Except.bind]

theorem parseDirective_iff (hp : handlers.Proper) {cnt : ℕ} {hv : HeaderVal η ο} :
    parseDirective compiles handlers cnt args = .ok hv ↔
      ∃ d : Phrase, d.Valid compiles handlers ∧ d.args = args ∧ hv = d.rule handlers cnt := by
  constructor
  · intro h
    obtain _ | ⟨op, args⟩ := args
    · cases h
    simp only [parseDirective, throw, throwThe, MonadExceptOf.throw] at h
    split at h
    · cases h
    obtain ⟨opcode, hop, hbody⟩ := bind_eq_ok.mp h
    obtain ⟨next, rest, hnext⟩ : ∃ next rest, parseNext args = (next, rest) := ⟨_, _, rfl⟩
    rw [hnext] at hbody
    obtain ⟨hargs, hgreedy⟩ := parseNext_iff.mp hnext
    obtain _ | ⟨key, rest⟩ := rest
    · cases hbody
    obtain ⟨⟨v, rest⟩, hvalue, hbehind⟩ := bind_eq_ok.mp hbody
    obtain ⟨⟨filter, negative, _ | ⟨arg, rest⟩⟩, hfilter, hend⟩ := bind_eq_ok.mp hbehind
    · obtain ⟨value, hsome, rfl, rfl⟩ := parseValue_iff.mp hvalue
      obtain ⟨x, rfl, hx, hcx, rfl, rfl⟩ := parseFilter_iff.mp hfilter
      obtain ⟨res, hheader, hrule⟩ := bind_eq_ok.mp hend
      obtain ⟨hkey, hplain, htext, rfl⟩ := (parseHeader_iff hsome).mp hheader
      dsimp only at hrule
      split_ifs at hrule with happend
      · cases hrule
      · refine ⟨⟨op, opcode, next, key, value, x⟩, ⟨parseOpcode_iff.mp hop, fun hn hk => ?_, hkey,
          hplain, hsome, hx, fun ha => ?_, hcx, htext⟩, ?_, (Except.ok.inj hrule).symm⟩
        · exact hgreedy hn (congrArg some hk)
        · apply hp.find_eq_none.mp
          exact Option.not_isSome_iff_eq_none.mp fun hs => happend ⟨ha, hs⟩
        · rw [Phrase.args, hargs]
    · cases hend
  · rintro ⟨d, hd, rfl, rfl⟩
    have hnext : parseNext (Phrase.flag d.next ++ d.key :: (d.value.toList ++
        Phrase.condition d.filter)) = (d.next, d.key :: (d.value.toList ++
          Phrase.condition d.filter)) :=
      parseNext_iff.mpr ⟨rfl, fun hn hk => hd.greedy hn (Option.some.inj hk)⟩
    have hfind : ¬ (d.opcode = .append ∧ (handlers.find d.key).isSome = true) := by
      rintro ⟨ha, hs⟩
      rw [hp.find_eq_none.mpr (hd.append ha)] at hs
      cases hs
    simp only [Phrase.args, parseDirective, throw, throwThe, MonadExceptOf.throw]
    rw [if_neg (by simp)]
    refine bind_eq_ok.mpr ⟨d.opcode, parseOpcode_iff.mpr hd.word, ?_⟩
    rw [hnext]
    refine bind_eq_ok.mpr ⟨_, parseValue_iff.mpr ⟨d.value, hd.value, rfl, rfl⟩, ?_⟩
    refine bind_eq_ok.mpr ⟨_, parseFilter_iff.mpr ⟨d.filter, rfl, hd.filter, hd.compiles_filter,
      rfl, rfl⟩, ?_⟩
    refine bind_eq_ok.mpr ⟨_, (parseHeader_iff hd.value).mpr ⟨hd.key_ne_nil, hd.plain,
      hd.compiles_text, rfl⟩, ?_⟩
    exact if_neg hfind

theorem Phrase.describes_rule (hp : handlers.Proper) (cnt : ℕ) (d : Phrase) :
    d.Describes handlers cnt (d.rule handlers cnt) where
  opcode := rfl
  next := rfl
  key := rfl
  hash := rfl
  wildcard := decide_eq_true_iff
  value := rfl
  filter := rfl
  negative := by
    obtain ⟨_, _, _, _, _, _ | ⟨_ | _, _⟩⟩ := d <;> simp [Phrase.rule]
  id := rfl
  handler := by
    cases hfind : handlers.find d.key with
    | none =>
      exact Or.inr ⟨hp.find_eq_none.mp hfind, by simp [Phrase.rule, hfind],
        by simp [Phrase.rule, hfind]⟩
    | some e =>
      refine Or.inl ⟨e, (hp.find_eq_some.mp hfind).1, fun e' he' => ?_,
        by simp [Phrase.rule, hfind], by simp [Phrase.rule, hfind]⟩
      constructor
      · intro hkey
        have hfind' := hp.find_eq_some.mpr ⟨he', hkey⟩
        exact Option.some.inj (hfind'.symm.trans hfind)
      · rintro rfl
        exact (hp.find_eq_some.mp hfind).2

end Readers

structure Side.Follows [DecidableEq ι] (compiles : Str → Bool) (handlers : SetHandlers η ο)
    (s : Side ι η ο) (i : ι) (args : List Str) : Prop where
  accepts : (∃ hv, parseDirective compiles handlers (s.cnt i) args = .ok hv) ↔
    ∃ d : Phrase, d.Valid compiles handlers ∧ d.args = args
  describes : ∀ hv, parseDirective compiles handlers (s.cnt i) args = .ok hv →
    ∃ d : Phrase, d.Valid compiles handlers ∧ d.args = args ∧ d.Describes handlers (s.cnt i) hv
  appends : ∀ hv j, (s.addRule i hv).rules j =
    if j = i then (some (s.own i ++ [hv]), s.cnt i + 1) else s.rules j

variable {compiles : Str → Bool} {handlers : SetHandlers η ο} {s : Side ι η ο}

theorem Side.follows [DecidableEq ι] (hp : handlers.Proper) (h : s.Inv fun _ => False) (i : ι)
    (args : List Str) : s.Follows compiles handlers i args where
  accepts := by
    constructor
    · rintro ⟨hv, hparse⟩
      obtain ⟨d, hd, hargs, -⟩ := (parseDirective_iff hp).mp hparse
      exact ⟨d, hd, hargs⟩
    · rintro ⟨d, hd, hargs⟩
      exact ⟨_, (parseDirective_iff hp).mpr ⟨d, hd, hargs, rfl⟩⟩
  describes := by
    intro hv hparse
    obtain ⟨d, hd, hargs, rfl⟩ := (parseDirective_iff hp).mp hparse
    exact ⟨d, hd, hargs, d.describes_rule hp _⟩
  appends := fun _ _ => Side.rules_addRule h

/--
Both directives accept exactly the argument vectors of the grammar, in every configuration that
has been parsed so far. A success appends one rule to the rules of its location, the one that
the arguments describe, with the number of rules there as its id, and no other location changes.
-/
theorem directive_grammar [DecidableEq ι] {c : Cycle ι InHandler InField OutHandler OutField}
    (hc : Relation.ReflTransGen (Cycle.Directive compiles setHandlersIn setHandlersOut)
      .initial c) (i : ι) (args : List Str) :
    c.input.Follows compiles setHandlersIn i args ∧
      c.output.Follows compiles setHandlersOut i args := by
  obtain ⟨hin, hout⟩ := inv_of_parsed hc
  exact ⟨Side.follows setHandlersIn_proper hin i args,
    Side.follows setHandlersOut_proper hout i args⟩

/-- The first `-n` is the flag, the second the name, and the first `if=` is the value. -/
theorem directive_grammar_flag :
    ∃ hv, parseDirective (fun _ => true) setHandlersOut 0
        [str "SET", str "-n", str "-n", str "if=x", str "if!=y"] = .ok hv ∧
      hv.key = str "-n" ∧ hv.next = true ∧ hv.filter = some (str "y") ∧ hv.negative = true := by
  have hstart : Relation.ReflTransGen (Cycle.Directive (ι := Unit) (fun _ => true) setHandlersIn
      setHandlersOut) .initial .initial := .refl
  have hplain : ∀ c ∈ str "-n", isspace c = false := by
    have hall : (str "-n").all (fun c => isspace c == false) = true := by decide
    simpa only [List.all_eq_true, beq_iff_eq] using hall
  have hfollows := (directive_grammar hstart ()
    [str "SET", str "-n", str "-n", str "if=x", str "if!=y"]).2
  obtain ⟨hv, hparse⟩ := hfollows.accepts.mpr
    ⟨⟨str "SET", .set, true, str "-n", some (str "if=x"), some (true, str "y")⟩,
      ⟨by decide, by decide, by decide, hplain, rfl, by decide, nofun, by decide, by decide⟩,
      rfl⟩
  exact ⟨hv, hparse, by cases hparse; decide⟩

end HeadersControl
