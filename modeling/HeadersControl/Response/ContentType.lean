import HeadersControl.Response.Handlers
import HeadersControl.Rules.Parse
import Mathlib.Algebra.Group.Nat.Defs

/-! # The charset parameter of a content type

The handler of `Content-Type` walks over its value with one pointer. The walk is
restated here with every read, and never leaves the value. It finds what the
handler stores: the content type in front of a charset parameter, and the bytes
of the charset with an opening and a closing quote taken off.
-/

namespace HeadersControl.Response

open Segments

def readByte (v : Str) (p : ℕ) : Except Fault UInt8 :=
  match v[p]? with
  | none => .error .overrun
  | some c => .ok c

/-- The loop `while (++p < end && *p == ' ')` behind the first increment. -/
def skipSpaces (v : Str) : ℕ → ℕ → Except Fault ℕ
  | 0, _ => .error .endless
  | n + 1, p =>
      if p < v.length then do
        let c ← readByte v p
        if c = 32 then skipSpaces v n (p + 1) else pure p
      else pure p

/-- `ngx_strncasecmp` of the bytes at `p` with a literal; it stops where they differ. -/
def readLiteral (v : Str) : ℕ → Str → Except Fault Bool
  | _, [] => .ok true
  | p, d :: lit => do
      let c ← readByte v p
      if tolower c = tolower d then
        if tolower c = 0 then pure true else readLiteral v (p + 1) lit
      else pure false

def skipQuote (v : Str) (p : ℕ) : Except Fault ℕ :=
  if p < v.length then do
    let c ← readByte v p
    pure (if c = 34 then p + 1 else p)
  else pure p

/-- The code behind `charset=`, with `charset.data` as an offset. -/
def readCharset (v : Str) (p : ℕ) : Except Fault (ℕ × Word) := do
  let p ← skipQuote v p
  let c ← readByte v (v.length - 1)
  let last := if c = 34 then v.length - 1 else v.length
  pure (p, BitVec.ofInt 64 (last - p : ℤ))

/-- The loop of `set_content_type_header`; it gives the new `content_type_len` and the charset. -/
def charsetLoop (v : Str) : ℕ → ℕ → Except Fault (Option (ℕ × ℕ × Word))
  | 0, _ => .error .endless
  | n + 1, p =>
      if p = v.length then pure none
      else do
        let c ← readByte v p
        if c ≠ 59 then charsetLoop v n (p + 1)
        else
          let last := p
          let p ← skipSpaces v (v.length + 1) (p + 1)
          if p = v.length then pure none
          else if v.length - p < 8 then charsetLoop v n (p + 1)
          else do
            let equal ← readLiteral v p (str "charset=")
            if !equal then charsetLoop v n (p + 1)
            else do
              let (data, len) ← readCharset v (p + 8)
              pure (some (last, data, len))

def storeContentType (hv : OutVal) (v : Str) (found : Option (ℕ × ℕ × Word)) (s : Response) :
    Response :=
  { s with
    contentTypeLen := found.elim v.length Prod.fst
    contentType := v
    contentTypeHash := hv.hash
    contentTypeLowcase := none
    charset := found.elim s.charset fun (_, data, len) => ⟨len, v.drop data⟩ }

section Loop

variable {v : Str} {n p : ℕ} {c : UInt8} {rest : Str}

theorem drop_succ (hd : v.drop p = c :: rest) : v.drop (p + 1) = rest := by
  rw [← List.tail_drop, hd, List.tail_cons]

theorem readByte_eq (hd : v.drop p = c :: rest) : readByte v p = .ok c := by
  have hget : v[p]? = some c := by rw [← List.head?_drop, hd, List.head?_cons]
  rw [readByte, hget]

theorem lt_of_drop (hd : v.drop p = c :: rest) : p < v.length := by
  by_contra hp
  rw [List.drop_eq_nil_of_le (Nat.not_lt.mp hp)] at hd
  cases hd

theorem skipSpaces_eq (hn : v.length - p < n) :
    skipSpaces v n p = .ok (p + ((v.drop p).takeWhile (· = 32)).length) := by
  induction n generalizing p with
  | zero => simp at hn
  | succ n ih =>
    cases hd : v.drop p with
    | nil =>
      have hp : ¬ p < v.length := Nat.not_lt.mpr (List.drop_eq_nil_iff.mp hd)
      simp [skipSpaces, hp, pure, Except.pure]
    | cons c rest =>
      have hp := lt_of_drop hd
      simp only [skipSpaces, hp, if_true, readByte_eq hd, bind, Except.bind, pure, Except.pure]
      by_cases hc : c = 32
      · rw [if_pos hc, ih (by omega), drop_succ hd, hc]
        simp [Nat.add_assoc, Nat.add_comm 1]
      · rw [if_neg hc]
        simp [hc]

theorem readLiteral_eq {lit : Str} (hlen : lit.length ≤ v.length - p) :
    readLiteral v p lit = .ok (strncaseeq lit.length (v.drop p) lit) := by
  induction lit generalizing p with
  | nil => simp [readLiteral, strncaseeq]
  | cons d lit ih =>
    rw [List.length_cons] at hlen
    cases hd : v.drop p with
    | nil =>
      have := List.drop_eq_nil_iff.mp hd
      omega
    | cons c rest =>
      simp only [readLiteral, readByte_eq hd, bind, Except.bind, pure, Except.pure,
        List.length_cons, strncaseeq, ih (p := p + 1) (by omega), drop_succ hd]
      split_ifs <;> rfl

theorem skipQuote_eq (hp : p ≤ v.length) :
    skipQuote v p = .ok (v.length - (charsetOf v (v.drop p)).data.length) := by
  have hlen := List.length_drop (i := p) (l := v)
  unfold skipQuote charsetOf
  cases hd : v.drop p with
  | nil =>
    have hp' : ¬ p < v.length := Nat.not_lt.mpr (List.drop_eq_nil_iff.mp hd)
    simp [le_antisymm hp (Nat.not_lt.mp hp'), pure, Except.pure]
  | cons c rest =>
    rw [hd, List.length_cons] at hlen
    simp only [lt_of_drop hd, if_true, readByte_eq hd, bind, Except.bind, pure, Except.pure,
      List.head?_cons, Option.some.injEq, List.tail_cons]
    congr 1
    split
    · omega
    · rw [List.length_cons]
      omega

theorem length_charsetOf (v q : Str) : (charsetOf v q).data.length ≤ q.length := by
  unfold charsetOf
  split_ifs <;> simp

theorem readCharset_eq (hv : v ≠ []) (hp : p ≤ v.length) :
    readCharset v p = .ok (v.length - (charsetOf v (v.drop p)).data.length,
      (charsetOf v (v.drop p)).len) := by
  obtain ⟨c, hc⟩ := Option.ne_none_iff_exists'.mp fun h => hv (List.getLast?_eq_none_iff.mp h)
  have hlast : readByte v (v.length - 1) = .ok c := by
    rw [readByte, ← List.getLast?_eq_getElem?, hc]
  have hpos := List.length_pos_of_ne_nil hv
  have hle : (charsetOf v (v.drop p)).data.length ≤ v.length :=
    (length_charsetOf v _).trans (by simp)
  have hlen : (charsetOf v (v.drop p)).len = BitVec.ofInt 64
      ((charsetOf v (v.drop p)).data.length - (if c = 34 then 1 else 0 : ℕ) : ℤ) := by
    simp only [charsetOf, hc, Option.some.injEq]
  simp only [readCharset, skipQuote_eq hp, hlast, bind, Except.bind, pure, Except.pure, hlen]
  generalize (charsetOf v (v.drop p)).data.length = k at hle
  congr 3
  split_ifs <;> omega

/-- The walk is the search of the model: it ends, and every read is inside of the value. -/
theorem charsetLoop_eq (hp : p ≤ v.length) (hn : v.length - p < n) :
    charsetLoop v n p = .ok ((findCharset n p (v.drop p)).map fun (last, q) =>
      (last, v.length - (charsetOf v q).data.length, (charsetOf v q).len)) := by
  induction n generalizing p with
  | zero => simp at hn
  | succ n ih =>
    cases hd : v.drop p with
    | nil =>
      have hend : p = v.length := le_antisymm hp (List.drop_eq_nil_iff.mp hd)
      simp [charsetLoop, hend, findCharset, pure, Except.pure]
    | cons c rest =>
      have hlt := lt_of_drop hd
      have hrest := drop_succ hd
      simp only [charsetLoop, hlt.ne, if_false, readByte_eq hd, bind, Except.bind, findCharset]
      by_cases hc : c = 59
      · have hspace : skipSpaces v (v.length + 1) (p + 1) =
            .ok (p + 1 + (rest.takeWhile (· = 32)).length) := by
          rw [skipSpaces_eq (by omega), hrest]
        simp only [hc, ne_eq, not_true_eq_false, if_false, hspace]
        generalize hk : (rest.takeWhile (· = 32)).length = k
        have hdrop : rest.drop k = v.drop (p + 1 + k) := by rw [← hrest, List.drop_drop]
        have hle : p + 1 + k ≤ v.length := by
          have htake := (List.takeWhile_prefix (l := rest) (p := (· = 32))).length_le
          have hlen := congrArg List.length hrest
          rw [List.length_drop] at hlen
          omega
        have hlen : (rest.drop k).length = v.length - (p + 1 + k) := by
          rw [hdrop, List.length_drop]
        have hnil : rest.drop k = [] ↔ p + 1 + k = v.length := by
          rw [hdrop, List.drop_eq_nil_iff]
          omega
        simp only [hnil]
        by_cases hend : p + 1 + k = v.length
        · simp [hend, pure, Except.pure]
        rw [if_neg hend, if_neg hend]
        have hnext : charsetLoop v n (p + 1 + k + 1) =
            .ok ((findCharset n (p + 1 + k + 1) (rest.drop k).tail).map fun (last, q) =>
              (last, v.length - (charsetOf v q).data.length, (charsetOf v q).len)) := by
          rw [ih (by omega) (by omega), hdrop, List.tail_drop]
        by_cases hshort : v.length - (p + 1 + k) < 8
        · rw [if_pos hshort, if_pos (Or.inl (by rw [hlen]; exact hshort)), hnext]
        have hlit : readLiteral v (p + 1 + k) (str "charset=") =
            .ok (strncaseeq 8 (rest.drop k) (str "charset=")) := by
          rw [readLiteral_eq (by show 8 ≤ _; omega), hdrop]
          rfl
        rw [if_neg hshort, hlit]
        cases heq : strncaseeq 8 (rest.drop k) (str "charset=") with
        | false => simp [hnext]
        | true =>
          have hv : v ≠ [] := fun h => by simp [h] at hlt
          have hread := readCharset_eq (p := p + 1 + k + 8) hv (by omega)
          have hdata : (rest.drop k).drop 8 = v.drop (p + 1 + k + 8) := by
            rw [hdrop, List.drop_drop]
          simp [hlen, hshort, hread, hdata, pure, Except.pure]
      · simp only [hc, ne_eq, not_false_eq_true, if_true]
        rw [ih hlt (by omega), hrest]

end Loop

/--
The bytes in front of the charset parameter that the walk takes, and those behind its
`charset=`. Where a semicolon and spaces introduce no charset, the byte behind them is passed over
with them.
-/
inductive CharsetAt : Str → Str → Str → Prop
  | param {spaces cs q : Str} : (∀ c ∈ spaces, c = 32) → strlow cs = str "charset=" →
      CharsetAt (59 :: (spaces ++ (cs ++ q))) [] q
  | byte {c : UInt8} {v pre q : Str} : c ≠ 59 → CharsetAt v pre q → CharsetAt (c :: v) (c :: pre) q
  | other {c : UInt8} {spaces v pre q : Str} : (∀ c ∈ spaces, c = 32) → c ≠ 32 →
      (∀ cs q', c :: v = cs ++ q' → strlow cs ≠ str "charset=") → CharsetAt v pre q →
      CharsetAt (59 :: (spaces ++ c :: v)) (59 :: (spaces ++ c :: pre)) q

section Grammar

variable {v pre q rest : Str} {n i last : ℕ} {c : UInt8}

theorem length_of_charset {cs : Str} (hcs : strlow cs = str "charset=") : cs.length = 8 := by
  rw [← List.length_map (f := tolower)]
  exact congrArg List.length hcs

theorem no_charset_iff : (rest.length < 8 ∨ (!strncaseeq 8 rest (str "charset=")) = true) ↔
    ∀ cs q, rest = cs ++ q → strlow cs ≠ str "charset=" := by
  constructor
  · rintro hno cs q rfl hcs
    have hlen := length_of_charset hcs
    have htake : (cs ++ q).take 8 = cs := List.take_left' hlen
    have hlow : strlow (cstr cs) = str "charset=" := by
      have hself : cstr cs = cs := by
        apply cstr_eq_self
        intro h0
        have := List.mem_map_of_mem (f := tolower) h0
        rw [← strlow, hcs] at this
        exact absurd this (by decide)
      rw [hself, hcs]
    rcases hno with hshort | hno
    · rw [List.length_append] at hshort
      omega
    · have heq : strncaseeq 8 (cs ++ q) (str "charset=") = true := by
        rw [strncaseeq_iff_take (by rw [List.length_append]; omega) (by decide), htake, hlow]
        decide
      rw [heq] at hno
      cases hno
  · intro hno
    by_contra hyes
    obtain ⟨hlong, heq⟩ := not_or.mp hyes
    rw [Bool.not_eq_true', Bool.not_eq_false,
      strncaseeq_iff_take (Nat.not_lt.mp hlong) (by decide)] at heq
    have hlow : strlow (cstr (rest.take 8)) = str "charset=" := heq.trans (by decide)
    have hself : cstr (rest.take 8) = rest.take 8 := by
      apply (List.takeWhile_prefix _).eq_of_length
      rw [List.length_take_of_le (Nat.not_lt.mp hlong)]
      exact length_of_charset hlow
    rw [hself] at hlow
    exact hno _ _ (List.take_append_drop 8 rest).symm hlow

theorem takeWhile_spaces {spaces : Str} (hspaces : ∀ c ∈ spaces, c = 32)
    (hrest : rest.head? ≠ some 32) : (spaces ++ rest).takeWhile (· = 32) = spaces := by
  rw [List.takeWhile_append_of_pos (by simpa using hspaces)]
  cases rest with
  | nil => simp
  | cons c rest => simpa [List.takeWhile_cons] using hrest

theorem split_spaces (rest : Str) : ∃ spaces r, (∀ c ∈ spaces, c = 32) ∧ r.head? ≠ some 32 ∧
    rest = spaces ++ r := by
  induction rest with
  | nil => exact ⟨[], [], by simp, by simp, rfl⟩
  | cons c rest ih =>
    by_cases hc : c = 32
    · obtain ⟨spaces, r, hspaces, hhead, rfl⟩ := ih
      exact ⟨c :: spaces, r, List.forall_mem_cons.mpr ⟨hc, hspaces⟩, hhead, rfl⟩
    · exact ⟨[], c :: rest, by simp, by simpa using hc, rfl⟩

theorem findCharset_of_charsetAt (hc : CharsetAt v pre q) (hn : v.length < n) :
    findCharset n i v = some (i + pre.length, q) := by
  induction hc generalizing n i with
  | @param spaces cs q hspaces hcs =>
    obtain _ | n := n
    · simp at hn
    have hlen := length_of_charset hcs
    have hhead : (cs ++ q).head? ≠ some 32 := by
      cases cs with
      | nil => cases hlen
      | cons c cs =>
        rintro h
        obtain rfl : c = 32 := Option.some.inj h
        exact absurd (List.cons.inj hcs).1 (by decide)
    have hne : cs ++ q ≠ [] := by
      intro h
      rw [(List.append_eq_nil_iff.mp h).1] at hlen
      cases hlen
    have hyes := mt no_charset_iff.mp fun hno => hno cs q rfl hcs
    simp only [findCharset, ne_eq, not_true_eq_false, if_false, takeWhile_spaces hspaces hhead,
      List.drop_left, hne, hyes, List.drop_left' hlen, List.length_nil, Nat.add_zero]
  | byte hc _ ih =>
    obtain _ | n := n
    · simp at hn
    simp only [findCharset, ne_eq, hc, not_false_eq_true, if_true, List.length_cons]
    rw [ih (by simpa using hn), Nat.add_right_comm, Nat.add_assoc]
  | @other c spaces v pre q hspaces hc hno _ ih =>
    obtain _ | n := n
    · simp at hn
    have hhead : (c :: v).head? ≠ some 32 := by simpa using hc
    have htake := takeWhile_spaces hspaces hhead
    have hshort := no_charset_iff.mpr hno
    simp only [findCharset, ne_eq, not_true_eq_false, if_false, htake, List.drop_left,
      reduceCtorEq, hshort, if_true, List.tail_cons]
    rw [ih (by simp at hn; omega)]
    simp only [List.length_cons, List.length_append, Option.some.injEq, Prod.mk.injEq, and_true]
    omega

theorem charsetAt_of_findCharset (he : findCharset n i v = some (last, q)) :
    ∃ pre, CharsetAt v pre q ∧ last = i + pre.length := by
  induction n generalizing i v with
  | zero => cases he
  | succ n ih =>
    cases v with
    | nil => cases he
    | cons c rest =>
      simp only [findCharset] at he
      split at he
      · rename_i hc
        obtain ⟨pre, hat, rfl⟩ := ih he
        exact ⟨c :: pre, .byte hc hat, by rw [List.length_cons]; omega⟩
      · rename_i hc
        obtain rfl := not_not.mp hc
        obtain ⟨spaces, r, hspaces, hhead, rfl⟩ := split_spaces rest
        simp only [takeWhile_spaces hspaces hhead, List.drop_left] at he
        split at he
        · cases he
        split at he
        · rename_i hne hno
          obtain ⟨d, v, rfl⟩ := List.exists_cons_of_ne_nil hne
          obtain ⟨pre, hat, rfl⟩ := ih he
          refine ⟨59 :: (spaces ++ d :: pre), .other hspaces (by simpa using hhead)
            (no_charset_iff.mp hno) hat, ?_⟩
          simp only [List.length_cons, List.length_append]
          omega
        · rename_i hyes
          rw [no_charset_iff] at hyes
          push Not at hyes
          obtain ⟨cs, q', rfl, hcs⟩ := hyes
          obtain ⟨rfl, hq⟩ := Prod.mk.inj (Option.some.inj he)
          rw [List.drop_left' (length_of_charset hcs)] at hq
          subst hq
          exact ⟨[], .param hspaces hcs, rfl⟩

theorem CharsetAt.split (hc : CharsetAt v pre q) : ∃ spaces cs, (∀ c ∈ spaces, c = 32) ∧
    strlow cs = str "charset=" ∧ v = pre ++ 59 :: (spaces ++ (cs ++ q)) := by
  induction hc with
  | param hspaces hcs => exact ⟨_, _, hspaces, hcs, rfl⟩
  | byte _ _ ih =>
    obtain ⟨spaces, cs, hspaces, hcs, rfl⟩ := ih
    exact ⟨spaces, cs, hspaces, hcs, rfl⟩
  | other _ _ _ _ ih =>
    obtain ⟨spaces, cs, hspaces, hcs, rfl⟩ := ih
    exact ⟨spaces, cs, hspaces, hcs, by simp⟩

end Grammar

/--
The value is the content type, a semicolon, spaces, `charset=` and the bytes of the charset with
optional quotes around them.
-/
def Sliced (v : Str) (last data : ℕ) (len : Word) : Prop :=
  ∃ spaces cs opening bytes closing, (∀ c ∈ spaces, c = 32) ∧ strlow cs = str "charset=" ∧
    (opening = [] ∨ opening = [34]) ∧ (closing = [] ∨ closing = [34]) ∧
    v = v.take last ++ 59 :: (spaces ++ (cs ++ (opening ++ (bytes ++ closing)))) ∧
    v.drop data = bytes ++ closing ∧ len.toNat = bytes.length

section Slice

variable {v pre q : Str}

theorem charsetOf_opening (v q : Str) :
    ∃ opening, (opening = [] ∨ opening = [34]) ∧ q = opening ++ (charsetOf v q).data := by
  unfold charsetOf
  by_cases hq : q.head? = some 34
  · obtain ⟨rest, rfl⟩ := List.head?_eq_some_iff.mp hq
    exact ⟨[34], Or.inr rfl, by simp⟩
  · exact ⟨[], Or.inl rfl, by simp [hq]⟩

theorem CharsetAt.suffix (hc : CharsetAt v pre q) : (charsetOf v q).data <:+ v := by
  obtain ⟨spaces, cs, -, -, hv⟩ := hc.split
  obtain ⟨opening, -, hq⟩ := charsetOf_opening v q
  have hdata : (charsetOf v q).data <:+ q := ⟨opening, hq.symm⟩
  have hrest : q <:+ v := ⟨pre ++ 59 :: (spaces ++ cs), by rw [hv]; simp⟩
  exact hdata.trans hrest

theorem CharsetAt.drop (hc : CharsetAt v pre q) :
    v.drop (v.length - (charsetOf v q).data.length) = (charsetOf v q).data :=
  (List.suffix_iff_eq_drop.mp hc.suffix).symm

theorem charsetLoop_spec (v : Str) : ∃ found, charsetLoop v (v.length + 1) 0 = .ok found ∧
    (∀ (hv : OutVal) (s : Response), setContentTypeHeader hv v s =
      setHeaderHelper hv [] none true (storeContentType hv v found s)) ∧
    ∀ last data len, found = some (last, data, len) ↔ ∃ pre q, CharsetAt v pre q ∧
      last = pre.length ∧ data = v.length - (charsetOf v q).data.length ∧
      len = (charsetOf v q).len := by
  have hloop := charsetLoop_eq (v := v) (p := 0) (n := v.length + 1) (Nat.zero_le _) (by omega)
  rw [List.drop_zero] at hloop
  refine ⟨_, hloop, fun hv s => ?_, fun last data len => ?_⟩
  · unfold setContentTypeHeader storeContentType
    cases hf : findCharset (v.length + 1) 0 v with
    | none => rfl
    | some res =>
      obtain ⟨last, q⟩ := res
      obtain ⟨pre, hc, -⟩ := charsetAt_of_findCharset hf
      simp only [Option.map_some, Option.elim_some, hc.drop]
  · rw [Option.map_eq_some_iff]
    constructor
    · rintro ⟨⟨last', q⟩, hf, he⟩
      obtain ⟨rfl, rfl, rfl⟩ : last' = last ∧ _ = data ∧ _ = len := by simpa using he
      obtain ⟨pre, hc, rfl⟩ := charsetAt_of_findCharset hf
      exact ⟨pre, q, hc, by simp, rfl, rfl⟩
    · rintro ⟨pre, q, hc, rfl, rfl, rfl⟩
      exact ⟨_, findCharset_of_charsetAt hc (Nat.lt_succ_self _), by simp⟩

/-- The quote that ends the value is taken off; it must not be the opening quote. -/
theorem slice_of_last {w : Str} (hlen : w.length < 2 ^ 64)
    (hw : w = [] → v.getLast? ≠ some 34) (hsuffix : w <:+ v) :
    ∃ bytes closing, w = bytes ++ closing ∧ (closing = [] ∨ closing = [34]) ∧
      (BitVec.ofInt 64 (w.length - (if v.getLast? = some 34 then 1 else 0 : ℕ) : ℤ)).toNat =
        bytes.length := by
  by_cases hq : v.getLast? = some 34
  · have hne : w ≠ [] := fun h => hw h hq
    have hlast : w.getLast? = some 34 := by
      obtain ⟨u, rfl⟩ := hsuffix
      rwa [List.getLast?_append_of_ne_nil _ hne] at hq
    obtain ⟨bytes, rfl⟩ := List.getLast?_eq_some_iff.mp hlast
    refine ⟨bytes, [34], rfl, Or.inr rfl, ?_⟩
    rw [List.length_append, List.length_singleton] at hlen
    have hcut : ((bytes ++ [34]).length - (1 : ℕ) : ℤ) = bytes.length := by simp
    rw [if_pos hq, hcut, BitVec.ofInt_natCast, BitVec.toNat_ofNat, Nat.mod_eq_of_lt (by omega)]
  · refine ⟨w, [], by simp, Or.inl rfl, ?_⟩
    have hcut : (w.length - (0 : ℕ) : ℤ) = w.length := by simp
    rw [if_neg hq, hcut, BitVec.ofInt_natCast, BitVec.toNat_ofNat, Nat.mod_eq_of_lt hlen]

theorem sliced_iff (hlen : v.length < 2 ^ 64) (hc : CharsetAt v pre q) :
    Sliced v pre.length (v.length - (charsetOf v q).data.length) (charsetOf v q).len ↔
      q ≠ [34] := by
  have hdrop := hc.drop
  have hsuffix := hc.suffix
  obtain ⟨spaces, cs, hspaces, hcs, hv⟩ := hc.split
  constructor
  · rintro ⟨-, -, -, bytes, closing, -, -, -, -, -, hdata, hl⟩ rfl
    have hnil : bytes ++ closing = [] := hdata.symm.trans hdrop
    rw [(List.append_eq_nil_iff.mp hnil).1] at hl
    have hlast : v.getLast? = some 34 := by
      rw [hv, ← List.cons_append, ← List.append_assoc, ← List.append_assoc, List.getLast?_concat]
    simp [charsetOf, hlast] at hl
  · intro hq
    obtain ⟨opening, hopening, hqo⟩ := charsetOf_opening v q
    have hlast : (charsetOf v q).data = [] → v.getLast? ≠ some 34 := by
      intro hnil hlast
      rw [hnil, List.append_nil] at hqo
      rcases hopening with rfl | rfl
      · -- the value ends with `charset=`
        have hne : cs ≠ [] := by
          rintro rfl
          cases hcs
        have hlow := congrArg List.getLast? hcs
        rw [hv, hqo, List.append_nil, ← List.cons_append, ← List.append_assoc,
          List.getLast?_append_of_ne_nil _ hne] at hlast
        rw [strlow, List.getLast?_map, hlast] at hlow
        exact absurd hlow (by decide)
      · exact hq hqo
    obtain ⟨bytes, closing, hdata, hclosing, hl⟩ :=
      slice_of_last (hsuffix.length_le.trans_lt hlen) hlast hsuffix
    refine ⟨spaces, cs, opening, bytes, closing, hspaces, hcs, hopening, hclosing, ?_,
      hdrop.trans hdata, hl⟩
    rw [← hdata, ← hqo]
    conv_lhs => rw [hv]
    rw [hv, List.take_left]

end Slice

/--
The walk over a content type ends, reads inside of the value only, and leaves a content type that
is no longer. The charset that it stores is a slice of the value, unless a sole quote follows the
`charset=` that it found.
-/
theorem charset_exact (v : Str) (hlen : v.length < 2 ^ 64) :
    ∃ found, charsetLoop v (v.length + 1) 0 = .ok found ∧
      (∀ (hv : OutVal) (s : Response), setContentTypeHeader hv v s =
        setHeaderHelper hv [] none true (storeContentType hv v found s) ∧
          (storeContentType hv v found s).contentTypeLen ≤ v.length) ∧
      ((∀ last data len, found = some (last, data, len) → Sliced v last data len) ↔
        ¬ ∃ pre, CharsetAt v pre [34]) := by
  obtain ⟨found, hloop, hstore, hfound⟩ := charsetLoop_spec v
  refine ⟨found, hloop, fun hv s => ⟨hstore hv s, ?_⟩, ?_⟩
  · cases hf : found with
    | none => exact le_rfl
    | some res =>
      obtain ⟨last, data, len⟩ := res
      obtain ⟨pre, q, hc, rfl, -⟩ := (hfound last data len).mp hf
      obtain ⟨spaces, cs, -, -, rfl⟩ := hc.split
      simp [storeContentType]
  · constructor
    · rintro hall ⟨pre, hc⟩
      have hs := hall _ _ _ ((hfound _ _ _).mpr ⟨pre, [34], hc, rfl, rfl, rfl⟩)
      exact (sliced_iff hlen hc).mp hs rfl
    · rintro hno last data len hf
      obtain ⟨pre, q, hc, rfl, rfl, rfl⟩ := (hfound last data len).mp hf
      exact (sliced_iff hlen hc).mpr fun hq => hno ⟨pre, hq ▸ hc⟩

/-- The charset of `text/html; charset="utf-8"` is a slice. -/
theorem charset_exact_quoted :
    charsetLoop (str "text/html; charset=\"utf-8\"") 27 0 = .ok (some (9, 20, 5)) ∧
      Sliced (str "text/html; charset=\"utf-8\"") 9 20 5 := by
  obtain ⟨found, hloop, -, hiff⟩ := charset_exact (str "text/html; charset=\"utf-8\"") (by decide)
  have hfound : charsetLoop (str "text/html; charset=\"utf-8\"") 27 0 = .ok (some (9, 20, 5)) := by
    decide
  obtain rfl : found = some (9, 20, 5) := Except.ok.inj (hloop.symm.trans hfound)
  refine ⟨hfound, hiff.mpr ?_ 9 20 5 rfl⟩
  rintro ⟨pre, hc⟩
  have hf := findCharset_of_charsetAt (i := 0) hc (Nat.lt_succ_self _)
  have hq : (findCharset 27 0 (str "text/html; charset=\"utf-8\"")).map Prod.snd = some [34] :=
    congrArg (Option.map Prod.snd) hf
  exact absurd hq (by decide)

/-- In `text/html; charset="` one quote opens and closes the charset, whose length wraps around. -/
theorem charset_exact_quote : ∃ len : Word,
    charsetLoop (str "text/html; charset=\"") 21 0 = .ok (some (9, 20, len)) ∧
      len.toNat = 18446744073709551615 ∧ ¬ Sliced (str "text/html; charset=\"") 9 20 len := by
  refine ⟨-1, by decide, by decide, ?_⟩
  rintro ⟨-, -, -, bytes, closing, -, -, -, -, -, hdata, hlen⟩
  obtain ⟨rfl, -⟩ := List.append_eq_nil_iff.mp (hdata.symm.trans (by decide))
  exact absurd hlen (by decide)

end HeadersControl.Response
