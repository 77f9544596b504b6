import Mathlib.Data.List.Basic
import Mathlib.Data.List.TakeWhile
import Mathlib.Tactic.SplitIfs

/-! # Return codes and byte strings of nginx core

The string helpers of nginx that the module calls: ASCII case folding,
`ngx_strncasecmp`, the header hash, substring search in C strings and decimal
parsing. Names are compared as `ngx_strncasecmp` compares them, which is
equality of the lower-cased names as long as no NUL byte occurs.
-/

namespace HeadersControl

/-- The `ngx_int_t` return codes that the module uses. -/
inductive Rc | ok | error | declined
  deriving DecidableEq, Repr

/-- The bytes of an `ngx_str_t`. -/
abbrev Str := List UInt8

/-- `ngx_uint_t` where its width matters: hashes and bitmap words. -/
abbrev Word := BitVec 64

def str (s : String) : Str := s.toList.map fun c => UInt8.ofNat c.toNat

def tolower (c : UInt8) : UInt8 := if 65 ≤ c ∧ c ≤ 90 then c ||| 0x20 else c

def strlow (s : Str) : Str := s.map tolower

/-- `ngx_strncasecmp(s1, s2, n) == 0`. Two equal NUL bytes end the comparison. -/
def strncaseeq : ℕ → Str → Str → Bool
  | 0, _, _ => true
  | n + 1, c₁ :: s₁, c₂ :: s₂ =>
      if tolower c₁ = tolower c₂ then
        if tolower c₁ = 0 then true else strncaseeq n s₁ s₂
      else false
  | _ + 1, _, _ => false

/-- The test `a.len == b.len && ngx_strncasecmp(a.data, b.data, a.len) == 0`. -/
def sameName (a b : Str) : Bool := a.length == b.length && strncaseeq a.length a b

/-- The bytes of a C string: everything before the first NUL. -/
def cstr (s : Str) : Str := s.takeWhile (· ≠ 0)

/-- What `sameName` sees of a name: its length and its lower-cased C string. -/
def nameKey (s : Str) : ℕ × Str := (s.length, strlow (cstr s))

/-- `ngx_hash`. -/
def hash (key : Word) (c : UInt8) : Word := key * 31 + BitVec.ofNat 64 c.toNat

def hashStr (s : Str) : Word := s.foldl hash 0

/-- `ngx_hash_key_lc`. -/
def hashKeyLc (s : Str) : Word := s.foldl (fun k c => hash k (tolower c)) 0

def indexOf (pat : Str) : Str → Option ℕ
  | [] => none
  | c :: s => if pat.isPrefixOf (c :: s) then some 0 else (indexOf pat s).map (· + 1)

/-- `ngx_strstrn(s, pat, strlen(pat) - 1)`, as an offset into `s`. -/
def strstrn (s pat : Str) : Option ℕ := indexOf pat (cstr s)

/-- `ngx_strcasestrn(s, pat, strlen(pat) - 1)`, as an offset into `s`. -/
def strcasestrn (s pat : Str) : Option ℕ := indexOf (strlow pat) (strlow (cstr s))

def isDigit (c : UInt8) : Bool := 48 ≤ c ∧ c ≤ 57

def digitVal (c : UInt8) : ℕ := c.toNat - 48

/-- The largest `ssize_t`, the bound that `ngx_atosz` checks. -/
def maxSizeT : ℕ := 9223372036854775807

/-- The loop of `ngx_atosz`; `none` is `NGX_ERROR`. -/
def atoszLoop : ℕ → Str → Option ℕ
  | value, [] => some value
  | value, c :: s =>
      if !isDigit c then none
      else if maxSizeT / 10 ≤ value ∧
          (maxSizeT / 10 < value ∨ maxSizeT % 10 < digitVal c) then none
      else atoszLoop (value * 10 + digitVal c) s

def atosz (s : Str) : Option ℕ := if s = [] then none else atoszLoop 0 s

theorem tolower_eq_zero {c : UInt8} : tolower c = 0 ↔ c = 0 := by
  unfold tolower
  split_ifs with h
  · constructor <;> intro hc
    · have := congrArg UInt8.toNat hc
      simp only [UInt8.toNat_or] at this
      have h0 := Nat.or_eq_zero_iff.mp this
      simp at h0
    · subst hc; simp at h
  · rfl

@[simp] theorem cstr_nil : cstr [] = [] := rfl

theorem cstr_cons (c : UInt8) (s : Str) :
    cstr (c :: s) = if c = 0 then [] else c :: cstr s := by
  by_cases hc : c = 0 <;> simp [cstr, hc]

theorem cstr_eq_self {s : Str} (h : 0 ∉ s) : cstr s = s :=
  List.takeWhile_eq_self_iff.mpr fun c hc => by
    simp only [ne_eq, decide_not, Bool.not_eq_eq_eq_not, Bool.not_true, decide_eq_false_iff_not]
    rintro rfl
    exact h hc

theorem strncaseeq_iff {a b : Str} (h : a.length = b.length) :
    strncaseeq a.length a b = true ↔ strlow (cstr a) = strlow (cstr b) := by
  induction a generalizing b with
  | nil =>
    obtain rfl := List.length_eq_zero_iff.mp h.symm
    simp [strncaseeq]
  | cons c a ih =>
    obtain ⟨d, b, rfl⟩ := List.exists_cons_of_length_eq_add_one h.symm
    have hl : a.length = b.length := by simpa using h
    simp only [List.length_cons, strncaseeq, cstr_cons, tolower_eq_zero]
    by_cases hcd : tolower c = tolower d
    · have hz : c = 0 ↔ d = 0 := by rw [← tolower_eq_zero, hcd, tolower_eq_zero]
      by_cases hc : c = 0
      · simp [hc, hz.mp hc]
      · simp only [hcd, if_true, hc, mt hz.mpr hc, if_false, ih hl, strlow, List.map_cons,
          List.cons.injEq, true_and]
    · simp only [hcd, if_false, Bool.false_eq_true, false_iff]
      split_ifs with hc hd hd
      · exact absurd (by rw [hc, hd]) hcd
      · simp [strlow]
      · simp [strlow]
      · simp [strlow, hcd]

theorem strncaseeq_take {n : ℕ} {a b : Str} :
    strncaseeq n (a.take n) (b.take n) = strncaseeq n a b := by
  induction n generalizing a b with
  | zero => rfl
  | succ n ih =>
    cases a with
    | nil => rfl
    | cons c a =>
      cases b with
      | nil => rfl
      | cons d b => simp only [List.take_succ_cons, strncaseeq, ih]

theorem strncaseeq_iff_take {n : ℕ} {a b : Str} (ha : n ≤ a.length) (hb : n ≤ b.length) :
    strncaseeq n a b = true ↔ strlow (cstr (a.take n)) = strlow (cstr (b.take n)) := by
  have hlen : (a.take n).length = n := List.length_take_of_le ha
  rw [← strncaseeq_take, ← strncaseeq_iff (hlen.trans (List.length_take_of_le hb).symm), hlen]

theorem sameName_iff {a b : Str} : sameName a b = true ↔ nameKey a = nameKey b := by
  simp only [sameName, Bool.and_eq_true, beq_iff_eq, nameKey, Prod.mk.injEq]
  exact and_congr_right fun h => strncaseeq_iff h

@[simp] theorem sameName_refl (a : Str) : sameName a a = true := sameName_iff.mpr rfl

theorem sameName_comm (a b : Str) : sameName a b = sameName b a := by
  rw [Bool.eq_iff_iff, sameName_iff, sameName_iff, eq_comm]

theorem sameName_congr {a b : Str} (h : sameName a b = true) (c : Str) :
    sameName a c = sameName b c := by
  rw [Bool.eq_iff_iff, sameName_iff, sameName_iff, sameName_iff.mp h]

theorem cstr_take (n : ℕ) (s : Str) : cstr (s.take n) = (cstr s).take n := by
  induction s generalizing n with
  | nil => simp
  | cons c s ih =>
    cases n with
    | zero => simp
    | succ n =>
      rw [List.take_succ_cons, cstr_cons, cstr_cons]
      split
      · rfl
      · rw [ih, List.take_succ_cons]

theorem strncaseeq_congr {n : ℕ} {a b c : Str} (h : sameName a b = true) (ha : n ≤ a.length)
    (hc : n ≤ c.length) : strncaseeq n a c = strncaseeq n b c := by
  obtain ⟨hlen, hlow⟩ := Prod.mk.inj (sameName_iff.mp h)
  have htake : strlow (cstr (a.take n)) = strlow (cstr (b.take n)) := by
    rw [cstr_take, cstr_take, strlow, strlow, List.map_take, List.map_take]
    exact congrArg (List.take n) hlow
  rw [Bool.eq_iff_iff, strncaseeq_iff_take ha hc, strncaseeq_iff_take (hlen ▸ ha) hc, htake]

theorem strlow_eq_of_sameName {a b : Str} (h : sameName a b = true) (hb : 0 ∉ b) :
    strlow a = strlow b := by
  obtain ⟨hlen, hlow⟩ := Prod.mk.inj (sameName_iff.mp h)
  rw [cstr_eq_self hb] at hlow
  have hself : cstr a = a := by
    have hprefix : cstr a <+: a := List.takeWhile_prefix _
    exact hprefix.eq_of_length (by simpa [strlow, ← hlen] using congrArg List.length hlow)
  rwa [hself] at hlow

theorem getLast?_eq_of_sameName {a b : Str} (h : sameName a b = true) (hb : 0 ∉ b) :
    a.getLast?.map tolower = b.getLast?.map tolower := by
  have := congrArg List.getLast? (strlow_eq_of_sameName h hb)
  rwa [strlow, strlow, List.getLast?_map, List.getLast?_map] at this

theorem hashKeyLc_eq (s : Str) : hashKeyLc s = hashStr (strlow s) := by
  rw [hashStr, strlow, List.foldl_map]
  rfl

theorem sameName_iff_strlow {a b : Str} (ha : 0 ∉ a) (hb : 0 ∉ b) :
    sameName a b = true ↔ strlow a = strlow b := by
  rw [sameName_iff, nameKey, nameKey, cstr_eq_self ha, cstr_eq_self hb, Prod.mk.injEq]
  apply and_iff_right_of_imp
  intro h
  simpa [strlow] using congrArg List.length h

end HeadersControl
