import HeadersControl.Request.Host
import Mathlib.Algebra.Group.Nat.Defs
import Mathlib.Data.List.Chain
import Mathlib.Data.List.Infix

/-! # The grammar of hosts

A host is a name or a literal in brackets, and may be followed by a colon and a
port. The state machine of `validateHost` accepts exactly these values, and its
result is a host that it accepts again.
-/

namespace HeadersControl

open Segments

def isHostByte (c : UInt8) : Bool := isUpper c || isLower c || isDigit c || isHostMark c

def isNameByte (c : UInt8) : Bool := isHostByte c || c = 37

def isLiteralByte (c : UInt8) : Bool := isHostByte c || c = 58

def NoTwoDots (s : Str) : Prop := s.IsChain fun a b => a = 46 → b ≠ 46

inductive HostPart : Str → Prop
  | name {host : Str} : (∀ c ∈ host, isNameByte c = true ∨ c = 46) → NoTwoDots host → HostPart host
  | literal {lit : Str} : (∀ c ∈ lit, isLiteralByte c = true ∨ c = 46) → NoTwoDots lit →
      HostPart (91 :: (lit ++ [93]))

def digitsValue (ds : Str) : ℕ := ds.foldl (fun n c => n * 10 + digitVal c) 0

inductive PortPart : Str → Prop
  | absent : PortPart []
  | digits {ds : Str} : (∀ c ∈ ds, isDigit c = true) → digitsValue ds ≤ 65535 → PortPart (58 :: ds)

def stripDot (host : Str) : Str := if host.getLast? = some 46 then host.dropLast else host

/-- The value `v` is a host with an optional port, and the host is not empty or a sole dot. -/
def HostForm (v host : Str) : Prop :=
  ∃ port, v = host ++ port ∧ HostPart host ∧ PortPart port ∧ stripDot host ≠ []

section Bytes

variable {c : UInt8}

theorem isHostByte_plain (h : isHostByte c = true) :
    c ≠ 46 ∧ c ≠ 58 ∧ c ≠ 93 ∧ c ≠ 91 ∧ c ≠ 37 := by
  refine ⟨?_, ?_, ?_, ?_, ?_⟩ <;> (rintro rfl; revert h; decide)

theorem tolower_upper (h : isUpper c = true) : isLower (tolower c) = true := by
  have hall : ∀ n : Fin 256, isUpper (UInt8.ofNat n) = true →
      isLower (tolower (UInt8.ofNat n)) = true := by decide +kernel
  have hc := hall ⟨c.toNat, c.toNat_lt⟩
  simpa [h] using hc

theorem tolower_of_not_upper (h : isUpper c = false) : tolower c = c := by
  unfold tolower
  rw [if_neg]
  intro hc
  simp [isUpper, hc] at h

theorem isUpper_tolower : isUpper (tolower c) = false := by
  cases h : isUpper c with
  | false => rw [tolower_of_not_upper h, h]
  | true =>
    have hl := tolower_upper h
    cases hu : isUpper (tolower c) with
    | false => rfl
    | true =>
      simp only [isUpper, isLower, decide_eq_true_eq, UInt8.le_iff_toNat_le] at hl hu
      have hge : (97 : ℕ) ≤ (tolower c).toNat := hl.1
      have hle : (tolower c).toNat ≤ 90 := hu.2
      omega

theorem isHostByte_tolower : isHostByte (tolower c) = isHostByte c := by
  cases h : isUpper c with
  | false => rw [tolower_of_not_upper h]
  | true => simp [isHostByte, tolower_upper h, h]

theorem tolower_eq_iff {b : UInt8} (hb : isUpper b = false) (hb' : isLower b = false) :
    tolower c = b ↔ c = b := by
  cases h : isUpper c with
  | false => rw [tolower_of_not_upper h]
  | true =>
    constructor
    · rintro rfl
      rw [tolower_upper h] at hb'
      cases hb'
    · rintro rfl
      rw [h] at hb
      cases hb

end Bytes

section Step

variable {s s' : HostScan} {i : ℕ} {c : UInt8}

theorem host_eq_some : s.host i c = some s' ↔
    isNameByte c = true ∧ s' = { s with alloc := s.alloc || isUpper c } ∨
    c = 58 ∧ s' = { s with hostLen := i, state := .port } ∨
    c = 46 ∧ s.dotPos + 1 ≠ i ∧ s' = { s with dotPos := i } := by
  cases hb : isNameByte c with
  | true =>
    have hne : c ≠ 46 ∧ c ≠ 58 := by
      rcases Bool.or_eq_true_iff.mp hb with hh | hh
      · exact ⟨(isHostByte_plain hh).1, (isHostByte_plain hh).2.1⟩
      · obtain rfl : c = 37 := of_decide_eq_true hh
        decide
    have hsame : s.host i c = some { s with alloc := s.alloc || isUpper c } := by
      cases hu : isUpper c with
      | true => simp [HostScan.host, hu]
      | false =>
        have hrest : (isLower c || isDigit c) = true ∨ (isHostMark c || c = 37) = true := by
          simpa [isNameByte, isHostByte, hu, or_assoc] using hb
        rcases hrest with hr | hr
        · simp only [HostScan.host, hu, hr, if_true, if_false, Bool.false_eq_true, Bool.or_false]
        · simp only [HostScan.host, hu, hr, hne, if_true, if_false, Bool.false_eq_true,
            Bool.or_false, ite_self]
    rw [hsame]
    simp [hne, eq_comm]
  | false =>
    have hnot : isUpper c = false ∧ (isLower c || isDigit c) = false ∧
        (isHostMark c || c = 37) = false := by
      simpa [isNameByte, isHostByte, and_assoc] using hb
    simp only [HostScan.host, hnot, HostScan.dot, Bool.false_eq_true, if_false, false_and, false_or]
    split_ifs with hcolon hdot hpos
    · simp [hcolon, eq_comm (a := s')]
    · simp [hdot, hpos]
    · simp [hdot, hpos, eq_comm (a := s')]
    · simp [hcolon, hdot]

theorem ipLiteral_eq_some : s.ipLiteral i c = some s' ↔
    isLiteralByte c = true ∧ s' = { s with alloc := s.alloc || isUpper c } ∨
    c = 93 ∧ s' = { s with hostLen := i + 1, state := .hostEnd } ∨
    c = 46 ∧ s.dotPos + 1 ≠ i ∧ s' = { s with dotPos := i } := by
  cases hb : isLiteralByte c with
  | true =>
    have hne : c ≠ 46 ∧ c ≠ 93 := by
      rcases Bool.or_eq_true_iff.mp hb with hh | hh
      · exact ⟨(isHostByte_plain hh).1, (isHostByte_plain hh).2.2.1⟩
      · obtain rfl : c = 58 := of_decide_eq_true hh
        decide
    have hsame : s.ipLiteral i c = some { s with alloc := s.alloc || isUpper c } := by
      cases hu : isUpper c with
      | true => simp [HostScan.ipLiteral, hu]
      | false =>
        have hrest : (isLower c || isDigit c || c = 58) = true ∨ isHostMark c = true := by
          have := hb
          simp only [isLiteralByte, isHostByte, hu, Bool.false_or, Bool.or_eq_true] at this ⊢
          tauto
        rcases hrest with hr | hr
        · simp only [HostScan.ipLiteral, hu, hr, if_true, if_false, Bool.false_eq_true,
            Bool.or_false]
        · simp only [HostScan.ipLiteral, hu, hr, hne, if_true, if_false, Bool.false_eq_true,
            Bool.or_false, ite_self]
    rw [hsame]
    simp [hne, eq_comm]
  | false =>
    have hnot : isUpper c = false ∧ (isLower c || isDigit c || c = 58) = false ∧
        isHostMark c = false := by
      simp only [isLiteralByte, isHostByte, Bool.or_eq_false_iff] at hb ⊢
      tauto
    simp only [HostScan.ipLiteral, hnot, HostScan.dot, Bool.false_eq_true, if_false, false_and,
      false_or]
    split_ifs with hclose hdot hpos
    · simp [hclose, eq_comm (a := s')]
    · simp [hdot, hpos]
    · simp [hdot, hpos, eq_comm (a := s')]
    · simp [hclose, hdot]

theorem loop_append (s : HostScan) (i : ℕ) (u w : Str) :
    s.loop i (u ++ w) = (s.loop i u).bind fun s' => s'.loop (i + u.length) w := by
  induction u generalizing s i with
  | nil => rfl
  | cons c u ih =>
    simp only [List.cons_append, HostScan.loop, List.length_cons]
    cases s.step i c with
    | none => rfl
    | some s' =>
      dsimp only
      rw [ih, Nat.add_assoc, Nat.add_comm 1]

theorem loop_singleton : s.loop i [c] = s.step i c := by
  simp only [HostScan.loop]
  cases s.step i c <;> rfl

end Step

section Body

variable {P : UInt8 → Bool} {body : Str} {i d n : ℕ} {a : Bool} {c : UInt8}

theorem noTwoDots_concat : NoTwoDots (body ++ [c]) ↔
    NoTwoDots body ∧ (body.getLast? = some 46 → c ≠ 46) := by
  unfold NoTwoDots
  rw [List.isChain_append]
  simp only [List.isChain_singleton, true_and, List.head?_cons, Option.mem_def, Option.some.injEq]
  apply and_congr_right
  intro _
  constructor
  · intro h hl
    exact h 46 hl c rfl rfl
  · rintro h x hx y rfl rfl
    exact h hx

/--
What is known in a host state at position `i` of `n`, with the bytes `body` behind it: the last
dot is at `d`, which is `n` where there was none, and `a` is set once a letter has to be folded.
-/
structure Body (P : UInt8 → Bool) (body : Str) (i d n : ℕ) (a : Bool) : Prop where
  bytes : ∀ c ∈ body, P c = true ∨ c = 46
  dots : NoTwoDots body
  last : d + 1 = i ↔ body.getLast? = some 46
  bound : d = n ∨ d < i
  lower : a = false → ∀ c ∈ body, isUpper c = false

theorem body_nil (hi : i ≤ n) : Body P [] i n n a where
  bytes := by simp
  dots := List.isChain_nil
  last := by
    constructor
    · intro h
      omega
    · intro h
      cases h
  bound := Or.inl rfl
  lower := by simp

theorem Body.push (h : Body P body i d n a) (hc : P c = true) (hne : c ≠ 46) (hi : i < n) :
    Body P (body ++ [c]) (i + 1) d n (a || isUpper c) where
  bytes := by
    intro x hx
    rcases List.mem_append.mp hx with hx | hx
    · exact h.bytes x hx
    · exact Or.inl (List.mem_singleton.mp hx ▸ hc)
  dots := noTwoDots_concat.mpr ⟨h.dots, fun _ => hne⟩
  last := by
    rw [List.getLast?_concat, Option.some.injEq]
    constructor
    · intro hd
      have := h.bound
      omega
    · intro hc'
      exact absurd hc' hne
  bound := by
    have := h.bound
    omega
  lower := by
    intro ha x hx
    rw [Bool.or_eq_false_iff] at ha
    rcases List.mem_append.mp hx with hx | hx
    · exact h.lower ha.1 x hx
    · exact List.mem_singleton.mp hx ▸ ha.2

theorem Body.dot (h : Body P body i d n a) (hd : d + 1 ≠ i) :
    Body P (body ++ [46]) (i + 1) i n a where
  bytes := by
    intro x hx
    rcases List.mem_append.mp hx with hx | hx
    · exact h.bytes x hx
    · exact Or.inr (List.mem_singleton.mp hx)
  dots := noTwoDots_concat.mpr ⟨h.dots, fun hl => absurd (h.last.mpr hl) hd⟩
  last := by simp
  bound := Or.inr (Nat.lt_succ_self i)
  lower := by
    intro ha x hx
    rcases List.mem_append.mp hx with hx | hx
    · exact h.lower ha x hx
    · obtain rfl := List.mem_singleton.mp hx
      rfl

theorem loop_body {st : HostState} {k : ℕ}
    (hbyte : ∀ d a i c, P c = true →
      HostScan.step ⟨st, d, n, k, a⟩ i c = some ⟨st, d, n, k, a || isUpper c⟩)
    (hdot : ∀ d a i, d + 1 ≠ i → HostScan.step ⟨st, d, n, k, a⟩ i 46 = some ⟨st, i, n, k, a⟩)
    (hP : P 46 = false) (h₀ : Body P [] i d n a) (hb : ∀ c ∈ body, P c = true ∨ c = 46)
    (hd : NoTwoDots body) (hn : i + body.length ≤ n) :
    ∃ d' a', HostScan.loop ⟨st, d, n, k, a⟩ i body = some ⟨st, d', n, k, a'⟩ ∧
      Body P body (i + body.length) d' n a' := by
  induction body using List.reverseRecOn with
  | nil => exact ⟨d, a, rfl, h₀⟩
  | append_singleton body c ih =>
    obtain ⟨hd, hlast⟩ := noTwoDots_concat.mp hd
    rw [List.length_append, List.length_singleton] at hn ⊢
    obtain ⟨d', a', he, hbody⟩ := ih (fun x hx => hb x (List.mem_append_left _ hx)) hd (by omega)
    rw [loop_append, he, Option.bind_some, loop_singleton]
    rcases hb c (List.mem_append_right _ List.mem_cons_self) with hc | rfl
    · have hne : c ≠ 46 := by
        rintro rfl
        rw [hP] at hc
        cases hc
      exact ⟨d', a' || isUpper c, hbyte _ _ _ _ hc, hbody.push hc hne (by omega)⟩
    · have hpos : d' + 1 ≠ i + body.length := fun hp => hlast (hbody.last.mp hp) rfl
      exact ⟨i + body.length, a', hdot _ _ _ hpos, hbody.dot hpos⟩

end Body

section Port

variable {ds : Str} {k d n i : ℕ} {a : Bool}

theorem digitsValue_concat (ds : Str) (c : UInt8) :
    digitsValue (ds ++ [c]) = digitsValue ds * 10 + digitVal c := by
  simp [digitsValue, List.foldl_append]

theorem digitVal_le {c : UInt8} (h : isDigit c = true) : digitVal c ≤ 9 := by
  simp only [isDigit, decide_eq_true_eq, UInt8.le_iff_toNat_le] at h
  have hle : c.toNat ≤ 57 := h.2
  unfold digitVal
  omega

/-- The check in front of the update keeps the port within 16 bits, and rejects nothing else. -/
theorem port_step {c : UInt8} {s' : HostScan} (hk : k ≤ 65535) :
    HostScan.step ⟨.port, d, n, k, a⟩ i c = some s' ↔
      isDigit c = true ∧ k * 10 + digitVal c ≤ 65535 ∧
        s' = ⟨.port, d, n, k * 10 + digitVal c, a⟩ := by
  cases hc : isDigit c with
  | false => simp [HostScan.step, hc]
  | true =>
    have hle := digitVal_le hc
    have hiff : (6553 ≤ k ∧ (6553 < k ∨ 5 < digitVal c)) ↔ ¬ k * 10 + digitVal c ≤ 65535 := by
      omega
    simp only [HostScan.step, hc, if_true, true_and, hiff]
    by_cases hport : k * 10 + digitVal c ≤ 65535
    · simp [hport, eq_comm]
    · simp [hport]

theorem loop_port (hk : k ≤ 65535) (hds : ∀ c ∈ ds, isDigit c = true)
    (hv : ds.foldl (fun n c => n * 10 + digitVal c) k ≤ 65535) :
    HostScan.loop ⟨.port, d, n, k, a⟩ i ds =
      some ⟨.port, d, n, ds.foldl (fun n c => n * 10 + digitVal c) k, a⟩ := by
  induction ds generalizing k i with
  | nil => rfl
  | cons c ds ih =>
    have hmono : ∀ (ds : Str) (k : ℕ), k ≤ ds.foldl (fun n c => n * 10 + digitVal c) k := by
      intro ds
      induction ds with
      | nil => exact fun k => le_rfl
      | cons c ds ih =>
        intro k
        have := ih (k * 10 + digitVal c)
        rw [List.foldl_cons]
        omega
    rw [List.foldl_cons] at hv ⊢
    have hle := (hmono ds (k * 10 + digitVal c)).trans hv
    have hstep := (port_step (d := d) (n := n) (i := i) (a := a) hk).mpr
      ⟨hds c List.mem_cons_self, hle, rfl⟩
    rw [HostScan.loop, hstep]
    exact ih hle (fun x hx => hds x (List.mem_cons_of_mem _ hx)) hv

end Port

/-- What is known of a host part that has been read as a whole. -/
structure Located (host : Str) (d n : ℕ) (a : Bool) : Prop where
  part : HostPart host
  last : d + 1 = host.length ↔ host.getLast? = some 46
  bound : d = n ∨ d < host.length
  lower : a = false → ∀ c ∈ host, isUpper c = false

/-- The states of the loop over `n` bytes, after the bytes `pre`. -/
inductive Scanned (n : ℕ) : Str → HostScan → Prop
  | start {a : Bool} : Scanned n [] ⟨.hostStart, n, n, 0, a⟩
  | host {pre : Str} {d : ℕ} {a : Bool} : Body isNameByte pre pre.length d n a →
      Scanned n pre ⟨.host, d, n, 0, a⟩
  | ipLiteral {lit : Str} {d : ℕ} {a : Bool} : Body isLiteralByte lit (lit.length + 1) d n a →
      Scanned n (91 :: lit) ⟨.ipLiteral, d, n, 0, a⟩
  | hostEnd {host : Str} {d : ℕ} {a : Bool} : Located host d n a →
      Scanned n host ⟨.hostEnd, d, host.length, 0, a⟩
  | port {host ds : Str} {d : ℕ} {a : Bool} : Located host d n a →
      (∀ c ∈ ds, isDigit c = true) → digitsValue ds ≤ 65535 →
      Scanned n (host ++ 58 :: ds) ⟨.port, d, host.length, digitsValue ds, a⟩

section Scanned

variable {n d : ℕ} {a : Bool} {pre lit v : Str} {c : UInt8} {s s' : HostScan}

theorem Body.located (h : Body isNameByte pre pre.length d n a) : Located pre d n a where
  part := .name h.bytes h.dots
  last := h.last
  bound := h.bound
  lower := h.lower

/-- The closing bracket is not a dot, and no dot is taken for it. -/
theorem Body.closed (h : Body isLiteralByte lit (lit.length + 1) d n a)
    (hn : lit.length + 1 < n) : Located (91 :: (lit ++ [93])) d n a where
  part := .literal h.bytes h.dots
  last := by
    have hlast : (91 :: (lit ++ [93])).getLast? = some 93 := by
      rw [← List.cons_append, List.getLast?_concat]
    rw [hlast]
    constructor
    · intro hd
      have := h.bound
      simp only [List.length_cons, List.length_append, List.length_nil] at hd
      omega
    · intro hc
      exact absurd (Option.some.inj hc) (by decide)
  bound := by
    have := h.bound
    simp only [List.length_cons, List.length_append, List.length_nil]
    omega
  lower := by
    intro ha x hx
    rw [List.mem_cons, List.mem_append, List.mem_singleton] at hx
    rcases hx with rfl | hx | rfl
    · rfl
    · exact h.lower ha x hx
    · rfl

theorem Scanned.of_host (h : Body isNameByte pre pre.length d n a) (hn : pre.length < n)
    (he : HostScan.host ⟨.host, d, n, 0, a⟩ pre.length c = some s') :
    Scanned n (pre ++ [c]) s' := by
  rcases host_eq_some.mp he with ⟨hc, rfl⟩ | ⟨rfl, rfl⟩ | ⟨rfl, hd, rfl⟩
  · have hne : c ≠ 46 := by
      rintro rfl
      revert hc
      decide
    exact .host (by simpa using h.push hc hne hn)
  · exact .port h.located (by simp) (by decide)
  · exact .host (by simpa using h.dot hd)

theorem Scanned.step (h : Scanned n pre s) (hn : pre.length < n)
    (he : s.step pre.length c = some s') : Scanned n (pre ++ [c]) s' := by
  cases h with
  | start =>
    simp only [HostScan.step] at he
    split at he
    · rename_i hc
      obtain rfl := Option.some.inj he
      rw [hc]
      exact .ipLiteral (body_nil hn)
    · exact .of_host (body_nil hn.le) hn he
  | host hb => exact .of_host hb hn he
  | @ipLiteral lit d a hb =>
    rcases ipLiteral_eq_some.mp he with ⟨hc, rfl⟩ | ⟨rfl, rfl⟩ | ⟨rfl, hd, rfl⟩
    · have hne : c ≠ 46 := by
        rintro rfl
        revert hc
        decide
      exact .ipLiteral (by simpa using hb.push hc hne hn)
    · have hl := hb.closed hn
      have hlen : (91 :: (lit ++ [93])).length = (91 :: lit).length + 1 := by simp
      rw [List.cons_append, ← hlen]
      exact .hostEnd hl
    · exact .ipLiteral (by simpa using hb.dot hd)
  | hostEnd hl =>
    simp only [HostScan.step] at he
    split at he
    · rename_i hc
      obtain rfl := Option.some.inj he
      rw [hc]
      exact .port hl (by simp) (by decide)
    · cases he
  | @port host ds d a hl hds hk =>
    obtain ⟨hc, hle, rfl⟩ := (port_step hk).mp he
    rw [List.append_assoc, List.cons_append, ← digitsValue_concat]
    refine .port hl (fun x hx => ?_) (by rwa [digitsValue_concat])
    rcases List.mem_append.mp hx with hx | hx
    · exact hds x hx
    · exact List.mem_singleton.mp hx ▸ hc

theorem Scanned.of_loop (hn : pre.length ≤ n)
    (he : HostScan.loop ⟨.hostStart, n, n, 0, a⟩ 0 pre = some s) : Scanned n pre s := by
  induction pre using List.reverseRecOn generalizing s with
  | nil =>
    obtain rfl := Option.some.inj he
    exact .start
  | append_singleton pre c ih =>
    rw [List.length_append, List.length_singleton] at hn
    rw [loop_append] at he
    obtain ⟨s₁, he₁, he⟩ := Option.bind_eq_some_iff.mp he
    rw [Nat.zero_add, loop_singleton] at he
    exact (ih (by omega) he₁).step (by omega) he

theorem Scanned.split (h : Scanned v.length v s) (hs : s.state ≠ .ipLiteral) :
    ∃ host port, v = host ++ port ∧ PortPart port ∧ s.hostLen = host.length ∧
      Located host s.dotPos v.length s.alloc := by
  cases h with
  | start =>
    exact ⟨[], [], rfl, .absent, rfl, .name (by simp) List.isChain_nil, by simp, Or.inl rfl,
      by simp⟩
  | host hb => exact ⟨v, [], (List.append_nil v).symm, .absent, rfl, hb.located⟩
  | ipLiteral => exact absurd rfl hs
  | hostEnd hl => exact ⟨v, [], (List.append_nil v).symm, .absent, rfl, hl⟩
  | @port host ds d a hl hds hk => exact ⟨host, 58 :: ds, rfl, .digits hds hk, rfl, hl⟩

theorem loop_portPart {port : Str} {i m : ℕ} (hs : s.state ≠ .ipLiteral)
    (hcolon : s.step i 58 = some ⟨.port, d, m, 0, a⟩) (hlen : port = [] → s.hostLen = m)
    (hport : PortPart port) :
    ∃ s', s.loop i port = some s' ∧ s'.state ≠ .ipLiteral ∧ s'.hostLen = m := by
  cases hport with
  | absent => exact ⟨s, rfl, hs, hlen rfl⟩
  | @digits ds hds hle =>
    refine ⟨⟨.port, d, m, digitsValue ds, a⟩, ?_, by simp, rfl⟩
    rw [HostScan.loop, hcolon]
    exact loop_port (by decide) hds hle

theorem loop_start {i : ℕ} {rest : Str} (hc : c ≠ 91) :
    HostScan.loop ⟨.hostStart, d, n, 0, a⟩ i (c :: rest) =
      HostScan.loop ⟨.host, d, n, 0, a⟩ i (c :: rest) := by
  simp [HostScan.loop, HostScan.step, hc]

theorem loop_name {body : Str} (hb : ∀ c ∈ body, isNameByte c = true ∨ c = 46)
    (hd : NoTwoDots body) (hn : body.length ≤ n) :
    ∃ d' a', HostScan.loop ⟨.host, n, n, 0, a⟩ 0 body = some ⟨.host, d', n, 0, a'⟩ := by
  have hbyte : ∀ d a i c, isNameByte c = true → HostScan.step ⟨.host, d, n, 0, a⟩ i c =
      some ⟨.host, d, n, 0, a || isUpper c⟩ := fun d a i c hc =>
    (host_eq_some (s := ⟨.host, d, n, 0, a⟩)).mpr (Or.inl ⟨hc, rfl⟩)
  have hdot : ∀ d a i, d + 1 ≠ i → HostScan.step ⟨.host, d, n, 0, a⟩ i 46 =
      some ⟨.host, i, n, 0, a⟩ := fun d a i hd =>
    (host_eq_some (s := ⟨.host, d, n, 0, a⟩)).mpr (Or.inr (Or.inr ⟨rfl, hd, rfl⟩))
  obtain ⟨d', a', he, -⟩ := loop_body hbyte hdot (by decide) (body_nil (a := a) (Nat.zero_le n))
    hb hd (by omega)
  exact ⟨d', a', he⟩

theorem loop_literal {body : Str} (hb : ∀ c ∈ body, isLiteralByte c = true ∨ c = 46)
    (hd : NoTwoDots body) (hn : 1 + body.length ≤ n) :
    ∃ d' a', HostScan.loop ⟨.ipLiteral, n, n, 0, a⟩ 1 body = some ⟨.ipLiteral, d', n, 0, a'⟩ := by
  have hbyte : ∀ d a i c, isLiteralByte c = true → HostScan.step ⟨.ipLiteral, d, n, 0, a⟩ i c =
      some ⟨.ipLiteral, d, n, 0, a || isUpper c⟩ := fun d a i c hc =>
    (ipLiteral_eq_some (s := ⟨.ipLiteral, d, n, 0, a⟩)).mpr (Or.inl ⟨hc, rfl⟩)
  have hdot : ∀ d a i, d + 1 ≠ i → HostScan.step ⟨.ipLiteral, d, n, 0, a⟩ i 46 =
      some ⟨.ipLiteral, i, n, 0, a⟩ := fun d a i hd =>
    (ipLiteral_eq_some (s := ⟨.ipLiteral, d, n, 0, a⟩)).mpr (Or.inr (Or.inr ⟨rfl, hd, rfl⟩))
  obtain ⟨d', a', he, -⟩ := loop_body hbyte hdot (by decide) (body_nil (a := a) (by omega)) hb hd hn
  exact ⟨d', a', he⟩

theorem loop_of_form {host port : Str} (hv : v = host ++ port) (hpart : HostPart host)
    (hport : PortPart port) :
    ∃ s, HostScan.loop ⟨.hostStart, v.length, v.length, 0, a⟩ 0 v = some s ∧
      s.state ≠ .ipLiteral ∧ s.hostLen = host.length := by
  have hlen : v.length = host.length + port.length := by rw [hv, List.length_append]
  generalize v.length = n at hlen
  cases hpart with
  | name hb hd =>
    obtain ⟨d', a', he⟩ := loop_name (a := a) hb hd (by omega : host.length ≤ n)
    have hcolon : HostScan.step ⟨.host, d', n, 0, a'⟩ host.length 58 =
        some ⟨.port, d', host.length, 0, a'⟩ :=
      (host_eq_some (s := ⟨.host, d', n, 0, a'⟩)).mpr (Or.inr (Or.inl ⟨rfl, rfl⟩))
    obtain ⟨s', htail, hs', hl'⟩ :=
      loop_portPart (by simp) hcolon (fun hp => by simp [hlen, hp]) hport
    have hrun : HostScan.loop ⟨.host, n, n, 0, a⟩ 0 v = some s' := by
      rw [hv, loop_append, he, Option.bind_some, Nat.zero_add, htail]
    cases v with
    | nil =>
      have hnil := List.append_eq_nil_iff.mp hv.symm
      exact ⟨_, rfl, by simp, by simp [hlen, hnil]⟩
    | cons c rest =>
      have hc : c ≠ 91 := by
        rintro rfl
        cases host with
        | nil =>
          cases hport with
          | absent => cases hv
          | digits => cases hv
        | cons x host =>
          obtain rfl : (91 : UInt8) = x := (List.cons.inj hv).1
          have := hb 91 List.mem_cons_self
          revert this
          decide
      exact ⟨s', by rw [loop_start hc]; exact hrun, hs', hl'⟩
  | @literal lit hb hd =>
    have hlen' : n = lit.length + 2 + port.length := by simpa using hlen
    obtain ⟨d', a', he⟩ := loop_literal (a := a) hb hd (by omega : 1 + lit.length ≤ n)
    have hclose : HostScan.step ⟨.ipLiteral, d', n, 0, a'⟩ (1 + lit.length) 93 =
        some ⟨.hostEnd, d', 1 + lit.length + 1, 0, a'⟩ :=
      (ipLiteral_eq_some (s := ⟨.ipLiteral, d', n, 0, a'⟩)).mpr (Or.inr (Or.inl ⟨rfl, rfl⟩))
    have hcolon : HostScan.step ⟨.hostEnd, d', 1 + lit.length + 1, 0, a'⟩ (1 + lit.length + 1) 58 =
        some ⟨.port, d', 1 + lit.length + 1, 0, a'⟩ := by simp [HostScan.step]
    obtain ⟨s', htail, hs', hl'⟩ := loop_portPart (by simp) hcolon (fun _ => rfl) hport
    have hopen : HostScan.step ⟨.hostStart, n, n, 0, a⟩ 0 91 = some ⟨.ipLiteral, n, n, 0, a⟩ := rfl
    have hsplit : v = 91 :: (lit ++ 93 :: port) := by simpa using hv
    refine ⟨s', ?_, hs', by rw [hl']; simp; omega⟩
    rw [hsplit, HostScan.loop, hopen]
    dsimp only
    rw [Nat.zero_add, loop_append, he, Option.bind_some, HostScan.loop, hclose]
    exact htail

end Scanned

/-- The tests that the source makes on `size_t`, and the bound of its port. -/
structure HostScan.Fits (s : HostScan) (i : ℕ) : Prop where
  dot : BitVec.ofNat 64 s.dotPos = BitVec.ofNat 64 i - 1 ↔ s.dotPos + 1 = i
  trim : BitVec.ofNat 64 s.dotPos = BitVec.ofNat 64 s.hostLen - 1 ↔ s.dotPos + 1 = s.hostLen
  port : s.port ≤ 65535

theorem word_pred_eq {d i : ℕ} (hd : d + 1 < 2 ^ 64) (hi : i < 2 ^ 64) :
    BitVec.ofNat 64 d = BitVec.ofNat 64 i - 1 ↔ d + 1 = i := by
  constructor
  · intro h
    bv_omega
  · intro h
    bv_omega

theorem Scanned.fits {n : ℕ} {pre : Str} {s : HostScan} (h : Scanned n pre s)
    (hpre : pre.length ≤ n) (hn : n + 1 < 2 ^ 64) : s.Fits pre.length := by
  have hbounds : s.dotPos ≤ n ∧ s.hostLen ≤ n ∧ s.port ≤ 65535 := by
    cases h with
    | start => exact ⟨le_rfl, le_rfl, Nat.zero_le _⟩
    | host hb =>
      have := hb.bound
      refine ⟨?_, le_rfl, Nat.zero_le _⟩
      dsimp only
      omega
    | ipLiteral hb =>
      have := hb.bound
      simp only [List.length_cons] at hpre
      refine ⟨?_, le_rfl, Nat.zero_le _⟩
      dsimp only
      omega
    | hostEnd hl =>
      have := hl.bound
      refine ⟨?_, hpre, Nat.zero_le _⟩
      dsimp only
      omega
    | port hl _ hk =>
      have := hl.bound
      simp only [List.length_append] at hpre
      refine ⟨?_, ?_, hk⟩ <;> dsimp only <;> omega
  obtain ⟨hd, hl, hk⟩ := hbounds
  exact ⟨word_pred_eq (by omega) (by omega), word_pred_eq (by omega) (by omega), hk⟩

section Result

variable {v host port : Str} {n : ℕ} {s : HostScan} {pool : Pool} {alloc : Bool}

theorem length_stripDot : (stripDot host).length =
    if host.getLast? = some 46 then host.length - 1 else host.length := by
  unfold stripDot
  split
  · exact List.length_dropLast
  · rfl

theorem trimmedLen_eq (hl : s.hostLen = host.length) (h : Located host s.dotPos n s.alloc) :
    s.trimmedLen = (stripDot host).length := by
  rw [length_stripDot, HostScan.trimmedLen, hl]
  simp only [h.last]

theorem stripDot_initial (host : Str) : stripDot host <+: host := by
  unfold stripDot
  split
  · exact List.dropLast_prefix host
  · exact List.prefix_rfl

theorem take_trimmedLen (hv : v = host ++ port) (hl : s.hostLen = host.length)
    (h : Located host s.dotPos n s.alloc) : v.take s.trimmedLen = stripDot host := by
  have hpre : stripDot host <+: v :=
    hv ▸ (stripDot_initial host).trans (List.prefix_append host port)
  rw [trimmedLen_eq hl h]
  exact (List.prefix_iff_eq_take.mp hpre).symm

theorem strlow_eq_self (h : ∀ c ∈ v, isUpper c = false) : strlow v = v := by
  have hid : v.map tolower = v.map fun c => c :=
    List.map_congr_left fun c hc => tolower_of_not_upper (h c hc)
  rw [strlow, hid, List.map_id']

theorem validateHost_of_form (pool : Pool) (alloc : Bool) (h : HostForm v host) :
    (validateHost v pool alloc).1 ≠ .declined ∧
      (pool.Reliable → (validateHost v pool alloc).1 = .ok) ∧
      ((validateHost v pool alloc).1 = .ok →
        (validateHost v pool alloc).2.1 = strlow (stripDot host)) := by
  obtain ⟨port, hv, hpart, hport, hne⟩ := h
  obtain ⟨s, he, hs, hlen⟩ := loop_of_form (a := alloc) hv hpart hport
  obtain ⟨host', port', hv', -, hlen', hloc⟩ := (Scanned.of_loop le_rfl he).split hs
  obtain rfl : host = host' := by
    have htake := congrArg (List.take s.hostLen) (hv.symm.trans hv')
    rwa [hlen, List.take_left, ← hlen, hlen', List.take_left] at htake
  have htake := take_trimmedLen hv hlen hloc
  have hpos : s.trimmedLen ≠ 0 := by
    rw [trimmedLen_eq hlen hloc]
    exact fun h0 => hne (List.length_eq_zero_iff.mp h0)
  unfold validateHost
  rw [he]
  simp only [hs, hpos, if_false, htake]
  cases ha : s.alloc with
  | true =>
    cases hb : pool.allocBytes with
    | mk ok pool' =>
      cases ok with
      | true => simp
      | false =>
        refine ⟨by simp, fun hr => ?_, by simp⟩
        simp [Pool.allocBytes, hr pool.tick] at hb
  | false =>
    have hlow : ∀ c ∈ stripDot host, isUpper c = false := fun c hc =>
      hloc.lower ha c ((stripDot_initial host).subset hc)
    simp [strlow_eq_self hlow]

theorem validateHost_of_not (pool : Pool) (alloc : Bool) (h : ¬ ∃ host, HostForm v host) :
    validateHost v pool alloc = (.declined, v, pool) := by
  unfold validateHost
  cases he : HostScan.loop ⟨.hostStart, v.length, v.length, 0, alloc⟩ 0 v with
  | none => rfl
  | some s =>
    by_cases hs : s.state = .ipLiteral
    · simp [hs]
    · obtain ⟨host, port, hv, hport, hlen, hloc⟩ := (Scanned.of_loop le_rfl he).split hs
      have hzero : s.trimmedLen = 0 := by
        rw [trimmedLen_eq hlen hloc, List.length_eq_zero_iff]
        by_contra hne
        exact h ⟨host, port, hv, hloc.part, hport, hne⟩
      simp [hs, hzero]

theorem validateHost_accepts_iff :
    (validateHost v pool alloc).1 ≠ .declined ↔ ∃ host, HostForm v host := by
  constructor
  · intro hacc
    by_contra h
    exact hacc (by rw [validateHost_of_not pool alloc h])
  · rintro ⟨host, h⟩
    exact (validateHost_of_form pool alloc h).1

theorem HostForm.unique {host' : Str} (h : HostForm v host) (h' : HostForm v host') :
    strlow (stripDot host) = strlow (stripDot host') := by
  have hr : Pool.Reliable ⟨[], 0, 0, fun _ => false, 0, by simp⟩ := fun _ => rfl
  obtain ⟨-, hok, hres⟩ := validateHost_of_form _ false h
  obtain ⟨-, hok', hres'⟩ := validateHost_of_form _ false h'
  exact (hres (hok hr)).symm.trans (hres' (hok' hr))

end Result

section Normalised

variable {v host s : Str}

theorem NoTwoDots.strlow (h : NoTwoDots s) : NoTwoDots (strlow s) := by
  unfold NoTwoDots HeadersControl.strlow
  rw [List.isChain_map]
  refine h.imp fun a b hab ha => ?_
  rw [tolower_eq_iff (by decide) (by decide)] at ha
  rw [ne_eq, tolower_eq_iff (by decide) (by decide)]
  exact hab ha

theorem stripDot_last (h : NoTwoDots host) : (stripDot host).getLast? ≠ some 46 := by
  unfold stripDot
  split
  · rename_i hl
    obtain ⟨init, rfl⟩ := List.getLast?_eq_some_iff.mp hl
    rw [List.dropLast_concat]
    exact fun hlast => (noTwoDots_concat.mp h).2 hlast rfl
  · assumption

theorem getLast?_strlow (s : Str) :
    (strlow s).getLast? = some 46 ↔ s.getLast? = some 46 := by
  rw [strlow, List.getLast?_map]
  cases s.getLast? with
  | none => simp
  | some c => simp [tolower_eq_iff (c := c) (b := 46) (by decide) (by decide)]

theorem mem_strlow {P : UInt8 → Bool} (hP : ∀ c, P (tolower c) = P c)
    (h : ∀ c ∈ s, P c = true ∨ c = 46) : ∀ c ∈ strlow s, P c = true ∨ c = 46 := by
  intro c hc
  obtain ⟨b, hb, rfl⟩ := List.mem_map.mp hc
  rw [hP, tolower_eq_iff (by decide) (by decide)]
  exact h b hb

theorem isNameByte_tolower (c : UInt8) : isNameByte (tolower c) = isNameByte c := by
  simp [isNameByte, isHostByte_tolower, tolower_eq_iff (c := c) (b := 37) (by decide) (by decide)]

theorem isLiteralByte_tolower (c : UInt8) : isLiteralByte (tolower c) = isLiteralByte c := by
  simp [isLiteralByte, isHostByte_tolower,
    tolower_eq_iff (c := c) (b := 58) (by decide) (by decide)]

theorem HostForm.normalised (h : HostForm v host) :
    HostForm (strlow (stripDot host)) (strlow (stripDot host)) ∧
      strlow (stripDot (strlow (stripDot host))) = strlow (stripDot host) := by
  obtain ⟨-, -, hpart, -, hne⟩ := h
  have hlow : strlow (strlow (stripDot host)) = strlow (stripDot host) := by
    apply strlow_eq_self
    intro c hc
    obtain ⟨b, -, rfl⟩ := List.mem_map.mp hc
    exact isUpper_tolower
  have hform : HostPart (strlow (stripDot host)) ∧ (stripDot host).getLast? ≠ some 46 := by
    cases hpart with
    | name hb hd =>
      refine ⟨.name (mem_strlow isNameByte_tolower fun c hc =>
        hb c ((stripDot_initial host).subset hc)) ?_, stripDot_last hd⟩
      exact NoTwoDots.strlow <| List.IsChain.prefix hd (stripDot_initial host)
    | @literal lit hb hd =>
      have hlast : (91 :: (lit ++ [93])).getLast? = some 93 := by
        rw [← List.cons_append, List.getLast?_concat]
      have hstrip : stripDot (91 :: (lit ++ [93])) = 91 :: (lit ++ [93]) :=
        if_neg (by rw [hlast]; decide)
      have hfold : strlow (91 :: (lit ++ [93])) = 91 :: (strlow lit ++ [93]) := by
        simp only [strlow, List.map_cons, List.map_append, List.map_nil]
        rfl
      rw [hstrip, hfold, hlast]
      exact ⟨.literal (mem_strlow isLiteralByte_tolower hb) hd.strlow, by decide⟩
  have hstrip : stripDot (strlow (stripDot host)) = strlow (stripDot host) :=
    if_neg fun hl => hform.2 ((getLast?_strlow _).mp hl)
  refine ⟨⟨[], (List.append_nil _).symm, hform.1, .absent, ?_⟩, by rw [hstrip, hlow]⟩
  rw [hstrip]
  simpa [strlow] using hne

theorem HostForm.idempotent (h : HostForm v host) (pool : Pool) (alloc : Bool) :
    (validateHost (strlow (stripDot host)) pool alloc).1 ≠ .declined ∧
      (pool.Reliable → (validateHost (strlow (stripDot host)) pool alloc).1 = .ok) ∧
      ((validateHost (strlow (stripDot host)) pool alloc).1 = .ok →
        (validateHost (strlow (stripDot host)) pool alloc).2.1 = strlow (stripDot host)) := by
  obtain ⟨hform, hfix⟩ := h.normalised
  have hres := validateHost_of_form pool alloc hform
  rwa [hfix] at hres

end Normalised

end HeadersControl
