import HeadersControl.Base.Nginx
import HeadersControl.Segments.Memory
import Mathlib.Data.Set.Insert

/-! # Bitmaps over rule ids

A bitmap stores `intTLen` bits in each word, where `intTLen` is any number up to
the width of a word. Rules with different ids own different bits, so setting the
bit of an id adds exactly that id to the bitmap.
-/

namespace HeadersControl

open Segments

structure Bitmap where
  bits : Option (List Word)
  size : ℕ
  deriving Repr

/-- `ngx_pcalloc` of `n` words, succeeding. -/
def pcallocWords (n : ℕ) : Option (List Word) := some (List.replicate n 0)

def bitmapInit (intTLen : ℕ) (size : ℕ) (alloc : ℕ → Option (List Word)) : Bitmap :=
  match alloc ((size + intTLen - 1) / intTLen) with
  | none => ⟨none, 0⟩
  | some bits => ⟨some bits, size⟩

def mask (intTLen bit : ℕ) : Word := 1#64 <<< (bit % intTLen)

/-- The checked write of `bitmap_set`. -/
def bitmapSet (intTLen : ℕ) (bm : Bitmap) (bit : ℕ) : Bitmap :=
  match bm.bits with
  | none => bm
  | some bits =>
      if bit < bm.size then
        { bm with bits := some (bits.modify (bit / intTLen) (· ||| mask intTLen bit)) }
      else bm

/-- The write `locked.bits[id / NGX_INT_T_LEN] |= …` of the rule loops, without any check. -/
def bitmapWrite (intTLen : ℕ) (bm : Bitmap) (bit : ℕ) : Except Fault Bitmap :=
  match bm.bits with
  | none => .error .null
  | some bits =>
      if bit / intTLen < bits.length then
        .ok { bm with bits := some (bits.modify (bit / intTLen) (· ||| mask intTLen bit)) }
      else .error .overrun

def bitmapIsset (intTLen : ℕ) (bm : Bitmap) (bit : ℕ) : Rc :=
  match bm.bits with
  | none => .declined
  | some bits =>
      if bm.size ≤ bit then .declined
      else if (bits[bit / intTLen]?).getD 0 &&& mask intTLen bit = 0 then .declined
      else .ok

/--
A bitmap over the bits below `n` that holds the set `ids`. It has a word for each of them, so
no write of such a bit leaves the allocation.
-/
structure Bitmap.Holds (bm : Bitmap) (intTLen n : ℕ) (ids : Set ℕ) : Prop where
  size : bm.size = n
  words : ∃ words, bm.bits = some words ∧ words.length = (n + intTLen - 1) / intTLen ∧
    ∀ bit < n, (words[bit / intTLen]?).getD 0 &&& mask intTLen bit = 0 ↔ bit ∉ ids

variable {intTLen n bit : ℕ} {bm : Bitmap} {ids : Set ℕ}

theorem word_lt (hT : 1 ≤ intTLen) (h : bit < n) :
    bit / intTLen < (n + intTLen - 1) / intTLen := by
  have := Nat.div_add_mod (n + intTLen - 1) intTLen
  have := Nat.mod_lt (n + intTLen - 1) (show 0 < intTLen by omega)
  rw [Nat.div_lt_iff_lt_mul (by omega), Nat.mul_comm]
  omega

theorem mask_and_mask {i j : ℕ} (hT : 1 ≤ intTLen) (hT' : intTLen ≤ 64) :
    mask intTLen i &&& mask intTLen j = 0 ↔ i % intTLen ≠ j % intTLen := by
  have hi : i % intTLen < 64 := (Nat.mod_lt _ (by omega)).trans_le hT'
  have hj : j % intTLen < 64 := (Nat.mod_lt _ (by omega)).trans_le hT'
  constructor
  · intro h he
    have := congrArg (fun w : Word => w.getLsbD (i % intTLen)) h
    simp [mask, ← he, hi] at this
  · intro h
    apply BitVec.eq_of_getLsbD_eq
    intro k hk
    simp [mask]
    omega

theorem or_eq_zero {a b : Word} : a ||| b = 0 ↔ a = 0 ∧ b = 0 := by
  constructor
  · intro h
    have hk : ∀ k, a.getLsbD k = false ∧ b.getLsbD k = false := fun k => by
      simpa using congrArg (fun w : Word => w.getLsbD k) h
    exact ⟨BitVec.eq_of_getLsbD_eq fun k _ => by simp [(hk k).1],
      BitVec.eq_of_getLsbD_eq fun k _ => by simp [(hk k).2]⟩
  · rintro ⟨rfl, rfl⟩
    simp

theorem or_mask_and {w : Word} {i j : ℕ} (hT : 1 ≤ intTLen) (hT' : intTLen ≤ 64) :
    (w ||| mask intTLen i) &&& mask intTLen j = 0 ↔
      w &&& mask intTLen j = 0 ∧ i % intTLen ≠ j % intTLen := by
  have hd : (w ||| mask intTLen i) &&& mask intTLen j =
      (w &&& mask intTLen j) ||| (mask intTLen i &&& mask intTLen j) := by
    ext k
    simp [Bool.and_or_distrib_right]
  rw [hd, or_eq_zero, mask_and_mask hT hT']

theorem bitmapInit_holds (intTLen n : ℕ) :
    (bitmapInit intTLen n pcallocWords).Holds intTLen n ∅ where
  size := rfl
  words := ⟨_, rfl, by simp, fun bit _ => by
    rw [List.getElem?_replicate]
    split <;> simp⟩

theorem bitmapWrite_holds (hT : 1 ≤ intTLen) (hT' : intTLen ≤ 64) (h : bm.Holds intTLen n ids)
    (hb : bit < n) :
    ∃ bm', bitmapWrite intTLen bm bit = .ok bm' ∧ bm'.Holds intTLen n (insert bit ids) := by
  obtain ⟨hsize, words, hbits, hlen, hw⟩ := h
  have hlt : bit / intTLen < words.length := hlen ▸ word_lt hT hb
  refine ⟨{ bm with bits := some (words.modify (bit / intTLen) (· ||| mask intTLen bit)) },
    by simp [bitmapWrite, hbits, hlt], hsize, _, rfl, by simp [hlen], fun j hj => ?_⟩
  rw [List.getElem?_modify]
  by_cases hd : bit / intTLen = j / intTLen
  · have hne : bit % intTLen = j % intTLen ↔ j = bit :=
      ⟨fun hm => by rw [← Nat.div_add_mod j intTLen, ← hd, ← hm, Nat.div_add_mod],
        fun he => by rw [he]⟩
    have hj' : j / intTLen < words.length := hlen ▸ word_lt hT hj
    have := hw j hj
    simp only [List.getElem?_eq_getElem hj', Option.getD_some] at this
    simp only [hd, if_true, List.getElem?_eq_getElem hj', Option.map_eq_map, Option.map_some,
      Option.getD_some, or_mask_and hT hT', this, ne_eq, hne, Set.mem_insert_iff, not_or]
    exact and_comm
  · have hne : j ≠ bit := by
      rintro rfl
      exact hd rfl
    simpa [hd, hne] using hw j hj

theorem bitmapSet_holds (hT : 1 ≤ intTLen) (hT' : intTLen ≤ 64) (h : bm.Holds intTLen n ids)
    (hb : bit < n) : (bitmapSet intTLen bm bit).Holds intTLen n (insert bit ids) := by
  obtain ⟨bm', he, h'⟩ := bitmapWrite_holds hT hT' h hb
  obtain ⟨hsize, words, hbits, hlen, -⟩ := h
  have hlt : bit / intTLen < words.length := hlen ▸ word_lt hT hb
  have : bm' = bitmapSet intTLen bm bit := by
    simp only [bitmapWrite, hbits, hlt, if_true, Except.ok.injEq] at he
    simp [bitmapSet, hbits, hsize, hb, ← he]
  exact this ▸ h'

theorem bitmapIsset_iff (h : bm.Holds intTLen n ids) (hb : bit < n) :
    bitmapIsset intTLen bm bit = .ok ↔ bit ∈ ids := by
  obtain ⟨hsize, words, hbits, hlen, hw⟩ := h
  simp only [bitmapIsset, hbits, hsize, Nat.not_le.mpr hb, if_false]
  by_cases hm : bit ∈ ids
  · rw [if_neg (mt (hw bit hb).mp (not_not.mpr hm))]
    simp [hm]
  · rw [if_pos ((hw bit hb).mpr hm)]
    simp [hm]

end HeadersControl
