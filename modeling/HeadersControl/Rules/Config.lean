import HeadersControl.Rules.Bitmap
import HeadersControl.Rules.Parse
import Mathlib.Data.List.Nodup
import Mathlib.Logic.Relation

/-! # Configuration tree and inheritance

Directives append rules to the array of their location. When nginx merges the
tree, a location without rules shares the array of its parent, and any other
gets the rules of its parent behind its own, less those that a child rule
disables. Rule ids are assigned while parsing and renumbered by every merge.
-/

namespace HeadersControl

open Segments

variable {ι η ο ηi οi ηo οo : Type} [DecidableEq ι]

/-- An array pointer seen through its target, with the stored count. -/
abbrev Rules (η ο : Type) := Option (List (HeaderVal η ο)) × ℕ

/-- `headers_in` or `headers_out` of all locations, with the arrays behind the pointers. -/
structure Side (ι η ο : Type) where
  headers : ι → Option ℕ
  cnt : ι → ℕ
  arrays : ℕ → List (HeaderVal η ο)
  created : ℕ

structure Cycle (ι ηi οi ηo οo : Type) where
  input : Side ι ηi οi
  output : Side ι ηo οo
  requiresHandler : Bool
  requiresFilter : Bool

/-- A parent rule that some unconditional exact child rule without `-n` makes unreachable. -/
def HeaderVal.disabledBy (p : HeaderVal η ο) (curr : List (HeaderVal η ο)) : Bool :=
  !p.wildcard && curr.any fun h => h.overrides && sameName h.key p.key

/-- The parent rules that `ngx_http_headers_control_merge_one_array` does not copy. -/
def disableMap (intTLen : ℕ) (curr prev : List (HeaderVal η ο)) (prevCnt : ℕ) : Bitmap :=
  curr.foldl (fun bm h =>
    if h.filter.isSome || h.next || h.wildcard then bm
    else prev.foldl (fun bm p =>
      if !p.wildcard && sameName h.key p.key then bitmapSet intTLen bm p.id else bm) bm)
    (bitmapInit intTLen prevCnt pcallocWords)

/-- `ngx_http_headers_control_merge_one_array`, giving the new array of the child. -/
def mergeOneArray (intTLen : ℕ) (curr prev : List (HeaderVal η ο)) (prevCnt : ℕ) :
    List (HeaderVal η ο) :=
  let kept := prev.filter fun p =>
    bitmapIsset intTLen (disableMap intTLen curr prev prevCnt) p.id ≠ .ok
  (curr ++ kept).mapIdx fun i h => { h with id := i }

/-- What `merge_loc_conf` makes of one array and its count. -/
def mergeRules (intTLen : ℕ) (curr prev : Rules η ο) : Rules η ο :=
  match curr, prev with
  | (none, _), _ => prev
  | (some [], _), _ => prev
  | (some (_ :: _), _), (none, _) => curr
  | (some (_ :: _), _), (some [], _) => curr
  | (some (h :: hs), _), (some (p :: ps), prevCnt) =>
      let merged := mergeOneArray intTLen (h :: hs) (p :: ps) prevCnt
      (some merged, merged.length)

namespace Side

def rules (s : Side ι η ο) (i : ι) : Rules η ο := ((s.headers i).map s.arrays, s.cnt i)

def own (s : Side ι η ο) (i : ι) : List (HeaderVal η ο) := (s.rules i).1.getD []

def initial : Side ι η ο := ⟨fun _ => none, fun _ => 0, fun _ => [], 0⟩

/-- The effect of an accepted directive: push its rule, creating the array at first. -/
def addRule (s : Side ι η ο) (i : ι) (hv : HeaderVal η ο) : Side ι η ο :=
  match s.headers i with
  | none =>
      { headers := Function.update s.headers i (some s.created)
        cnt := Function.update s.cnt i (s.cnt i + 1)
        arrays := Function.update s.arrays s.created [hv]
        created := s.created + 1 }
  | some a =>
      { s with
        cnt := Function.update s.cnt i (s.cnt i + 1)
        arrays := Function.update s.arrays a (s.arrays a ++ [hv]) }

/-- One half of `ngx_http_headers_control_merge_loc_conf`. -/
def mergeLocConf (intTLen : ℕ) (s : Side ι η ο) (prev conf : ι) : Side ι η ο :=
  let inherit : Side ι η ο :=
    { s with
      headers := Function.update s.headers conf (s.headers prev)
      cnt := Function.update s.cnt conf (s.cnt prev) }
  match s.headers conf with
  | none => inherit
  | some a =>
      if (s.arrays a).length = 0 then inherit
      else match s.headers prev with
        | none => s
        | some b =>
            if (s.arrays b).length = 0 then s
            else
              let merged := mergeOneArray intTLen (s.arrays a) (s.arrays b) (s.cnt prev)
              { s with
                arrays := Function.update s.arrays a merged
                cnt := Function.update s.cnt conf merged.length }

end Side

namespace Cycle

def initial : Cycle ι ηi οi ηo οo := ⟨.initial, .initial, false, false⟩

/-- The parser accepts one more directive somewhere in the tree. -/
inductive Directive (compiles : Str → Bool) (tableIn : SetHandlers ηi οi)
    (tableOut : SetHandlers ηo οo) : Cycle ι ηi οi ηo οo → Cycle ι ηi οi ηo οo → Prop
  | input {c : Cycle ι ηi οi ηo οo} {i : ι} {args : List Str} {hv : HeaderVal ηi οi} :
      parseDirective compiles tableIn (c.input.cnt i) args = .ok hv →
      Directive compiles tableIn tableOut c
        { c with input := c.input.addRule i hv, requiresHandler := true }
  | output {c : Cycle ι ηi οi ηo οo} {i : ι} {args : List Str} {hv : HeaderVal ηo οo} :
      parseDirective compiles tableOut (c.output.cnt i) args = .ok hv →
      Directive compiles tableIn tableOut c
        { c with output := c.output.addRule i hv, requiresFilter := true }

/-- `ngx_http_headers_control_merge_loc_conf`. -/
def mergeLocConf (intTLen : ℕ) (c : Cycle ι ηi οi ηo οo) (prev conf : ι) :
    Cycle ι ηi οi ηo οo :=
  { c with
    input := c.input.mergeLocConf intTLen prev conf
    output := c.output.mergeLocConf intTLen prev conf }

end Cycle

def Settled (parent : ι → Option ι) (merged : List ι) (i : ι) : Prop :=
  parent i = none ∨ i ∈ merged

/-- nginx merges every location once, into a parent that has been merged before. -/
inductive Merge (intTLen : ℕ) (parent : ι → Option ι) :
    Cycle ι ηi οi ηo οo × List ι → Cycle ι ηi οi ηo οo × List ι → Prop
  | merge {c : Cycle ι ηi οi ηo οo} {merged : List ι} {prev conf : ι} :
      parent conf = some prev → Settled parent merged prev → conf ∉ merged →
      Merge intTLen parent (c, merged) (c.mergeLocConf intTLen prev conf, conf :: merged)

inductive Lineage (parent : ι → Option ι) : ι → List ι → Prop
  | root {i : ι} : parent i = none → Lineage parent i [i]
  | child {i p : ι} {path : List ι} :
      parent i = some p → Lineage parent p path → Lineage parent i (i :: path)

omit [DecidableEq ι] in
theorem own_of_rules {s s' : Side ι η ο} {i j : ι} (h : s'.rules i = s.rules j) :
    s'.own i = s.own j := by
  rw [Side.own, h, Side.own]

/-- The rules that merging gives to the first location of a lineage. -/
def inherited (intTLen : ℕ) (s : Side ι η ο) : List ι → Rules η ο
  | [] => (none, 0)
  | [i] => s.rules i
  | i :: path => mergeRules intTLen (s.rules i) (inherited intTLen s path)

section MergeOneArray

variable {intTLen n : ℕ} {curr prev : List (HeaderVal η ο)}

theorem foldl_holds {α : Type} {f : Bitmap → α → Bitmap} {S : α → Set ℕ} {l : List α}
    (hf : ∀ a ∈ l, ∀ bm ids, bm.Holds intTLen n ids → (f bm a).Holds intTLen n (ids ∪ S a))
    {bm : Bitmap} {ids : Set ℕ} (h : bm.Holds intTLen n ids) :
    (l.foldl f bm).Holds intTLen n (ids ∪ {j | ∃ a ∈ l, j ∈ S a}) := by
  induction l generalizing bm ids with
  | nil => simpa using h
  | cons a l ih =>
    have h' := ih (fun b hb => hf b (List.mem_cons_of_mem _ hb)) (hf a List.mem_cons_self bm ids h)
    have he : ids ∪ {j | ∃ b ∈ a :: l, j ∈ S b} = ids ∪ S a ∪ {j | ∃ b ∈ l, j ∈ S b} := by
      ext j
      simp [or_assoc]
    exact he ▸ h'

theorem map_id_mapIdx (l : List (HeaderVal η ο)) :
    (l.mapIdx fun i h => { h with id := i }).map HeaderVal.id = List.range l.length := by
  refine List.ext_getElem (by simp) fun i h₁ h₂ => ?_
  simp

theorem id_lt {arr : List (HeaderVal η ο)} {h : HeaderVal η ο}
    (hids : arr.map HeaderVal.id = List.range arr.length) (hm : h ∈ arr) : h.id < arr.length := by
  have := List.mem_map_of_mem (f := HeaderVal.id) hm
  rwa [hids, List.mem_range] at this

theorem id_inj {arr : List (HeaderVal η ο)} {h h' : HeaderVal η ο}
    (hids : arr.map HeaderVal.id = List.range arr.length) (hm : h ∈ arr) (hm' : h' ∈ arr)
    (he : h.id = h'.id) : h = h' :=
  List.inj_on_of_nodup_map (hids ▸ List.nodup_range) hm hm' he

theorem skip_eq (h : HeaderVal η ο) :
    (h.filter.isSome || h.next || h.wildcard) = !h.overrides := by
  cases hf : h.filter <;> simp [HeaderVal.overrides, hf]

theorem disableMap_holds (hT : 1 ≤ intTLen) (hT' : intTLen ≤ 64)
    (hids : prev.map HeaderVal.id = List.range prev.length) :
    (disableMap intTLen curr prev prev.length).Holds intTLen prev.length
      {j | ∃ h ∈ curr, h.overrides = true ∧ ∃ p ∈ prev,
        (!p.wildcard && sameName h.key p.key) = true ∧ j = p.id} := by
  have hinit := bitmapInit_holds intTLen prev.length
  rw [← Set.empty_union {j | _}]
  refine foldl_holds (S := fun h : HeaderVal η ο => {j | h.overrides = true ∧ ∃ p ∈ prev,
    (!p.wildcard && sameName h.key p.key) = true ∧ j = p.id}) (fun h _ bm ids hb => ?_) hinit
  simp only [skip_eq]
  cases ho : h.overrides with
  | false => simpa [ho] using hb
  | true =>
    simp only [Bool.not_true, Bool.false_eq_true, if_false, true_and]
    refine foldl_holds (S := fun p : HeaderVal η ο =>
      {j | (!p.wildcard && sameName h.key p.key) = true ∧ j = p.id}) (fun p hp bm ids hb => ?_) hb
    by_cases hc : (!p.wildcard && sameName h.key p.key) = true
    · have he : ids ∪ {j | (!p.wildcard && sameName h.key p.key) = true ∧ j = p.id} =
          insert p.id ids := by
        ext j
        simp only [hc, true_and, Set.mem_union, Set.mem_ofPred_eq, Set.mem_insert_iff, or_comm]
      rw [if_pos hc, he]
      exact bitmapSet_holds hT hT' hb (id_lt hids hp)
    · rw [if_neg hc]
      simpa [hc] using hb

theorem mergeOneArray_eq (hT : 1 ≤ intTLen) (hT' : intTLen ≤ 64)
    (hids : prev.map HeaderVal.id = List.range prev.length) :
    mergeOneArray intTLen curr prev prev.length =
      (curr ++ prev.filter fun p => !p.disabledBy curr).mapIdx fun i h => { h with id := i } := by
  have hfilter : ∀ p ∈ prev,
      decide (bitmapIsset intTLen (disableMap intTLen curr prev prev.length) p.id ≠ .ok) =
        !p.disabledBy curr := by
    intro p hp
    rw [Bool.eq_iff_iff, decide_eq_true_iff, ne_eq,
      bitmapIsset_iff (disableMap_holds hT hT' hids) (id_lt hids hp), Bool.not_eq_true',
      ← Bool.not_eq_true]
    apply not_congr
    constructor
    · rintro ⟨h, hh, ho, q, hq, hc, he⟩
      obtain rfl := id_inj hids hp hq he
      simp only [Bool.and_eq_true, HeaderVal.disabledBy, List.any_eq_true] at hc ⊢
      exact ⟨hc.1, h, hh, ho, hc.2⟩
    · intro hd
      simp only [HeaderVal.disabledBy, Bool.and_eq_true, List.any_eq_true] at hd
      obtain ⟨hw, h, hh, ho, hn⟩ := hd
      exact ⟨h, hh, ho, p, hp, by simp [hw, hn], rfl⟩
  rw [mergeOneArray, List.filter_congr hfilter]

end MergeOneArray

end HeadersControl
