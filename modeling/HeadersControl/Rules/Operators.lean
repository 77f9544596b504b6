import HeadersControl.Base.TableElt
import HeadersControl.Rules.Rule

/-! # Operators

The opcodes as functions on a sequence of entries, which are pairs of a name and
a value.
-/

namespace HeadersControl

variable {η ο : Type} {hv : HeaderVal η ο} {value : Str}

def keepFirst (hit : Str → Bool) (value : Str) : List (Str × Str) → List (Str × Str)
  | [] => []
  | e :: es =>
      if hit e.1 then (e.1, value) :: es.filter fun e => !hit e.1
      else e :: keepFirst hit value es

/-- The operators, where an empty value means removal. -/
def HeaderVal.operate (hv : HeaderVal η ο) (value : Str) (es : List (Str × Str)) :
    List (Str × Str) :=
  match hv.opcode with
  | .set =>
      if value = [] then es.filter fun e => !hv.matchesName e.1
      else if es.any fun e => hv.matchesName e.1 then keepFirst hv.matchesName value es
      else es ++ [(hv.key, value)]
  | .clear => es.filter fun e => !hv.matchesName e.1
  | .add =>
      if value = [] ∨ es.any fun e => hv.matchesName e.1 then es else es ++ [(hv.key, value)]
  | .rewrite =>
      if value = [] then es.filter fun e => !hv.matchesName e.1
      else keepFirst hv.matchesName value es
  | .append => es ++ [(hv.key, value)]
  | .pass => es

def newElt (hv : HeaderVal η ο) (value : Str) : TableElt where
  hash := if value = [] then 0 else hv.hash
  key := hv.key
  value := value
  lowcaseKey := strlow hv.key
  next := none

theorem keepFirst_eq_self {hit : Str → Bool} {value : Str} {es : List (Str × Str)}
    (h : ∀ e ∈ es, hit e.1 = false) : keepFirst hit value es = es := by
  induction es with
  | nil => rfl
  | cons e es ih =>
    simp [keepFirst, h e List.mem_cons_self, ih fun x hx => h x (List.mem_cons_of_mem _ hx)]

theorem filter_keepFirst (hit : Str → Bool) (value : Str) (es : List (Str × Str)) :
    (keepFirst hit value es).filter (fun e => !hit e.1) = es.filter fun e => !hit e.1 := by
  induction es with
  | nil => rfl
  | cons e es ih => cases he : hit e.1 <;> simp [keepFirst, he, ih]

theorem map_filter_eq_keepFirst {hit : Str → Bool} {value : Str} {slots : List ℕ} {a : ℕ}
    {cell cell' : ℕ → TableElt} (hn : slots.Nodup)
    (ha : (slots.find? fun s => hit (cell s).key) = some a)
    (hc : ∀ s, hit (cell s).key = false → cell' s = cell s)
    (hca : (cell' a).key = (cell a).key ∧ (cell' a).value = value) :
    ((slots.filter fun s => !hit (cell s).key || s = a).map
        fun s => ((cell' s).key, (cell' s).value)) =
      keepFirst hit value (slots.map fun s => ((cell s).key, (cell s).value)) := by
  induction slots with
  | nil => simp at ha
  | cons s slots ih =>
    obtain ⟨hns, hn⟩ := List.nodup_cons.mp hn
    cases hs : hit (cell s).key with
    | false =>
      rw [List.find?_cons_of_neg (by simp [hs])] at ha
      rw [List.filter_cons_of_pos (by simp [hs]), List.map_cons, ih hn ha, hc s hs]
      simp [keepFirst, hs]
    | true =>
      rw [List.find?_cons_of_pos (by simp [hs]), Option.some.injEq] at ha
      subst ha
      rw [List.filter_cons_of_pos (by simp), List.map_cons, hca.1, hca.2]
      simp only [List.map_cons, keepFirst, hs, if_true, List.filter_map]
      congr 1
      have hrest : slots.filter (fun x => !hit (cell x).key || decide (x = s)) =
          slots.filter fun x => !hit (cell x).key :=
        List.filter_congr fun x hx => by
          have : x ≠ s := by
            rintro rfl
            exact hns hx
          simp [this]
      rw [hrest]
      apply List.map_congr_left
      intro x hx
      rw [hc x (by simpa using (List.mem_filter.mp hx).2)]

theorem operate_of_no_hit {es : List (Str × Str)} (h : ∀ e ∈ es, hv.matchesName e.1 = false) :
    hv.operate value es =
      if hv.opcode = .append ∨ value ≠ [] ∧ (hv.opcode = .set ∨ hv.opcode = .add) then
        es ++ [(hv.key, value)]
      else es := by
  have hfilter : (es.filter fun e => !hv.matchesName e.1) = es :=
    List.filter_eq_self.mpr fun e he => by rw [h e he]; rfl
  have hany : (es.any fun e => hv.matchesName e.1) = false :=
    List.any_eq_false.mpr fun e he => by simp [h e he]
  have hkeep : keepFirst hv.matchesName value es = es := keepFirst_eq_self h
  unfold HeaderVal.operate
  cases hv.opcode <;> by_cases hv₀ : value = [] <;> simp only [hfilter, hany, hkeep, hv₀] <;>
    simp [hv₀]

theorem HeaderVal.matchesName_self (hv : HeaderVal η ο) : hv.matchesName hv.key = true := by
  have hlen : hv.key.length - 1 ≤ hv.key.length := Nat.sub_le _ _
  unfold HeaderVal.matchesName
  split
  · rw [Bool.and_eq_true, decide_eq_true_eq]
    exact ⟨hlen, (strncaseeq_iff_take hlen hlen).mpr rfl⟩
  · exact sameName_refl _

theorem operate_frame (es : List (Str × Str)) :
    (hv.operate value es).filter (fun e => !hv.matchesName e.1) =
      es.filter fun e => !hv.matchesName e.1 := by
  have hself := hv.matchesName_self
  unfold HeaderVal.operate
  cases hv.opcode <;> (try split_ifs) <;> simp [filter_keepFirst, hself]

end HeadersControl
