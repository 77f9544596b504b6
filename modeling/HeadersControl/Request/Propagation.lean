import HeadersControl.Request.Helper
import HeadersControl.Segments.Copy

/-! # Propagation to parent requests

Where `create` was given an output header it copies `headers_in` to every ancestor
of the request. The copies share the list, but for the first part, and have the
typed pointers as they are at that moment.
-/

namespace HeadersControl

open Segments Segments.Shape

variable {ρ η ο : Type} [DecidableEq ρ]

section Propagate

variable {w : World ρ} {r : ρ} {as : List ρ}

theorem header_propagate (q : ρ) : (w.propagate r as).shape.header q =
    if q ∈ as then w.shape.header r else w.shape.header q := by
  induction as generalizing w r with
  | nil => rfl
  | cons p as ih =>
    rw [World.propagate, ih]
    by_cases hqp : q = p
    · subst hqp
      simp [World.copyHeadersIn]
    · simp [World.copyHeadersIn, hqp]

theorem headersIn_propagate (q : ρ) : (w.propagate r as).headersIn q =
    if q ∈ as then w.headersIn r else w.headersIn q := by
  induction as generalizing w r with
  | nil => rfl
  | cons p as ih =>
    rw [World.propagate, ih]
    by_cases hqp : q = p
    · subst hqp
      simp [World.copyHeadersIn]
    · simp [World.copyHeadersIn, hqp]

theorem propagate_eq : (w.propagate r as).cell = w.cell ∧
    (w.propagate r as).shape.node = w.shape.node ∧ (w.propagate r as).shape.pool = w.shape.pool ∧
    (w.propagate r as).ancestors = w.ancestors := by
  induction as generalizing w r with
  | nil => exact ⟨rfl, rfl, rfl, rfl⟩
  | cons p as ih => exact ih (w := w.copyHeadersIn r p) (r := p)

theorem cell_propagate : (w.propagate r as).cell = w.cell := propagate_eq.1

theorem copied_propagate {p : ρ} (hp : p ∈ as) :
    w.shape.Copied (w.propagate r as).shape r p :=
  ⟨(header_propagate p).trans (if_pos hp), propagate_eq.2.1, propagate_eq.2.2.1⟩

theorem copied_self : w.shape.Copied (w.propagate r as).shape r r :=
  ⟨by rw [header_propagate, ite_self], propagate_eq.2.1, propagate_eq.2.2.1⟩

theorem headersIn_self : (w.propagate r as).headersIn r = w.headersIn r := by
  rw [headersIn_propagate, ite_self]

end Propagate

variable {r : ρ} {out : OutRef} {fr : Frame ρ}

theorem Frame.headersIn_propagate : (fr.propagate r out).w.headersIn r = fr.w.headersIn r := by
  unfold Frame.propagate
  split
  · rfl
  · exact headersIn_self

theorem Frame.cell_propagate : (fr.propagate r out).w.cell = fr.w.cell := by
  unfold Frame.propagate
  split
  · rfl
  · exact HeadersControl.cell_propagate

theorem Frame.local_propagate : (fr.propagate r out).h = fr.h := by
  unfold Frame.propagate
  split <;> rfl

theorem Frame.keep_propagate (hwf : fr.w.shape.WellFormed r) :
    (fr.propagate r out).w.shape.WellFormed r ∧
      (fr.propagate r out).w.shape.slots r = fr.w.shape.slots r := by
  unfold Frame.propagate
  split
  · exact ⟨hwf, rfl⟩
  · exact hwf.keep copied_self

theorem Outcome.wellFormed {hv : HeaderVal η ο} {value : Str} {fr' : Frame ρ}
    (hwf : fr.w.shape.WellFormed r) (ho : Outcome r hv value out fr fr') :
    fr'.w.shape.WellFormed r := by
  cases ho with
  | unchanged => exact hwf
  | cleared _ _ _ _ hk => exact hk.wellFormed
  | kept _ _ _ _ hk => exact hk.wellFormed
  | created _ hwf' => exact (Frame.keep_propagate (by simpa using hwf')).1

theorem Outcome.ptr_other {hv : HeaderVal η ο} {value : Str} {fr' : Frame ρ} {g : InField}
    (hout : out ≠ .field g) (ho : Outcome r hv value out fr fr') :
    (fr'.w.headersIn r).ptr g = (fr.w.headersIn r).ptr g := by
  cases ho with
  | unchanged => rfl
  | cleared => simp [Frame.ptr_store_of_ne _ _ _ _ hout]
  | kept => simp [Frame.ptr_store_of_ne _ _ _ _ hout]
  | created =>
    rw [Frame.headersIn_propagate, Frame.ptr_store_of_ne _ _ _ _ hout]
    rfl

end HeadersControl
