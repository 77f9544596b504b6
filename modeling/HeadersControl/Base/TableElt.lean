import HeadersControl.Base.Nginx
import Mathlib.Data.List.Nodup
import Mathlib.Logic.Function.Basic

/-! # Header entries and their chains

Entries of one name may be linked by `next`, with a typed field at the head of
the chain. A chain that ends visits no entry twice, so its entries are determined
by the head.
-/

namespace HeadersControl

/-- `ngx_table_elt_t`. -/
structure TableElt where
  hash : Word
  key : Str
  value : Str
  lowcaseKey : Str
  next : Option ℕ
  deriving DecidableEq, Repr

/-- An entry that is not sent: its hash is 0. -/
def TableElt.hide (e : TableElt) : TableElt := { e with value := [], hash := 0 }

def TableElt.assign (e : TableElt) (value : Str) (hash : Word) : TableElt := { e with value, hash }

/-- Following `next` from `head` visits `hs` in order and then reaches NULL. -/
def Chained (cell : ℕ → TableElt) : Option ℕ → List ℕ → Prop
  | head, [] => head = none
  | head, h :: hs => head = some h ∧ Chained cell (cell h).next hs

namespace Chained

variable {cell cell' : ℕ → TableElt} {head : Option ℕ} {h : ℕ} {hs hs' : List ℕ}

theorem congr (hc : Chained cell head hs) (hn : ∀ h ∈ hs, (cell' h).next = (cell h).next) :
    Chained cell' head hs := by
  induction hs generalizing head with
  | nil => exact hc
  | cons h hs ih =>
    apply And.intro hc.1
    rw [hn h List.mem_cons_self]
    exact ih hc.2 fun x hx => hn x (List.mem_cons_of_mem _ hx)

theorem unique (hc : Chained cell head hs) (hc' : Chained cell head hs') : hs = hs' := by
  induction hs generalizing head hs' with
  | nil =>
    cases hs' with
    | nil => rfl
    | cons h hs' => exact absurd (hc'.1.symm.trans hc) (by simp)
  | cons h hs ih =>
    cases hs' with
    | nil => exact absurd (hc.1.symm.trans hc') (by simp)
    | cons h' hs' =>
      obtain rfl := Option.some.inj (hc.1.symm.trans hc'.1)
      rw [ih hc.2 hc'.2]

theorem suffix {hs₁ : List ℕ} (hc : Chained cell head (hs₁ ++ h :: hs)) :
    Chained cell (some h) (h :: hs) := by
  induction hs₁ generalizing head with
  | nil => exact ⟨rfl, hc.2⟩
  | cons x hs₁ ih => exact ih hc.2

/-- An entry that came twice would have two different rests behind it. -/
theorem nodup (hc : Chained cell head hs) : hs.Nodup := by
  induction hs generalizing head with
  | nil => exact List.nodup_nil
  | cons h hs ih =>
    refine List.nodup_cons.mpr ⟨fun hm => ?_, ih hc.2⟩
    obtain ⟨as, bs, rfl⟩ := List.append_of_mem hm
    have hall : Chained cell (some h) (h :: (as ++ h :: bs)) := ⟨rfl, hc.2⟩
    have hrest := congrArg List.length ((suffix hc.2).unique hall)
    simp at hrest
    omega

end Chained

end HeadersControl
