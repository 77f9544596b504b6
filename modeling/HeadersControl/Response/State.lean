import HeadersControl.Base.TableElt
import HeadersControl.Segments.Push

/-! # Responses

The response side of a request owns a list of header entries, in which an entry
with hash 0 is not sent, typed pointers to entries that nginx knows by name, and
fields that are sent without an entry.
-/

namespace HeadersControl

open Segments

/-- The typed pointers of `ngx_http_headers_out_t` that the handler table names. -/
inductive OutField
  | server | date | contentEncoding | location | refresh | lastModified | contentRange
  | acceptRanges | wwwAuthenticate | expires | etag | contentLength | cacheControl
  deriving DecidableEq, Repr

/-- `headers_out.charset`, whose length is kept apart from the bytes behind its pointer. -/
structure Charset where
  len : Word
  data : Str
  deriving DecidableEq, Repr

/-- What the response side of the module reads and writes of a request. -/
structure Response where
  shape : Shape Unit
  cell : ℕ → TableElt
  ptr : OutField → Option ℕ
  contentType : Str
  contentTypeLen : ℕ
  contentTypeHash : Word
  contentTypeLowcase : Option Str
  charset : Charset
  contentLengthN : ℤ
  allowRanges : Bool

/-- `ngx_http_headers_control_location_hash`. -/
def locationHash : Word := hashStr (str "location")

namespace Response

variable (s : Response)

def setCell (h : ℕ) (e : TableElt) : Response := { s with cell := Function.update s.cell h e }

def setShape (sh : Shape Unit) : Response := { s with shape := sh }

def setPtr (f : OutField) (x : Option ℕ) : Response :=
  { s with ptr := Function.update s.ptr f x }

def store (out : Option OutField) (x : ℕ) : Response :=
  match out with
  | none => s
  | some f => s.setPtr f (some x)

/-- A slot is visible when the hash of its entry is not 0. -/
def shown (h : ℕ) : Bool := (s.cell h).hash ≠ 0

def visible : List (Str × Str) :=
  ((s.shape.slots ()).filter s.shown).map fun h => ((s.cell h).key, (s.cell h).value)

/-- The typed `Location` entry, where it holds a path, gets the fields that nginx left out. -/
def repairLocation : Response :=
  match s.ptr .location with
  | none => s
  | some h =>
      if (s.cell h).value.head? = some 47 then
        s.setCell h { s.cell h with hash := locationHash, key := str "Location" }
      else s

def ofElts (es : List TableElt) (nalloc : ℕ) (ptr : OutField → Option ℕ) : Response where
  shape := .single es.length nalloc
  cell h := es.getD h ⟨0, [], [], [], none⟩
  ptr := ptr
  contentType := []
  contentTypeLen := 0
  contentTypeHash := 0
  contentTypeLowcase := none
  charset := ⟨0, []⟩
  contentLengthN := -1
  allowRanges := true

variable (h : ℕ) (e : TableElt) (sh : Shape Unit) (f : OutField) (x : Option ℕ)
  (out : Option OutField) (y : ℕ)

@[simp] theorem shape_setCell : (s.setCell h e).shape = s.shape := rfl

@[simp] theorem cell_setCell : (s.setCell h e).cell = Function.update s.cell h e := rfl

@[simp] theorem ptr_setCell : (s.setCell h e).ptr = s.ptr := rfl

@[simp] theorem shape_setShape : (s.setShape sh).shape = sh := rfl

@[simp] theorem cell_setShape : (s.setShape sh).cell = s.cell := rfl

@[simp] theorem ptr_setShape : (s.setShape sh).ptr = s.ptr := rfl

@[simp] theorem shape_store : (s.store out y).shape = s.shape := by cases out <;> rfl

@[simp] theorem cell_store : (s.store out y).cell = s.cell := by cases out <;> rfl

@[simp] theorem store_none : s.store none y = s := rfl

@[simp] theorem shape_repairLocation : s.repairLocation.shape = s.shape := by
  unfold repairLocation
  split
  · rfl
  · split <;> rfl

@[simp] theorem ptr_repairLocation : s.repairLocation.ptr = s.ptr := by
  unfold repairLocation
  split
  · rfl
  · split <;> rfl

variable {s} in
theorem repairLocation_of_none (hptr : s.ptr .location = none) : s.repairLocation = s := by
  simp [repairLocation, hptr]

theorem cell_repairLocation :
    s.repairLocation.cell h = s.cell h ∨
      s.ptr .location = some h ∧ (s.cell h).value.head? = some 47 ∧
        s.repairLocation.cell h =
          { s.cell h with hash := locationHash, key := str "Location" } := by
  unfold repairLocation
  cases hp : s.ptr .location with
  | none => exact Or.inl rfl
  | some l =>
    by_cases hv : (s.cell l).value.head? = some 47
    · by_cases hl : h = l
      · subst hl
        simp [hv]
      · simp [hv, hl]
    · simp [hv]

theorem exists_repairLocation : ∃ c, s.repairLocation = { s with cell := c } := by
  unfold repairLocation
  split
  · exact ⟨_, rfl⟩
  · split
    · exact ⟨_, rfl⟩
    · exact ⟨_, rfl⟩

theorem value_repairLocation : (s.repairLocation.cell h).value = (s.cell h).value := by
  rcases s.cell_repairLocation h with hc | ⟨-, -, hc⟩ <;> rw [hc]

theorem next_repairLocation : (s.repairLocation.cell h).next = (s.cell h).next := by
  rcases s.cell_repairLocation h with hc | ⟨-, -, hc⟩ <;> rw [hc]

end Response

end HeadersControl
