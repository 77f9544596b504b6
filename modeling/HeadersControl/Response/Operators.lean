import HeadersControl.Response.Handlers
import HeadersControl.Rules.Parse
import Mathlib.Logic.Relation

/-! # Operators on the visible response headers

On the sequence of visible entries the helper does what the operator says. An
entry that is hidden stays hidden: the only entry that the helper makes visible
without writing a value is the typed `Location` entry, which was visible before.
-/

namespace HeadersControl

open Segments Segments.Shape

/-- The operators on visible entries: an entry with an empty value is not visible. -/
def HeaderVal.operateVisible {η ο : Type} (hv : HeaderVal η ο) (value : Str)
    (es : List (Str × Str)) : List (Str × Str) :=
  if hv.opcode = .append ∧ value = [] then es else hv.operate value es

theorem operateVisible_of_ne {η ο : Type} {hv : HeaderVal η ο} (h : hv.opcode ≠ .append)
    (value : Str) (es : List (Str × Str)) :
    hv.operateVisible value es = hv.operate value es :=
  if_neg fun ha => h ha.1

/-- An exact rule whose hash is not 0, or a wildcard `clear`. -/
def HeaderVal.Regular {η ο : Type} (hv : HeaderVal η ο) : Prop :=
  hv.wildcard = false ∧ hv.hash ≠ 0 ∨ hv.wildcard = true ∧ hv.opcode = .clear

namespace Response

def LocationNamed (s : Response) : Prop :=
  ∀ h ∈ s.shape.slots (), s.ptr .location = some h → (s.cell h).value.head? = some 47 →
    s.shown h = true ∧ (s.cell h).key = str "Location"

def LocationShown (s : Response) : Prop :=
  ∀ h ∈ s.shape.slots (), s.ptr .location = some h → (s.cell h).value.head? = some 47 →
    s.shown h = true

variable {η ο : Type} {s s' : Response} {hv : HeaderVal η ο} {value : Str} {h : ℕ}

theorem locationHash_ne_zero : locationHash ≠ 0 := by decide

theorem LocationNamed.shown (hl : s.LocationNamed) : s.LocationShown :=
  fun h hh hp hv => (hl h hh hp hv).1

theorem shown_repairLocation (hl : s.LocationShown) (hh : h ∈ s.shape.slots ()) :
    s.repairLocation.shown h = s.shown h := by
  unfold Response.shown
  rcases s.cell_repairLocation h with hc | ⟨hp, hv, hc⟩
  · rw [hc]
  · have := hl h hh hp hv
    unfold Response.shown at this
    rw [hc, this]
    exact decide_eq_true locationHash_ne_zero

theorem visible_repairLocation (hl : s.LocationNamed) : s.repairLocation.visible = s.visible := by
  unfold visible
  rw [shape_repairLocation, List.filter_congr fun h hh => shown_repairLocation hl.shown hh]
  apply List.map_congr_left
  intro h hh
  rcases s.cell_repairLocation h with hc | ⟨hp, hv, hc⟩
  · rw [hc]
  · rw [hc, (hl h (List.mem_filter.mp hh).1 hp hv).2]

theorem visible_repairLocation_iff (hwf : s.shape.WellFormed ()) :
    s.repairLocation.visible = s.visible ↔ s.LocationNamed := by
  constructor
  · intro hvis h hh hp hpath
    obtain ⟨l₁, l₂, hslots⟩ := List.append_of_mem hh
    have hcell : ∀ x, x ≠ h → s.repairLocation.cell x = s.cell x := fun x hx => by
      rcases s.cell_repairLocation x with hc | ⟨hp', -, -⟩
      · exact hc
      · exact absurd (Option.some.inj (hp'.symm.trans hp)) hx
    have hself : s.repairLocation.cell h =
        { s.cell h with hash := locationHash, key := str "Location" } := by
      simp [repairLocation, hp, hpath]
    have hnot : h ∉ l₁ ∧ h ∉ l₂ := by
      have hn := hwf.nodup_slots
      rw [hslots, List.nodup_middle, List.nodup_cons, List.mem_append, not_or] at hn
      exact hn.1
    have hrest : ∀ l : List ℕ, h ∉ l →
        (l.filter s.repairLocation.shown).map (fun x =>
          ((s.repairLocation.cell x).key, (s.repairLocation.cell x).value)) =
        (l.filter s.shown).map fun x => ((s.cell x).key, (s.cell x).value) := fun l hl => by
      have hne : ∀ x ∈ l, x ≠ h := fun x hx => by
        rintro rfl
        exact hl hx
      rw [List.filter_congr (q := s.shown) fun x hx => by
        rw [Response.shown, hcell x (hne x hx), Response.shown]]
      apply List.map_congr_left
      intro x hx
      rw [hcell x (hne x (List.mem_filter.mp hx).1)]
    have hshown : s.repairLocation.shown h = true := by
      rw [Response.shown, hself]
      exact decide_eq_true locationHash_ne_zero
    rw [visible, visible, shape_repairLocation, hslots, List.filter_append, List.filter_append,
      List.map_append, List.map_append, hrest l₁ hnot.1, List.filter_cons_of_pos hshown,
      List.map_cons, hrest l₂ hnot.2, hself, List.append_cancel_left_eq] at hvis
    cases hs : s.shown h with
    | false =>
      rw [List.filter_cons_of_neg (by simp [hs])] at hvis
      exact absurd (congrArg List.length hvis) (by simp)
    | true =>
      rw [List.filter_cons_of_pos hs, List.map_cons] at hvis
      exact ⟨rfl, (Prod.mk.inj (List.cons.inj hvis).1).1.symm⟩
  · exact visible_repairLocation

theorem any_hits_iff : (s.shape.slots ()).any (s.hits hv) =
    s.visible.any fun e => hv.matchesName e.1 := by
  simp only [visible, List.any_map, List.any_filter]
  rfl

theorem find_hits : (s.shape.slots ()).find? (s.hits hv) =
    ((s.shape.slots ()).filter s.shown).find? fun h => hv.matchesName (s.cell h).key := by
  rw [List.find?_filter]
  congr 1
  funext h
  simp [hits]

theorem shown_mark {keep : Option ℕ} {e : TableElt} (hk : keep = some h → hv.hash ≠ 0) :
    (mark hv value keep h e).hash ≠ 0 ↔ keep = some h := by
  unfold mark
  split
  · rename_i heq
    exact ⟨fun _ => heq, hk⟩
  · rename_i hne
    simp [TableElt.hide, hne]

theorem hash_mark {keep : Option ℕ} {e : TableElt} (hhash : value ≠ [] → hv.hash ≠ 0)
    (hv₀ : (mark hv value keep h e).value ≠ []) : (mark hv value keep h e).hash ≠ 0 := by
  unfold mark at hv₀ ⊢
  split
  · rename_i hkeep
    rw [if_pos hkeep] at hv₀
    exact hhash hv₀
  · rename_i hkeep
    rw [if_neg hkeep] at hv₀
    exact absurd rfl hv₀

theorem shown_sweep {keep : Option ℕ} {out : Option OutField} (hk : keep ≠ none → hv.hash ≠ 0)
    (hh : h ∈ s.shape.slots ()) :
    (s.sweep hv value keep ((s.shape.slots ()).filter (s.hits hv)) out).shown h =
      (s.shown h && (!hv.matchesName (s.cell h).key || keep = some h)) := by
  cases hit : s.hits hv h with
  | true =>
    obtain ⟨hd, hm⟩ := hits_eq_true hit
    have hshown : s.shown h = true := decide_eq_true hd
    rw [Response.shown, cell_sweep_hit _ _ _ hh hit, hshown, hm, Bool.true_and, Bool.not_true,
      Bool.false_or, decide_eq_decide]
    exact shown_mark fun hkeep => hk (by simp [hkeep])
  | false =>
    rw [Response.shown, cell_sweep_miss hit, ← Response.shown]
    rcases hits_eq_false hit with hd | ⟨-, hm⟩
    · have hshown : s.shown h = false := decide_eq_false (not_not_intro hd)
      rw [hshown, Bool.false_and]
    · rw [hm, Bool.not_false, Bool.true_or, Bool.and_true]

theorem visible_sweep_none {out : Option OutField} :
    (s.sweep hv value none ((s.shape.slots ()).filter (s.hits hv)) out).visible =
      s.visible.filter fun e => !hv.matchesName e.1 := by
  have hshown : ∀ h ∈ s.shape.slots (), (s.sweep hv value none
      ((s.shape.slots ()).filter (s.hits hv)) out).shown h =
        (s.shown h && !hv.matchesName (s.cell h).key) := fun h hh => by
    rw [shown_sweep (by simp) hh]
    simp
  simp only [visible, shape_sweep]
  rw [List.filter_congr hshown, List.filter_map, List.filter_filter]
  simp only [Function.comp_def, Bool.and_comm]
  apply List.map_congr_left
  intro h hh
  rw [cell_sweep_miss]
  have := (List.mem_filter.mp hh).2
  simp only [Bool.and_eq_true, Bool.not_eq_true'] at this
  simp [hits, this]

theorem visible_sweep_keep {out : Option OutField} {a : ℕ} (hn : (s.shape.slots ()).Nodup)
    (hhash : hv.hash ≠ 0) (ha : (s.shape.slots ()).find? (s.hits hv) = some a) :
    (s.sweep hv value (some a) ((s.shape.slots ()).filter (s.hits hv)) out).visible =
      keepFirst hv.matchesName value s.visible := by
  have hmem := List.mem_of_find?_eq_some ha
  have hit : s.hits hv a = true := List.find?_some ha
  have hshown : ∀ h ∈ s.shape.slots (), (s.sweep hv value (some a)
      ((s.shape.slots ()).filter (s.hits hv)) out).shown h =
        (s.shown h && (!hv.matchesName (s.cell h).key || h = a)) := fun h hh => by
    rw [shown_sweep (fun _ => hhash) hh]
    simp only [Option.some.injEq, eq_comm]
  have hcell : ∀ h, hv.matchesName (s.cell h).key = false → (s.sweep hv value (some a)
      ((s.shape.slots ()).filter (s.hits hv)) out).cell h = s.cell h := fun h hm =>
    cell_sweep_miss (by simp [hits, hm])
  have hcella := cell_sweep_hit value out (some a) hmem hit
  rw [find_hits] at ha
  rw [visible, visible, ← map_filter_eq_keepFirst (hn.filter _) ha hcell
    (by rw [hcella]; simp [mark, TableElt.assign]), shape_sweep, List.filter_congr hshown,
    List.filter_filter]
  simp only [Bool.and_comm]

theorem visible_created {sh : Shape Unit} {a : ℕ}
    (hslots : sh.slots () = s.shape.slots () ++ [a]) (ha : a ∉ s.shape.slots ())
    (hhash : hv.hash ≠ 0) : ((s.setShape sh).setCell a (newElt hv value)).visible =
      s.visible ++ if value = [] then [] else [(hv.key, value)] := by
  have hne : ∀ h ∈ s.shape.slots (), h ≠ a := fun h hh => by
    rintro rfl
    exact ha hh
  have hold : ∀ h ∈ s.shape.slots (),
      ((s.setShape sh).setCell a (newElt hv value)).shown h = s.shown h := fun h hh => by
    simp [Response.shown, hne h hh]
  have hnew : ((s.setShape sh).setCell a (newElt hv value)).shown a = decide (value ≠ []) := by
    by_cases hv₀ : value = [] <;> simp [Response.shown, newElt, hv₀]
    exact hhash
  simp only [visible, shape_setCell, shape_setShape, hslots, List.filter_append, List.map_append]
  rw [List.filter_congr hold]
  congr 1
  · apply List.map_congr_left
    intro h hh
    simp [hne h (List.mem_filter.mp hh).1]
  · rw [List.filter_singleton, hnew]
    by_cases hv₀ : value = []
    · simp [hv₀]
    · simp [hv₀, newElt]

theorem visible_store {out : Option OutField} : (s.store out h).visible = s.visible := by
  cases out <;> rfl

theorem Outcome.visible_eq {out : Option OutField} {noCreate : Bool} (hreg : hv.Regular)
    (hclear : hv.opcode = .clear → value = []) (hpass : hv.opcode ≠ .pass)
    (hn : (s.shape.slots ()).Nodup) (ho : Outcome hv value out noCreate s s') :
    s'.visible = hv.operateVisible value s.visible := by
  have hnohit : (s.shape.slots ()).any (s.hits hv) = false →
      ∀ e ∈ s.visible, hv.matchesName e.1 = false := fun hno e he => by
    rw [any_hits_iff, List.any_eq_false] at hno
    simpa using hno e he
  cases ho with
  | unchanged hu =>
    rcases hu with ⟨hadd, hit⟩ | ⟨happ, hno, hstop⟩
    · rw [any_hits_iff] at hit
      simp [HeaderVal.operateVisible, HeaderVal.operate, hadd, hit]
    · rw [operateVisible_of_ne happ, operate_of_no_hit (hnohit hno), if_neg]
      rintro (happ' | ⟨hne, hop⟩)
      · exact happ happ'
      · rcases hstop with hre | ⟨-, hnil⟩
        · rcases hop with hop | hop <;> rw [hop] at hre <;> cases hre
        · exact hne hnil
  | swept hadd happ hit =>
    rw [operateVisible_of_ne happ]
    by_cases hv₀ : value = []
    · rw [if_pos hv₀, visible_sweep_none]
      cases hop : hv.opcode <;> simp_all [HeaderVal.operate]
    · have hhash : hv.hash ≠ 0 := by
        rcases hreg with ⟨-, hhash⟩ | ⟨-, hop⟩
        · exact hhash
        · exact absurd (hclear hop) hv₀
      cases hfind : (s.shape.slots ()).find? (s.hits hv) with
      | none =>
        obtain ⟨h, hh, hhit⟩ := List.any_eq_true.mp hit
        exact absurd hhit (by simpa using List.find?_eq_none.mp hfind h hh)
      | some a =>
        rw [if_neg hv₀, visible_sweep_keep hn hhash hfind]
        rw [any_hits_iff] at hit
        cases hop : hv.opcode <;> simp_all [HeaderVal.operate]
  | @created a sh hc _ _ hslots ha =>
    have hhash : hv.hash ≠ 0 := by
      rcases hreg with ⟨-, hhash⟩ | ⟨hw, hop⟩
      · exact hhash
      · rcases hc with happ | ⟨-, hstop⟩
        · rw [hop] at happ
          cases happ
        · exact absurd (Or.inr ⟨by simp [hw], hclear hop⟩) hstop
    rw [visible_store, visible_created hslots ha hhash]
    rcases hc with happ | ⟨hno, hstop⟩
    · by_cases hv₀ : value = [] <;> simp [HeaderVal.operateVisible, HeaderVal.operate, happ, hv₀]
    · rw [HeaderVal.operateVisible, operate_of_no_hit (hnohit hno)]
      cases hop : hv.opcode <;> by_cases hv₀ : value = [] <;> simp_all [Stops]

structure Buried (s s' : Response) : Prop where
  slots : s.shape.slots () ⊆ s'.shape.slots ()
  dead : ∀ h ∈ s.shape.slots (), s.shown h = false → s'.shown h = false

theorem Buried.refl (s : Response) : s.Buried s := ⟨fun _ hh => hh, fun _ _ hd => hd⟩

theorem Buried.trans {s₁ s₂ s₃ : Response} (h₁ : s₁.Buried s₂) (h₂ : s₂.Buried s₃) :
    s₁.Buried s₃ :=
  ⟨fun _ hh => h₂.slots (h₁.slots hh), fun h hh hd => h₂.dead h (h₁.slots hh) (h₁.dead h hh hd)⟩

theorem buried_repairLocation (hl : s.LocationShown) : s.Buried s.repairLocation :=
  ⟨by simp, fun _ hh hd => (shown_repairLocation hl hh).trans hd⟩

theorem Failed.buried (hf : s.Failed s') : s.Buried s' :=
  ⟨hf.slots.subset, fun h hh hd => by
    rw [← hd]
    unfold Response.shown
    rw [hf.same h hh]⟩

theorem Outcome.buried {out : Option OutField} {noCreate : Bool}
    (ho : Outcome hv value out noCreate s s') : s.Buried s' := by
  have hmiss : ∀ h, s.shown h = false → s.hits hv h = false := fun h hd => by simp [hits, hd]
  constructor
  · intro h hh
    cases ho with
    | unchanged => exact hh
    | swept => exact hh
    | created _ _ _ hslots => simp [hslots, hh]
  · intro h hh hd
    rw [← hd]
    unfold Response.shown
    rw [(ho.untouched hh (hmiss h hd)).2]

theorem Outcome.locationShown {noCreate : Bool} (hreg : hv.Regular)
    (hclear : hv.opcode = .clear → value = []) (hl : s.LocationShown)
    (ho : Outcome hv value none noCreate s s') : s'.LocationShown := by
  have hhash : value ≠ [] → hv.hash ≠ 0 := fun hv₀ => by
    rcases hreg with ⟨-, hhash⟩ | ⟨-, hop⟩
    · exact hhash
    · exact absurd (hclear hop) hv₀
  cases ho with
  | unchanged => exact hl
  | swept =>
    intro h hh hp hpath
    rw [shape_sweep] at hh
    cases hit : s.hits hv h with
    | false =>
      unfold Response.shown
      rw [cell_sweep_miss hit] at hpath ⊢
      exact hl h hh hp hpath
    | true =>
      unfold Response.shown
      rw [cell_sweep_hit _ _ _ hh hit] at hpath ⊢
      exact decide_eq_true (hash_mark hhash fun hnil => by simp [hnil] at hpath)
  | @created a sh _ _ _ hslots ha =>
    intro h hh hp hpath
    by_cases hha : h = a
    · subst hha
      have hv₀ : value ≠ [] := by
        rintro rfl
        simp [newElt] at hpath
      simpa [Response.shown, newElt, hv₀] using hhash hv₀
    · have hold : h ∈ s.shape.slots () := by simpa [hslots, hha] using hh
      simp only [store_none, cell_setCell, cell_setShape, Function.update_of_ne hha] at hpath
      simpa [Response.shown, hha] using hl h hold hp hpath

theorem locationShown_repairLocation (hl : s.LocationShown) : s.repairLocation.LocationShown := by
  intro h hh hp hpath
  rw [shape_repairLocation] at hh
  rw [ptr_repairLocation] at hp
  rw [value_repairLocation] at hpath
  rw [shown_repairLocation hl hh]
  exact hl h hh hp hpath

theorem Outcome.wellFormed {out : Option OutField} {noCreate : Bool}
    (hwf : s.shape.WellFormed ()) (ho : Outcome hv value out noCreate s s') :
    s'.shape.WellFormed () := by
  cases ho with
  | unchanged => exact hwf
  | swept => exact hwf
  | created _ hwf' => simpa using hwf'

def CustomStep (cv : ComplexValue → Response → Option Str) (s s' : Response) : Prop :=
  ∃ (hv : OutVal) (rc : Rc), hv.Parsed setHandlersOut ∧ hv.handler = .setHeader ∧ hv.Regular ∧
    execOutputHeader cv hv s = .ok (rc, s') ∧ rc ≠ .error

theorem CustomStep.preserves {cv : ComplexValue → Response → Option Str}
    (hs : CustomStep cv s s') (hwf : s.shape.WellFormed ()) (hl : s.LocationShown) :
    s'.shape.WellFormed () ∧ s'.LocationShown ∧ s.Buried s' := by
  obtain ⟨hv, rc, hparsed, hhandler, hreg, he, hrc⟩ := hs
  rcases execHeader_inv he with ⟨rfl, -⟩ | ⟨-, value, hvalue, he⟩
  · exact ⟨hwf, hl, .refl s'⟩
  · have hclear : hv.opcode = .clear → value.dropLast = [] := fun hop => by
      rw [hparsed.clear hop] at hvalue
      obtain rfl := Option.some.inj hvalue
      rfl
    simp only [handleOut, hhandler, setHeader] at he
    rcases setHeaderHelper_cases hv value.dropLast none false hwf with
      ⟨s₁, he₁, -, -⟩ | ⟨s₁, he₁, ho⟩
    · obtain ⟨rfl, -⟩ := Prod.mk.inj (Except.ok.inj (he₁.symm.trans he))
      exact absurd rfl hrc
    · obtain ⟨rfl, rfl⟩ := Prod.mk.inj (Except.ok.inj (he₁.symm.trans he))
      exact ⟨ho.wellFormed (by simpa using hwf),
        ho.locationShown hreg hclear (locationShown_repairLocation hl),
        (buried_repairLocation hl).trans ho.buried⟩

/--
On every well-formed list the helper does to the sequence of visible entries what the operator
says, keeps the other visible entries, and makes no hidden entry visible. No run of custom rules
makes a hidden entry visible again.
-/
theorem response_operators (s : Response) (hwf : s.shape.WellFormed ()) (hl : s.LocationNamed) :
    (∀ (hv : OutVal) (value : Str), hv.Regular → (hv.opcode = .clear → value = []) →
      hv.opcode ≠ .pass →
      ∃ rc s', setHeaderHelper hv value none false s = .ok (rc, s') ∧ s'.shape.WellFormed () ∧
        (s.shape.pool.Reliable → rc = .ok) ∧
        (rc = .ok → s'.visible = hv.operateVisible value s.visible ∧
          s'.visible.filter (fun e => !hv.matchesName e.1) =
            s.visible.filter fun e => !hv.matchesName e.1) ∧
        s.Buried s') ∧
    ∀ (cv : ComplexValue → Response → Option Str) (s' : Response),
      Relation.ReflTransGen (CustomStep cv) s s' → s.Buried s' := by
  constructor
  · intro hv value hreg hclear hpass
    rcases setHeaderHelper_cases hv value none false hwf with ⟨s', he, hf, hrel⟩ | ⟨s', he, ho⟩
    · exact ⟨.error, s', he, hf.wellFormed, fun hr => absurd hr hrel, nofun,
        (buried_repairLocation hl.shown).trans hf.buried⟩
    · have hvis : s'.visible = hv.operateVisible value s.visible := by
        rw [ho.visible_eq hreg hclear hpass (by simpa using hwf.nodup_slots),
          visible_repairLocation hl]
      refine ⟨.ok, s', he, ho.wellFormed (by simpa using hwf), fun _ => rfl, fun _ => ⟨hvis, ?_⟩,
        (buried_repairLocation hl.shown).trans ho.buried⟩
      rw [hvis, HeaderVal.operateVisible]
      split
      · rfl
      · exact operate_frame _
  · intro cv s' hrun
    have hall : s'.shape.WellFormed () ∧ s'.LocationShown ∧ s.Buried s' := by
      induction hrun with
      | refl => exact ⟨hwf, hl.shown, .refl s⟩
      | tail _ hstep ih =>
        obtain ⟨hwf', hl', hb⟩ := ih
        obtain ⟨hwf'', hl'', hb'⟩ := hstep.preserves hwf' hl'
        exact ⟨hwf'', hl'', hb.trans hb'⟩
    exact hall.2.2

/-- `set A 9` on a list with a hidden entry and two visible ones of that name. -/
theorem response_operators_set : ∃ s' : Response,
    setHeaderHelper (⟨none, 1, str "A", .setHeader, none, .set, none, false, false, 0, false⟩ :
      OutVal) (str "9") none false
      (.ofElts [⟨0, str "A", [], [], none⟩, ⟨1, str "a", str "1", [], none⟩,
        ⟨1, str "B", str "2", [], none⟩, ⟨1, str "A", str "3", [], none⟩] 4 fun _ => none) =
      .ok (.ok, s') ∧ s'.visible = [(str "a", str "9"), (str "B", str "2")] := by
  obtain ⟨rc, s', he, -, hrc, hop, -⟩ := (response_operators
    (.ofElts [⟨0, str "A", [], [], none⟩, ⟨1, str "a", str "1", [], none⟩,
      ⟨1, str "B", str "2", [], none⟩, ⟨1, str "A", str "3", [], none⟩] 4 fun _ => none)
    (single_wellFormed (by decide) (by decide)) (fun _ _ hp => by cases hp)).1
    (⟨none, 1, str "A", .setHeader, none, .set, none, false, false, 0, false⟩ : OutVal)
    (str "9") (Or.inl ⟨rfl, by decide⟩) (by decide) (by decide)
  obtain rfl := hrc fun _ => rfl
  exact ⟨s', he, by rw [(hop rfl).1]; decide⟩

end Response

end HeadersControl
