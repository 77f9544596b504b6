import HeadersControl.Request.Propagation

/-! # Operators on the request header list

The opcodes as functions on the sequence of entries. For every layout of the list
in parts the helper does to the entries what the operator says, and moves or
changes no other entry.
-/

namespace HeadersControl

open Segments Segments.Shape

variable {ρ η ο : Type} [DecidableEq ρ] {r : ρ} {hv : HeaderVal η ο} {value : Str}
  {out : OutRef} {fr fr' : Frame ρ}

omit [DecidableEq ρ] in
theorem hits_eq (h : hv.wildcard = true → value = []) (name : Str) :
    hv.hits value name = hv.matchesName name := by
  unfold HeaderVal.hits
  cases hw : hv.wildcard with
  | false => simp
  | true => simp [h hw]

omit [DecidableEq ρ] in
theorem hit_iff_any {w : World ρ} (h : hv.wildcard = true → value = []) :
    hv.Hit value w r ↔ ((w.entries r).any fun e => hv.matchesName e.1) = true := by
  simp [HeaderVal.Hit, World.entries, hits_eq h]

omit [DecidableEq ρ] in
theorem no_hit_iff {w : World ρ} (h : hv.wildcard = true → value = []) :
    ¬ hv.Hit value w r ↔ ∀ e ∈ w.entries r, hv.matchesName e.1 = false := by
  rw [hit_iff_any h, Bool.not_eq_true, List.any_eq_false]
  simp

omit [DecidableEq ρ] in
theorem Kept.entries_filter {w : World ρ} {fr : Frame ρ} {sh : Shape ρ} {cell : ℕ → TableElt}
    (h : hv.wildcard = true → value = [])
    (hk : Kept r w.shape w.cell (fun s => !hv.hits value (w.cell s).key) sh cell) :
    (fr.setList sh cell).w.entries r = (w.entries r).filter fun e => !hv.matchesName e.1 := by
  simp only [hits_eq h] at hk
  simp only [World.entries, Frame.shape_setList, Frame.cell_setList, hk.slots, List.filter_map]
  apply List.map_congr_left
  intro s hs
  rw [hk.same s (List.mem_filter.mp hs).2]

theorem created_entries (hv : HeaderVal η ο) (value : Str) (out : OutRef) {s : ℕ} {sh : Shape ρ}
    (hwf : sh.WellFormed r) (hslots : sh.slots r = fr.w.shape.slots r ++ [s])
    (hs : s ∉ fr.w.shape.slots r) :
    (((fr.setList sh (Function.update fr.w.cell s (newElt hv value))).store r out
      (some s)).propagate r out).w.entries r = fr.w.entries r ++ [(hv.key, value)] := by
  have hkeep : (fr.w.shape.slots r).map (fun x =>
      ((Function.update fr.w.cell s (newElt hv value) x).key,
        (Function.update fr.w.cell s (newElt hv value) x).value)) = fr.w.entries r :=
    List.map_congr_left fun x hx => by
      rw [Function.update_of_ne (by rintro rfl; exact hs hx)]
  rw [World.entries, (Frame.keep_propagate (by simpa using hwf)).2]
  simp only [Frame.cell_propagate, Frame.cell_store, Frame.cell_setList, Frame.shape_store,
    Frame.shape_setList, hslots, List.map_append, hkeep]
  simp [newElt]

theorem Outcome.entries_operate (hwild : hv.wildcard = true → value = [])
    (hclear : hv.opcode = .clear → value = []) (hpass : hv.opcode ≠ .pass)
    (hn : (fr.w.shape.slots r).Nodup) (ho : Outcome r hv value out fr fr') :
    fr'.w.entries r = hv.operate value (fr.w.entries r) := by
  cases ho with
  | unchanged hu =>
    rcases hu with ⟨hadd, hit⟩ | ⟨happ, hno, hstop⟩
    · rw [hit_iff_any hwild] at hit
      simp [HeaderVal.operate, hadd, hit]
    · rw [operate_of_no_hit ((no_hit_iff hwild).mp hno), if_neg]
      rintro (happ' | ⟨hne, hop⟩)
      · exact happ happ'
      · rcases hstop with hnil | hre
        · exact hne hnil
        · rcases hop with hop | hop <;> rw [hop] at hre <;> cases hre
  | cleared hadd happ hnil hit hk =>
    rw [hk.entries_filter hwild]
    cases hop : hv.opcode <;> simp_all [HeaderVal.operate]
  | @kept a sh cell hadd happ hnil hfind hk =>
    have hhit : ((fr.w.entries r).any fun e => hv.matchesName e.1) = true :=
      (hit_iff_any hwild).mp
        ⟨a, List.mem_of_find?_eq_some hfind, by simpa using List.find?_some hfind⟩
    simp only [hits_eq hwild] at hk hfind
    have ha := List.find?_some hfind
    have hcell : ∀ s, hv.matchesName (fr.w.cell s).key = false → cell s = fr.w.cell s := by
      intro s hs
      rw [hk.same s (by simp [hs]), Function.update_of_ne]
      rintro rfl
      rw [hs] at ha
      cases ha
    have hca : (cell a).key = (fr.w.cell a).key ∧ (cell a).value = value := by
      rw [hk.same a (by simp)]
      simp
    simp only [World.entries, Frame.shape_setList, Frame.cell_setList, hk.slots]
    rw [map_filter_eq_keepFirst hn hfind hcell hca]
    cases hop : hv.opcode <;> simp_all [HeaderVal.operate, World.entries]
  | @created s sh hc hwf hg hslots hs =>
    rw [created_entries hv value out hwf hslots hs]
    rcases hc with happ | ⟨hno, hnil, hre⟩
    · simp [HeaderVal.operate, happ]
    · rw [operate_of_no_hit ((no_hit_iff hwild).mp hno), if_pos]
      cases hop : hv.opcode <;> simp_all

theorem Outcome.entries_eq (h : hv.wildcard = true → hv.opcode = .clear)
    (hclear : hv.opcode = .clear → value = []) (hpass : hv.opcode ≠ .pass)
    (hn : (fr.w.shape.slots r).Nodup) (ho : Outcome r hv value out fr fr') :
    fr'.w.entries r = hv.operate value (fr.w.entries r) :=
  ho.entries_operate (fun hw => hclear (h hw)) hclear hpass hn

/--
For every well-formed list the helper terminates without a fault and leaves a well-formed list.
It returns `NGX_OK` unless an allocation fails, and then it has done to the sequence of entries
what the operator says; entries of other names keep their value and order.
-/
theorem request_operators (w : World ρ) (r : ρ) (hv : HeaderVal η ο) (value : Str)
    (hwf : w.shape.WellFormed r) (hwild : hv.wildcard = true → hv.opcode = .clear)
    (hclear : hv.opcode = .clear → value = []) (hpass : hv.opcode ≠ .pass) :
    ∃ rc fr, setHeaderHelper r hv value .null ⟨w, none⟩ = .ok (rc, fr) ∧
      fr.w.shape.WellFormed r ∧ (w.shape.pool.Reliable → rc = .ok) ∧
      (rc = .ok → fr.w.entries r = hv.operate value (w.entries r) ∧
        (fr.w.entries r).filter (fun e => !hv.matchesName e.1) =
          (w.entries r).filter fun e => !hv.matchesName e.1) := by
  rcases setHeaderHelper_cases hv value .null ⟨w, none⟩ hwf with
    ⟨fr, he, hwf', hf⟩ | ⟨fr, he, ho⟩
  · exact ⟨.error, fr, he, hwf', fun hr => absurd hr hf, fun hr => by cases hr⟩
  · have hentries := ho.entries_eq hwild hclear hpass hwf.nodup_slots
    exact ⟨.ok, fr, he, ho.wellFormed hwf, fun _ => rfl, fun _ => ⟨hentries, by
      rw [hentries, operate_frame]⟩⟩

/-- `set B 9` on a list with two entries of that name. -/
theorem request_operators_set : ∃ fr,
    setHeaderHelper () (⟨none, 0, str "B", (), (none : Option Unit), .set, none, false, false, 0,
      false⟩ : HeaderVal Unit Unit) (str "9") .null
      ⟨.ofEntries [(str "b", str "1"), (str "A", str "2"), (str "B", str "3")] 4 fun _ => none,
        none⟩ = .ok (.ok, fr) ∧
      fr.w.entries () = [(str "b", str "9"), (str "A", str "2")] := by
  obtain ⟨rc, fr, he, -, hrc, hop⟩ := request_operators
    (.ofEntries [(str "b", str "1"), (str "A", str "2"), (str "B", str "3")] 4 fun _ => none) ()
    (⟨none, 0, str "B", (), (none : Option Unit), .set, none, false, false, 0, false⟩ :
      HeaderVal Unit Unit) (str "9")
    (single_wellFormed (by decide) (by decide)) (by decide) (by decide) (by decide)
  obtain rfl := hrc fun _ => rfl
  exact ⟨fr, he, by rw [(hop rfl).1]; decide⟩

end HeadersControl
