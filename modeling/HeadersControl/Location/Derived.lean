import HeadersControl.Location.Requests
import HeadersControl.Request.NoOps

/-! # Derived fields over whole runs

The derived fields of a request agree with the headers that they are derived from
as long as the rules on these headers are `set` and `clear`: `add` and `rewrite`
change the fields also where they leave the header alone.
-/

namespace HeadersControl

open Segments Runs

def RequestView.value (v : RequestView) (f : InField) : Str :=
  ((v.entries.find? fun e => sameName e.1 f.name).map Prod.snd).getD []

/-- The derived fields are what nginx derives from the headers as they are. -/
def RequestView.InSync (v : RequestView) : Prop := ∀ f, v.derived.Reflects f (v.value f)

def InField.Plain (f : InField) : Prop :=
  f.handler = .setBuiltinHeader ∨ f.handler = .setBuiltinMultiHeader

instance (f : InField) : Decidable f.Plain := inferInstanceAs (Decidable (_ ∨ _))

/-- A rule on a header that fields are derived from is `set`, `clear` or `pass`. -/
def HeaderVal.Definite (hv : InVal) : Prop :=
  ∀ f, hv.offset = some f → ¬ f.Plain →
    hv.opcode = .set ∨ hv.opcode = .clear ∨ hv.opcode = .pass

variable {hv : InVal} {value : Str} {f g : InField} {d d' : Derived} {v v' : RequestView}
  {es : List (Str × Str)}

theorem filter_writeFirst (hit : Str → Bool) (value : Str) (es : List (Str × Str)) :
    (writeFirst hit value es).filter (fun e => !hit e.1) = es.filter fun e => !hit e.1 := by
  induction es with
  | nil => rfl
  | cons e es ih => cases he : hit e.1 <;> simp [writeFirst, he, ih]

theorem edit_frame (hv : InVal) (value : Str) (es : List (Str × Str)) :
    (hv.edit value es).filter (fun e => !hv.matchesName e.1) =
      es.filter fun e => !hv.matchesName e.1 := by
  unfold HeaderVal.edit
  split_ifs
  · rfl
  · simp [HeaderVal.matchesName_self]
  · exact filter_writeFirst _ _ _
  · exact operate_frame es

theorem value_frame (h : hv.matchesName f.name = false)
    (hes : v'.entries.filter (fun e => !hv.matchesName e.1) =
      v.entries.filter fun e => !hv.matchesName e.1) : v'.value f = v.value f := by
  have hfind : ∀ es : List (Str × Str), (es.find? fun e => sameName e.1 f.name) =
      (es.filter fun e => !hv.matchesName e.1).find? fun e => sameName e.1 f.name := by
    intro es
    rw [List.find?_filter]
    apply List.find?_congr
    intro e _
    cases hs : sameName e.1 f.name with
    | false => simp
    | true => simp [matchesName_congr hs, h]
  rw [RequestView.value, hfind, hes, ← hfind, RequestView.value]

theorem find_writeFirst (hit : Str → Bool) (value : Str)
    (h : (es.any fun e => hit e.1) = true) :
    ((writeFirst hit value es).find? fun e => hit e.1).map Prod.snd = some value := by
  induction es with
  | nil => cases h
  | cons e es ih =>
    cases he : hit e.1 with
    | true => simp [writeFirst, he]
    | false => simpa [writeFirst, he] using ih (by simpa [he] using h)

theorem value_edit (hmatch : ∀ name, hv.matchesName name = sameName name f.name)
    (hw : hv.wildcard = false) (hmerges : hv.merges = false)
    (hop : hv.opcode = .set ∨ hv.opcode = .clear) (hclear : hv.opcode = .clear → value = []) :
    (((hv.edit value es).find? fun e => sameName e.1 f.name).map Prod.snd).getD [] = value := by
  have hgone : (es.filter fun e => !sameName e.1 f.name).find? (fun e => sameName e.1 f.name) =
      none := by
    rw [List.find?_eq_none]
    intro e he
    simpa using (List.mem_filter.mp he).2
  unfold HeaderVal.edit
  rw [if_neg (by simp [hw])]
  by_cases hv₀ : value = []
  · rw [if_neg (fun hc => hc.2.2.1 hv₀)]
    rcases hop with hset | hcl
    · simp [HeaderVal.operate, hset, hv₀, hmatch, hgone]
    · simp [HeaderVal.operate, hcl, hv₀, hmatch, hgone]
  · have hset : hv.opcode = .set := hop.resolve_right fun hcl => hv₀ (hclear hcl)
    have hself : sameName hv.key f.name = true := by rw [← hmatch, hv.matchesName_self]
    have hfun : hv.matchesName = fun name => sameName name f.name := funext hmatch
    cases hany : es.any fun e => hv.matchesName e.1 with
    | true =>
      rw [if_pos ⟨hmerges, by simp [hset], hv₀, rfl⟩]
      rw [hfun] at hany ⊢
      rw [find_writeFirst (fun name => sameName name f.name) value hany, Option.getD_some]
    | false =>
      have hnone : (es.find? fun e => sameName e.1 f.name) = none := by
        rw [List.find?_eq_none]
        intro e he
        rw [← hmatch]
        exact List.any_eq_false.mp hany e he
      simp [HeaderVal.operate, hset, hv₀, hany, List.find?_append, hnone, hself]

theorem setHostHeader_iff : f.handler = .setHostHeader ↔ f = .host := by cases f <;> decide

theorem setConnectionHeader_iff : f.handler = .setConnectionHeader ↔ f = .connection := by
  cases f <;> decide

theorem setUserAgentHeader_iff : f.handler = .setUserAgentHeader ↔ f = .userAgent := by
  cases f <;> decide

theorem setContentLengthHeader_iff : f.handler = .setContentLengthHeader ↔ f = .contentLength := by
  cases f <;> decide

theorem derive_reflects (h : f.derive value d = some d') : d'.Reflects f value := by
  unfold InField.derive at h
  unfold Derived.Reflects
  cases hf : f.handler with
  | setHostHeader =>
    simp only [hf] at h
    split_ifs at h with hv₀
    · cases h
      exact Or.inl ⟨hv₀, rfl⟩
    · obtain ⟨host, hhost, rfl⟩ := Option.map_eq_some_iff.mp h
      have hok : (validateHost value ⟨[], 0, 0, fun _ => false, 0, by simp⟩ false).1 = .ok ∧
          (validateHost value ⟨[], 0, 0, fun _ => false, 0, by simp⟩ false).2.1 = host :=
        (validateHost_of_hostOf _ hhost).resolve_left fun hc => hc.2 fun _ => rfl
      obtain ⟨host', hform⟩ := validateHost_accepts_iff.mp (by rw [hok.1]; simp)
      exact Or.inr ⟨host', hform, by rw [← hok.2, (validateHost_of_form _ _ hform).2.2 hok.1]⟩
  | setContentLengthHeader =>
    simp only [hf] at h
    split_ifs at h with hv₀
    · cases h
      exact Or.inl ⟨hv₀, rfl⟩
    · obtain ⟨n, hn, rfl⟩ := Option.map_eq_some_iff.mp h
      exact Or.inr ⟨n, hn, rfl⟩
  | setUserAgentHeader =>
    simp only [hf, Option.some.injEq] at h
    rw [← h]
  | setConnectionHeader =>
    simp only [hf, Option.some.injEq] at h
    subst h
    exact ⟨rfl, fun hc => by simp [hc]⟩
  | _ => trivial

theorem derive_other (hne : g ≠ f) (h : g.derive value d = some d') (x : Str)
    (hr : d.Reflects f x) : d'.Reflects f x := by
  unfold InField.derive at h
  unfold Derived.Reflects at hr ⊢
  cases hg : g.handler with
  | setHostHeader =>
    have hgf : f.handler ≠ .setHostHeader := fun hf =>
      hne ((setHostHeader_iff.mp hg).trans (setHostHeader_iff.mp hf).symm)
    simp only [hg] at h
    split_ifs at h
    · cases h
      cases hf : f.handler <;> simp_all
    · obtain ⟨host, -, rfl⟩ := Option.map_eq_some_iff.mp h
      cases hf : f.handler <;> simp_all
  | setContentLengthHeader =>
    have hgf : f.handler ≠ .setContentLengthHeader := fun hf =>
      hne ((setContentLengthHeader_iff.mp hg).trans (setContentLengthHeader_iff.mp hf).symm)
    simp only [hg] at h
    split_ifs at h
    · cases h
      cases hf : f.handler <;> simp_all
    · obtain ⟨n, -, rfl⟩ := Option.map_eq_some_iff.mp h
      cases hf : f.handler <;> simp_all
  | setUserAgentHeader =>
    have hgf : f.handler ≠ .setUserAgentHeader := fun hf =>
      hne ((setUserAgentHeader_iff.mp hg).trans (setUserAgentHeader_iff.mp hf).symm)
    simp only [hg, Option.some.injEq] at h
    subst h
    cases hf : f.handler <;> simp_all
  | setConnectionHeader =>
    have hgf : f.handler ≠ .setConnectionHeader := fun hf =>
      hne ((setConnectionHeader_iff.mp hg).trans (setConnectionHeader_iff.mp hf).symm)
    simp only [hg, Option.some.injEq] at h
    subst h
    cases hf : f.handler <;> simp_all
  | _ =>
    simp only [hg, Option.some.injEq] at h
    exact h ▸ hr

theorem reflects_of_plain (h : f.Plain) (d : Derived) (x : Str) : d.Reflects f x := by
  unfold Derived.Reflects
  rcases h with h | h <;> rw [h] <;> trivial

/-- A definite rule that acts keeps the derived fields in sync. -/
theorem effect_inSync (hp : hv.Parsed setHandlersIn) (ht : hv.Tame) (hd : hv.Definite)
    (hclear : hv.opcode = .clear → value = []) (hpass : hv.opcode ≠ .pass)
    (he : hv.effect value v = .ok (.ok, v')) (h : v.InSync) : v'.InSync := by
  intro f
  by_cases hplain : f.Plain
  · exact reflects_of_plain hplain _ _
  have hmulti : f.handler ≠ .setBuiltinMultiHeader := fun hm => hplain (Or.inr hm)
  -- the fields that the rule does not match keep their value
  have hother : hv.matchesName f.name = false → v'.derived = v.derived →
      v'.entries = hv.edit value v.entries → v'.derived.Reflects f (v'.value f) := by
    intro hmiss hder hes
    have hval : v'.value f = v.value f := value_frame hmiss (by rw [hes, edit_frame])
    rw [hder, hval]
    exact h f
  rcases hp.field_or_custom with ⟨g, hname, hhandler, hoff, -⟩ | ⟨hname, -⟩
  · have hw := hp.exact_of_field hname
    have hmatch : ∀ name, hv.matchesName name = sameName name g.name := fun name => by
      rw [matchesName_exact hw, sameName_comm, sameName_congr hname, sameName_comm]
    have hne : f ≠ g → hv.matchesName f.name = false := fun hfg => by
      rw [hmatch, sameName_ne hfg]
    simp only [HeaderVal.effect, hoff] at he
    split_ifs at he with hgm hbad hunset
    · cases he
      exact h f
    · cases he
      exact hother (hne fun hfg => hmulti (hfg ▸ hgm)) rfl rfl
    · cases hder : g.derive value v.derived with
      | none => simp [hder] at he
      | some d' =>
        rw [hder] at he
        cases he
        by_cases hfg : f = g
        · subst hfg
          have hmerges : hv.merges = false := by
            have hset : f.handler ≠ .setHeader := by cases f <;> decide
            simp [HeaderVal.merges, hhandler, hset, hmulti]
          have hop : hv.opcode = .set ∨ hv.opcode = .clear := by
            rcases hd f hoff hplain with hop | hop | hop
            · exact Or.inl hop
            · exact Or.inr hop
            · exact absurd hop hpass
          rw [RequestView.value, value_edit hmatch hw hmerges hop hclear]
          exact derive_reflects hder
        · have hval : (RequestView.mk (hv.edit value v.entries) d' v.badRequest).value f =
              v.value f := value_frame (hne hfg) (edit_frame hv value v.entries)
          rw [hval]
          exact derive_other (Ne.symm hfg) hder _ (h f)
  · rw [HeaderVal.effect, hp.offset_custom hname] at he
    cases he
    refine hother ?_ rfl rfl
    cases hw : hv.wildcard with
    | false => rw [matchesName_exact hw, sameName_comm, hname f]
    | true => exact ht hw f hmulti

section Cycle

variable {ι ρ : Type} [DecidableEq ι] [DecidableEq ρ] {compiles : Str → Bool} {intTLen : ℕ}
  {parent : ι → Option ι} {c₀ c : Cycle ι InHandler InField OutHandler OutField}
  {merged : List ι} {i : ι} {path : List ι}

/--
In a location with tame and definite rules, a request whose pointers and derived fields are in
step with its headers is in that state again wherever the loop returns, with memory to spare: behind
the last rule, and at a rule that cannot be evaluated or has its value rejected.
-/
theorem derived_in_sync (hl : Configured compiles intTLen parent c₀ c merged i path)
    (ht : ∀ h ∈ c₀.input.chain path, h.Tame ∧ h.Definite)
    (cv : ComplexValue → World ρ → Option Str) (r : ρ) (w w' : World ρ) (rc : Rc) (hw : w.InStep r)
    (hrel : w.shape.pool.Reliable) (hsync : (w.view r).InSync)
    (he : runRules intTLen (execInputHeader cv r) (c.input.rules i) w = .ok (rc, w')) :
    w'.InStep r ∧ (w'.view r).InSync := by
  rw [hl.runIn] at he
  obtain ⟨hs, rest, log, names, w₁, hchain, hp, hw₁, hrun, hend⟩ :=
    refine_reference cv [] (fun _ _ _ _ => handleIn_ne_declined)
      (fun h hm => mirroredIn r (hl.parsedIn h hm) (ht h hm).1) hw hrel
  have hsync₁ : (w₁.view r).InSync := by
    refine hrun.invariant (fun a ha v v' hact hv => ?_) hsync
    obtain ⟨hpass, s, value, hval, hav⟩ := hp.evaluated ha
    have hmem : a.1 ∈ c₀.input.chain path := by
      rw [hchain]
      exact List.mem_append_left _ (hp.mem ha)
    have hparsed := hl.parsedIn _ hmem
    exact effect_inSync hparsed (ht _ hmem).1 (ht _ hmem).2
      (hparsed.clear_value fun hnone => hav.trans (dropLast_of_none hval hnone)) hpass hact hv
  rw [he] at hend
  cases hend <;> exact ⟨hw₁, hsync₁⟩

end Cycle

instance (hv : InVal) : Decidable hv.Definite :=
  decidable_of_iff (∀ f ∈ InField.all, hv.offset = some f → ¬ f.Plain →
    hv.opcode = .set ∨ hv.opcode = .clear ∨ hv.opcode = .pass)
    ⟨fun h f => h f f.mem_all, fun h f _ => h f⟩

def syncDirectives : List (Bool × Bool × List Str) :=
  [(true, true, [str "set", str "Host", str "Example.COM.:80"]),
    (false, true, [str "set", str "Content-Length", str "12"]),
    (false, true, [str "set", str "Connection", str "close"]),
    (false, true, [str "clear", str "User-Agent"])]

theorem derived_in_sync_host :
    ∃ (c : Cycle Bool InHandler InField OutHandler OutField) (w' : World Unit),
      syncDirectives.foldlM (readDirective (fun _ => true) setHandlersIn setHandlersOut) .initial =
        .ok c ∧
      runRules 20 (execInputHeader (fun text _ => some text) ())
        ((c.mergeLocConf 20 true false).input.rules false) headersYA = .ok (.ok, w') ∧
      (w'.derived ()).server = str "example.com" ∧ (w'.derived ()).contentLengthN = 12 ∧
      w'.InStep () ∧ (w'.view ()).InSync := by
  refine ⟨_, _, rfl, rfl, by decide, by decide, ?_⟩
  refine derived_in_sync (configured_child (fun _ => true) syncDirectives rfl) ?_
    (fun text _ => some text) () headersYA _ _ ⟨Shape.single_wellFormed (by decide) (by decide), ?_⟩
    (fun _ => rfl) ?_ rfl
  · decide
  · intro f _
    cases f <;> decide
  · intro f
    cases f with
    | host => exact Or.inl ⟨by decide, by decide⟩
    | contentLength => exact Or.inl ⟨by decide, by decide⟩
    | userAgent =>
      change (headersYA.derived ()).browser = if _ then _ else _
      decide
    | connection => exact ⟨by decide, by decide⟩
    | _ => trivial

end HeadersControl
