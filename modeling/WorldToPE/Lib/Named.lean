import Mathlib.Tactic

/-!
# WorldToPE.Lib.Named — loops over named items, in any order

A reader that walks over a list of named items and sets, for each, the component that the name stands
for.  Which components have been set so far is a function `seen` of the names; `blend seen` is the object
whose components are final where `seen` says so and initial elsewhere.  If every item of the list turns
`blend seen` into `blend (mark name seen)`, the loop ends in the blend of all names of the list, in
whatever order the items come.

* `foldlM_blend`: the rule for loops.
* `marks_eq_true_iff`: the names that have been seen in the end.
* `foldlM_last`: a component that some items set is in the end what the last of them set.
* `Permuted.find?_rel`: access by name does not see the order of the items.
-/

namespace Named

variable {ε σ α κ : Type} [DecidableEq κ]

/-- One more name has been seen. -/
def mark (name : κ) (seen : κ → Bool) : κ → Bool := fun k => decide (k = name) || seen k

/-- The names that have been seen after a list of items. -/
def marks (name : α → κ) (as : List α) (seen : κ → Bool) : κ → Bool :=
  as.foldl (fun seen a => mark (name a) seen) seen

theorem mark_eq_true_iff {name k : κ} {seen : κ → Bool} :
    mark name seen k = true ↔ k = name ∨ seen k = true := by
  simp [mark]

theorem marks_eq_true_iff {name : α → κ} {as : List α} {seen : κ → Bool} {k : κ} :
    marks name as seen k = true ↔ (∃ a ∈ as, name a = k) ∨ seen k = true := by
  induction as generalizing seen with
  | nil => simp [marks]
  | cons a as ih =>
    show marks name as (mark (name a) seen) k = true ↔ _
    rw [ih, mark_eq_true_iff]
    constructor
    · rintro (⟨b, hb, rfl⟩ | rfl | h)
      · exact .inl ⟨b, List.mem_cons_of_mem _ hb, rfl⟩
      · exact .inl ⟨a, List.mem_cons_self, rfl⟩
      · exact .inr h
    · rintro (⟨b, hb, rfl⟩ | h)
      · rcases List.mem_cons.mp hb with rfl | hb
        · exact .inr (.inl rfl)
        · exact .inl ⟨b, hb, rfl⟩
      · exact .inr (.inr h)

/-- **Rule for loops over named items.** -/
theorem foldlM_blend {step : σ → α → Except ε σ} {name : α → κ} {blend : (κ → Bool) → σ} {as : List α}
    (h : ∀ a ∈ as, ∀ seen, step (blend seen) a = .ok (blend (mark (name a) seen))) (seen : κ → Bool) :
    as.foldlM step (blend seen) = .ok (blend (marks name as seen)) := by
  induction as generalizing seen with
  | nil => rfl
  | cons a as ih =>
    rw [List.foldlM_cons, h a List.mem_cons_self]
    exact ih (fun b hb => h b (List.mem_cons_of_mem _ hb)) _

/-! ## The last item wins -/

/-- **Rule for one component** `g`, under an invariant of the loop. -/
theorem foldlM_last {β : Type} {step : σ → α → Except ε σ} {I : σ → Prop} {p : α → Bool}
    {g : σ → β} {S : α → β → Prop}
    (hinv : ∀ {s a s'}, I s → step s a = .ok s' → I s')
    (hset : ∀ {s a s'}, I s → p a = true → step s a = .ok s' → S a (g s'))
    (hkeep : ∀ {s a s'}, I s → p a = false → step s a = .ok s' → g s' = g s)
    {as : List α} {s s' : σ} (hs : I s) (h : as.foldlM step s = .ok s') :
    (∃ a, as.reverse.find? p = some a ∧ S a (g s')) ∨
      as.reverse.find? p = none ∧ g s' = g s := by
  induction as generalizing s with
  | nil =>
    obtain rfl := Except.ok.inj h
    exact .inr ⟨rfl, rfl⟩
  | cons a as ih =>
    rw [List.foldlM_cons] at h
    cases hstep : step s a with
    | error e =>
      rw [hstep] at h
      cases h
    | ok s₁ =>
      rw [hstep] at h
      rw [List.reverse_cons, List.find?_append]
      rcases ih (hinv hs hstep) h with ⟨b, hfind, hb⟩ | ⟨hfind, hget⟩
      · exact .inl ⟨b, by simp [hfind], hb⟩
      · rw [hfind, Option.none_or]
        cases hp : p a with
        | false => exact .inr ⟨by simp [hp], hget.trans (hkeep hs hp hstep)⟩
        | true => exact .inl ⟨a, by simp [hp], hget ▸ hset hs hp hstep⟩

/-! ## Access by name -/

section Order

variable {name : α → κ} {R : α → α → Prop} {as bs : List α}

/-- The items of `bs` are those of `as`, each changed by `R`, in any order. -/
def Permuted (R : α → α → Prop) (as bs : List α) : Prop := ∃ cs, List.Forall₂ R as cs ∧ cs.Perm bs

theorem exists_of_forall₂ {as bs : List α} (h : List.Forall₂ R as bs) {a : α} (ha : a ∈ as) :
    ∃ b ∈ bs, R a b := by
  induction h with
  | nil => cases ha
  | cons hab _ ih =>
    rcases List.mem_cons.mp ha with rfl | ha
    · exact ⟨_, List.mem_cons_self, hab⟩
    · obtain ⟨b, hb, hr⟩ := ih ha
      exact ⟨b, List.mem_cons_of_mem _ hb, hr⟩

theorem Permuted.exists_right (h : Permuted R as bs) {a : α} (ha : a ∈ as) : ∃ b ∈ bs, R a b := by
  obtain ⟨cs, hR, hp⟩ := h
  obtain ⟨b, hb, hr⟩ := exists_of_forall₂ hR ha
  exact ⟨b, hp.mem_iff.mp hb, hr⟩

theorem Permuted.exists_left (h : Permuted R as bs) {b : α} (hb : b ∈ bs) : ∃ a ∈ as, R a b := by
  obtain ⟨cs, hR, hp⟩ := h
  have hflip : List.Forall₂ (flip R) cs as := List.Forall₂.flip hR
  exact exists_of_forall₂ hflip (hp.mem_iff.mpr hb)

omit [DecidableEq κ] in
theorem names_of_forall₂ (hR : ∀ a b, R a b → name b = name a) (h : List.Forall₂ R as bs) :
    bs.map name = as.map name := by
  induction h with
  | nil => rfl
  | cons hab _ ih => rw [List.map_cons, List.map_cons, hR _ _ hab, ih]

omit [DecidableEq κ] in
/-- If `R` keeps names, they stay unique. -/
theorem Permuted.nodup (hR : ∀ a b, R a b → name b = name a) (h : Permuted R as bs)
    (hn : (as.map name).Nodup) : (bs.map name).Nodup := by
  obtain ⟨cs, hcs, hp⟩ := h
  rw [← (hp.map name).nodup_iff, names_of_forall₂ hR hcs]
  exact hn

/-- Where names are unique, the last item of a name is the one of that name. -/
theorem find?_eq_some_iff (hn : (as.map name).Nodup) {k : κ} {a : α} :
    as.reverse.find? (fun a => decide (name a = k)) = some a ↔ a ∈ as ∧ name a = k := by
  constructor
  · intro h
    exact ⟨List.mem_reverse.mp (List.mem_of_find?_eq_some h), by simpa using List.find?_some h⟩
  · rintro ⟨ha, hk⟩
    cases h : as.reverse.find? (fun a => decide (name a = k)) with
    | none =>
      have hne := List.find?_eq_none.mp h a (List.mem_reverse.mpr ha)
      exact absurd (decide_eq_true hk) hne
    | some b =>
      have hb := List.mem_reverse.mp (List.mem_of_find?_eq_some h)
      have hbk : name b = k := by simpa using List.find?_some h
      rw [List.inj_on_of_nodup_map hn hb ha (hbk.trans hk.symm)]

/-- **Access by name** finds the same item, changed by `R`, in whatever order the items come. -/
theorem Permuted.find?_rel (hR : ∀ a b, R a b → name b = name a) (hn : (as.map name).Nodup)
    (h : Permuted R as bs) (k : κ) :
    Option.Rel R (as.reverse.find? fun a => decide (name a = k))
      (bs.reverse.find? fun a => decide (name a = k)) := by
  have hn' := h.nodup hR hn
  cases ha : as.reverse.find? fun a => decide (name a = k) with
  | some a =>
    obtain ⟨hmem, hk⟩ := (find?_eq_some_iff hn).mp ha
    obtain ⟨b, hb, hr⟩ := h.exists_right hmem
    rw [(find?_eq_some_iff hn').mpr ⟨hb, (hR a b hr).trans hk⟩]
    exact .some hr
  | none =>
    cases hb : bs.reverse.find? fun a => decide (name a = k) with
    | none => exact .none
    | some b =>
      obtain ⟨hmem, hk⟩ := (find?_eq_some_iff hn').mp hb
      obtain ⟨a, hmem, hr⟩ := h.exists_left hmem
      rw [(find?_eq_some_iff hn).mpr ⟨hmem, (hR a b hr).symm.trans hk⟩] at ha
      cases ha

end Order

end Named
