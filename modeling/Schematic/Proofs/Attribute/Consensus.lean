import Schematic.Attribute.Consensus
import Schematic.Proofs.Payload.Equality

namespace Schematic

instance {α : Type} [SameValue α] : SameValue (Consensus α) where
  same
    | .notApplicable, .notApplicable => true
    | .consistent x, .consistent y => same x y
    | .inconsistent, .inconsistent => true
    | _, _ => false

namespace Consensus

variable {α : Type} [SameValue α]

/-- The values with a property have come to this consensus. There is one at most, up to sameness, so
neither the order in which a list is merged matters nor repetition. -/
def Reflects (P : α → Prop) : Consensus α → Prop
  | notApplicable => ∀ x, ¬ P x
  | consistent value => P value ∧ ∀ x, P x → same value x = true
  | inconsistent => ∃ x y, P x ∧ P y ∧ same x y = false

/-- The consensus of two collections of values. -/
def join : Consensus α → Consensus α → Consensus α
  | notApplicable, c => c
  | c, notApplicable => c
  | consistent x, consistent y => if same x y then consistent x else inconsistent
  | _, _ => inconsistent

variable {c c' : Consensus α} {P Q : α → Prop} {values : List α} {x value : α}

theorem Reflects.congr (h : c.Reflects P) (hPQ : ∀ x, P x ↔ Q x) : c.Reflects Q := by
  obtain rfl : P = Q := funext fun x => propext (hPQ x)
  exact h

theorem Reflects.eq_notApplicable_iff (h : c.Reflects P) :
    c = notApplicable ↔ ∀ x, ¬ P x := by
  cases c with
  | notApplicable => exact iff_of_true rfl h
  | consistent value => exact iff_of_false (by simp) fun hnone => hnone value h.1
  | inconsistent =>
      obtain ⟨x, -, hx, -⟩ := h
      exact iff_of_false (by simp) fun hnone => hnone x hx

theorem reflects_ofList (hself : ∀ x ∈ values, same x x = true) :
    (ofList values).Reflects (· ∈ values) := by
  cases values with
  | nil => exact fun x => List.not_mem_nil
  | cons first rest =>
      obtain ⟨hfirst, -⟩ := List.forall_mem_cons.mp hself
      rw [ofList_cons]
      split
      · rename_i hall
        exact ⟨List.mem_cons_self, List.forall_mem_cons.mpr ⟨hfirst, List.all_eq_true.mp hall⟩⟩
      · rename_i hall
        rw [List.all_eq_true] at hall
        obtain ⟨x, hx⟩ := Classical.not_forall.mp hall
        obtain ⟨hx, hdiffers⟩ := Classical.not_imp.mp hx
        exact ⟨first, x, List.mem_cons_self, List.mem_cons_of_mem _ hx,
          eq_false_of_ne_true hdiffers⟩

section Lawful

variable [LawfulSame α]

theorem Reflects.eq_inconsistent_iff (h : c.Reflects P) :
    c = inconsistent ↔ ∃ x y, P x ∧ P y ∧ same x y = false := by
  cases c with
  | notApplicable => exact iff_of_false (by simp) fun ⟨x, _, hx, _⟩ => h x hx
  | consistent value =>
      refine iff_of_false (by simp) ?_
      rintro ⟨x, y, hx, hy, hdiffers⟩
      rw [LawfulSame.trans (LawfulSame.symm (h.2 x hx)) (h.2 y hy)] at hdiffers
      cases hdiffers
  | inconsistent => exact iff_of_true rfl h

theorem same_of_reflects (h : c.Reflects P) (h' : c'.Reflects P) : same c c' = true := by
  cases hc : c with
  | notApplicable => rw [h'.eq_notApplicable_iff.mpr (h.eq_notApplicable_iff.mp hc)]; rfl
  | inconsistent => rw [h'.eq_inconsistent_iff.mpr (h.eq_inconsistent_iff.mp hc)]; rfl
  | consistent value =>
      subst hc
      cases c' with
      | notApplicable => exact absurd h.1 (h' value)
      | consistent value' => exact h.2 value' h'.1
      | inconsistent => cases h.eq_inconsistent_iff.mpr h'

theorem Reflects.join (h : c.Reflects P) (h' : c'.Reflects Q) :
    (c.join c').Reflects fun x => P x ∨ Q x := by
  have hdiffers : c = inconsistent ∨ c' = inconsistent →
      ∃ x y, (P x ∨ Q x) ∧ (P y ∨ Q y) ∧ same x y = false := by
    rintro (rfl | rfl)
    · obtain ⟨x, y, hx, hy, hxy⟩ := h
      exact ⟨x, y, .inl hx, .inl hy, hxy⟩
    · obtain ⟨x, y, hx, hy, hxy⟩ := h'
      exact ⟨x, y, .inr hx, .inr hy, hxy⟩
  cases c with
  | notApplicable => exact h'.congr fun x => (or_iff_right (h x)).symm
  | inconsistent => cases c' <;> exact hdiffers (.inl rfl)
  | consistent value =>
      cases c' with
      | notApplicable => exact h.congr fun x => (or_iff_left (h' x)).symm
      | inconsistent => exact hdiffers (.inr rfl)
      | consistent value' =>
          change Reflects _ (if same value value' then consistent value else inconsistent)
          split
          · rename_i hsame
            refine ⟨.inl h.1, fun x hx => ?_⟩
            rcases hx with hx | hx
            · exact h.2 x hx
            · exact LawfulSame.trans hsame (h'.2 x hx)
          · rename_i hsame
            exact ⟨value, value', .inl h.1, .inr h'.1, eq_false_of_ne_true hsame⟩

/-- The common value of a list is the first of its values. -/
theorem ofList_eq_consistent_iff (hself : ∀ x ∈ values, same x x = true) :
    ofList values = consistent value ↔
      values.head? = some value ∧ ∀ x ∈ values, ∀ y ∈ values, same x y = true := by
  have hreflects := reflects_ofList hself
  constructor
  · intro h
    rw [h] at hreflects
    refine ⟨?_, fun x hx y hy => LawfulSame.trans (LawfulSame.symm (hreflects.2 x hx))
      (hreflects.2 y hy)⟩
    cases values with
    | nil => cases h
    | cons first rest =>
        rw [ofList_cons] at h
        split at h
        · cases h
          rfl
        · cases h
  · rintro ⟨hhead, hall⟩
    obtain ⟨rest, rfl⟩ := List.head?_eq_some_iff.mp hhead
    rw [ofList_cons, if_pos]
    exact List.all_eq_true.mpr fun x hx => hall value List.mem_cons_self x
      (List.mem_cons_of_mem _ hx)

/-- Among two or more values one that is not the same as itself is in the way of any consensus. -/
theorem ofList_eq_inconsistent (hlength : 2 ≤ values.length) (hx : x ∈ values)
    (hself : same x x = false) : ofList values = inconsistent := by
  obtain ⟨first, rest, rfl⟩ : ∃ first rest, values = first :: rest := by
    cases values with
    | nil => cases hx
    | cons first rest => exact ⟨first, rest, rfl⟩
  rw [ofList_cons, if_neg]
  rw [List.all_eq_true]
  intro hall
  suffices hsame : same x x = true by
    rw [hself] at hsame
    cases hsame
  rcases List.mem_cons.mp hx with rfl | hx
  · obtain ⟨y, hy⟩ := List.exists_mem_of_length_pos (Nat.le_of_succ_le_succ hlength)
    exact LawfulSame.trans (hall y hy) (LawfulSame.symm (hall y hy))
  · exact LawfulSame.trans (LawfulSame.symm (hall x hx)) (hall x hx)

end Lawful

end Consensus

end Schematic
