import Schematic.Proofs.Store.SelectedCopy

namespace Schematic

namespace Table

/-- As many objects as are in the subtree of `a`, from `a` on in the order of all objects. -/
def block (t : Table) (a : ObjectId) : List ObjectId :=
  (t.preorder.drop (t.preorder.idxOf a)).take (t.subtree a).length

variable {t : Table} {a b id : ObjectId}

namespace WellFormed

variable (wf : t.WellFormed)

include wf

theorem exists_preorder_eq_idxOf (ha : t.contains a = true) :
    ∃ front back, t.preorder = front ++ t.subtree a ++ back ∧
      front.length = t.preorder.idxOf a := by
  obtain ⟨front, back, hsplit⟩ := wf.exists_preorder_eq_append ha
  obtain ⟨hfront, -⟩ := notMem_block (hsplit ▸ wf.nodup_preorder)
  have hnot : a ∉ front := fun hmem => hfront a hmem (wf.mem_subtree_self ha)
  refine ⟨front, back, hsplit, ?_⟩
  rw [hsplit, List.append_assoc, List.idxOf_append_of_notMem hnot, wf.subtree_eq ha,
    List.cons_append, List.idxOf_cons_self, Nat.add_zero]

theorem block_eq_subtree (ha : t.contains a = true) : t.block a = t.subtree a := by
  obtain ⟨front, back, hsplit, hlength⟩ := wf.exists_preorder_eq_idxOf ha
  rw [block, ← hlength, hsplit, List.append_assoc, List.drop_left, List.take_left]

theorem subtree_nested_or_disjoint (ha : t.contains a = true) (hb : t.contains b = true) :
    t.subtree a <:+: t.subtree b ∨ t.subtree b <:+: t.subtree a ∨
      (t.subtree a).Disjoint (t.subtree b) := by
  by_cases hba : t.Within b a
  · obtain ⟨front, back, hsplit⟩ := wf.exists_subtree_eq_append hba hb
    exact .inl ⟨front, back, hsplit.symm⟩
  by_cases hab : t.Within a b
  · obtain ⟨front, back, hsplit⟩ := wf.exists_subtree_eq_append hab ha
    exact .inr (.inl ⟨front, back, hsplit.symm⟩)
  refine .inr (.inr fun x hx hx' => ?_)
  rcases ((wf.mem_subtree ha).mp hx).comparable ((wf.mem_subtree hb).mp hx') with h | h
  · exact hab h
  · exact hba h

theorem contains_of_within_of_ne (h : t.Within a id) (hne : a ≠ id) : t.contains a = true := by
  refine wf.contains_of_within h ?_
  by_contra habsent
  exact hne (h.eq_of_not_contains (eq_false_of_ne_true habsent))

end WellFormed

end Table

namespace Revision

/-- The ways to tell what lies below an object agree. -/
structure DescentAgrees (r : Revision) : Prop where
  isAncestorOrSelf_iff : ∀ {a : ObjectId}, r.contains a = true → ∀ x,
    r.table.isAncestorOrSelf a x = true ↔ x ∈ r.table.subtree a
  mem_subtree_iff : ∀ {a : ObjectId}, r.contains a = true → ∀ x,
    x ∈ r.table.subtree a ↔ x ∈ r.table.block a
  block_eq : ∀ {a : ObjectId}, r.contains a = true → r.table.block a = r.table.subtree a
  head?_block : ∀ {a : ObjectId}, r.contains a = true → (r.table.block a).head? = some a
  exists_objects_eq : ∀ {a : ObjectId}, r.contains a = true →
    ∃ front back, r.objects = front ++ r.table.block a ++ back ∧
      front.length = r.objects.idxOf a
  nested_or_disjoint : ∀ {a b : ObjectId}, r.contains a = true → r.contains b = true →
    r.table.block a <:+: r.table.block b ∨ r.table.block b <:+: r.table.block a ∨
      (r.table.block a).Disjoint (r.table.block b)
  hasSelectedAncestor_iff : ∀ (sel : Selection) (x : ObjectId),
    hasSelectedAncestor r.table sel x = true ↔
      ∃ a, r.contains a = true ∧ sel.contains a = true ∧ a ≠ x ∧ x ∈ r.table.block a

theorem descentAgrees_of_wellFormed {r : Revision} (wf : r.table.WellFormed) :
    r.DescentAgrees where
  isAncestorOrSelf_iff ha x := wf.isAncestorOrSelf_iff.trans (wf.mem_subtree ha).symm
  mem_subtree_iff ha x := by rw [wf.block_eq_subtree ha]
  block_eq := wf.block_eq_subtree
  head?_block ha := by rw [wf.block_eq_subtree ha, wf.subtree_eq ha, List.head?_cons]
  exists_objects_eq ha := by
    rw [wf.block_eq_subtree ha]
    exact wf.exists_preorder_eq_idxOf ha
  nested_or_disjoint ha hb := by
    rw [wf.block_eq_subtree ha, wf.block_eq_subtree hb]
    exact wf.subtree_nested_or_disjoint ha hb
  hasSelectedAncestor_iff sel x := by
    rw [Revision.hasSelectedAncestor_iff wf]
    constructor
    · rintro ⟨a, hwithin, hne, hsel⟩
      have ha := wf.contains_of_within_of_ne hwithin hne
      refine ⟨a, ha, hsel, hne, ?_⟩
      rw [wf.block_eq_subtree ha, wf.mem_subtree ha]
      exact hwithin
    · rintro ⟨a, ha, hsel, hne, hmem⟩
      rw [wf.block_eq_subtree ha, wf.mem_subtree ha] at hmem
      exact ⟨a, hmem, hne, hsel⟩

end Revision

end Schematic
