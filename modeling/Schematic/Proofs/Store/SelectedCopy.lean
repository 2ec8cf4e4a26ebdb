import Schematic.Proofs.Store.Copy
import Schematic.Proofs.Store.Selection

namespace Schematic

def Table.Covered (t : Table) (sel : Selection) (id : ObjectId) : Prop :=
  ∃ a, t.Within a id ∧ sel.contains a = true

namespace Revision

variable {r source : Revision} {sel : Selection} {id root : ObjectId} {supply : Supply}

/-! ### Roots -/

theorem mem_selected_iff (wf : r.table.WellFormed) :
    id ∈ r.selected sel ↔ r.contains id = true ∧ sel.contains id = true := by
  rw [selected, List.mem_filter, objects, wf.mem_preorder]
  rfl

theorem hasSelectedAncestor_iff {t : Table} (wf : t.WellFormed) :
    hasSelectedAncestor t sel id = true ↔
      ∃ a, t.Within a id ∧ a ≠ id ∧ sel.contains a = true := by
  simp only [hasSelectedAncestor, List.any_eq_true, wf.mem_tail_lineage_iff, and_assoc]

theorem mem_selectedRoots_iff (wf : r.table.WellFormed) :
    id ∈ r.selectedRoots sel ↔ r.contains id = true ∧ sel.contains id = true ∧
      ∀ a, r.table.Within a id → a ≠ id → sel.contains a = false := by
  rw [selectedRoots, List.mem_filter, mem_selected_iff wf, and_assoc, Bool.not_eq_true',
    ← Bool.not_eq_true, hasSelectedAncestor_iff wf]
  simp

theorem exists_mem_selectedRoots (wf : r.table.WellFormed) (hid : r.contains id = true)
    (h : r.table.Covered sel id) : ∃ root ∈ r.selectedRoots sel, r.table.Within root id := by
  obtain ⟨a, hwithin, ha⟩ := h
  obtain ⟨n, hn⟩ := wf.grounded (wf.contains_of_within hwithin hid)
  -- Of the selected objects above, the one that lies highest is a root.
  induction n using Nat.strong_induction_on generalizing a with
  | h n ih =>
      by_cases hup : hasSelectedAncestor r.table sel a = true
      · obtain ⟨b, hb, hne, hbsel⟩ := (hasSelectedAncestor_iff wf).mp hup
        obtain ⟨m, hm⟩ := wf.grounded (wf.contains_of_within hb hn.contains)
        have hle := hb.depth_le hm hn
        have hlt : m < n := lt_of_le_of_ne hle.1 fun heq => hne (hle.2 heq)
        exact ih m hlt b (hb.trans hwithin) hbsel hm
      · refine ⟨a, List.mem_filter.mpr ⟨(mem_selected_iff wf).mpr ⟨hn.contains, ha⟩, ?_⟩, hwithin⟩
        rw [Bool.not_eq_true', eq_false_of_ne_true hup]

/-- No object lies below two roots. -/
theorem eq_of_within_selectedRoots (wf : r.table.WellFormed) {x y z : ObjectId}
    (hx : x ∈ r.selectedRoots sel) (hy : y ∈ r.selectedRoots sel) (hxz : r.table.Within x z)
    (hyz : r.table.Within y z) : x = y := by
  obtain ⟨-, hxsel, hxtop⟩ := (mem_selectedRoots_iff wf).mp hx
  obtain ⟨-, hysel, hytop⟩ := (mem_selectedRoots_iff wf).mp hy
  by_contra hne
  rcases hxz.comparable hyz with hxy | hyx
  · exact absurd hxsel (by simp [hytop x hxy hne])
  · exact absurd hysel (by simp [hxtop y hyx (Ne.symm hne)])

theorem mem_flatMap_selectedRoots_iff (wf : r.table.WellFormed) :
    id ∈ (r.selectedRoots sel).flatMap r.table.subtree ↔
      r.contains id = true ∧ r.table.Covered sel id := by
  rw [List.mem_flatMap]
  constructor
  · rintro ⟨root, hroot, hid⟩
    obtain ⟨hcontains, hsel, -⟩ := (mem_selectedRoots_iff wf).mp hroot
    exact ⟨wf.contains_of_mem_subtree hid, root, (wf.mem_subtree hcontains).mp hid, hsel⟩
  · rintro ⟨hid, hcovered⟩
    obtain ⟨root, hroot, hwithin⟩ := exists_mem_selectedRoots wf hid hcovered
    have hcontains := ((mem_selectedRoots_iff wf).mp hroot).1
    exact ⟨root, hroot, (wf.mem_subtree hcontains).mpr hwithin⟩

theorem selectedRoots_sublist (r : Revision) (sel : Selection) :
    (r.selectedRoots sel).Sublist r.objects :=
  List.filter_sublist.trans List.filter_sublist

theorem nodup_flatMap_selectedRoots (wf : r.table.WellFormed) :
    ((r.selectedRoots sel).flatMap r.table.subtree).Nodup := by
  have hcontains : ∀ root ∈ r.selectedRoots sel, r.table.contains root = true := fun root hroot =>
    ((mem_selectedRoots_iff wf).mp hroot).1
  refine wf.nodup_flatMap_of_disjoint (wf.nodup_preorder.sublist (selectedRoots_sublist r sel))
    hcontains ?_ fun root hroot => wf.nodup_subtree (hcontains root hroot)
  exact fun x hx y hy z => eq_of_within_selectedRoots wf hx hy

theorem length_flatMap_selectedRoots (wf : r.table.WellFormed) :
    ((r.selectedRoots sel).flatMap r.table.subtree).length =
      {id | r.contains id = true ∧ r.table.Covered sel id}.ncard := by
  have hset : {id | r.contains id = true ∧ r.table.Covered sel id} =
      ((r.selectedRoots sel).flatMap r.table.subtree).toFinset := by
    ext id
    simp [← mem_flatMap_selectedRoots_iff wf]
  rw [hset, Set.ncard_coe_finset, List.toFinset_card_of_nodup (nodup_flatMap_selectedRoots wf)]

/-! ### Copies of several subtrees -/

/-- The listed objects are copies of a subtree of `source`, in the order of their originals. The
first of them, which is the copy of the root, is at the top level. -/
structure CopiesOf (source : Revision) (root : ObjectId) (after : Revision)
    (copies : List ObjectId) : Prop where
  length_eq : copies.length = (source.table.subtree root).length
  place?_head : ∀ {copy : ObjectId}, copies.head? = some copy →
    after.table.place? copy = some none
  parent?_copy : ∀ {i j : Nat} {x y x' y' : ObjectId}, (source.table.subtree root)[i]? = some x →
    copies[i]? = some x' → (source.table.subtree root)[j]? = some y → copies[j]? = some y' →
      (after.table.parent? x' = some y' ↔ source.table.parent? x = some y)
  index_copy : ∀ {i : Nat} {x x' : ObjectId}, 0 < i → (source.table.subtree root)[i]? = some x →
    copies[i]? = some x' → after.table.position? x' = source.table.position? x
  state?_copy : ∀ {i : Nat} {x x' : ObjectId}, (source.table.subtree root)[i]? = some x →
    copies[i]? = some x' → after.state? x' = source.state? x

/-- What becomes of `target` when the subtrees of `roots` are copied to it one after the other. The
copies of each subtree form a block, and `tops` are the first objects of the blocks. -/
structure AreCopies (source : Revision) (roots : List ObjectId) (target after : Revision)
    (tops : List ObjectId) (blocks : List (List ObjectId)) : Prop where
  objects_eq : after.objects = target.objects ++ blocks.flatten
  copiesOf : List.Forall₂ (fun root block => CopiesOf source root after block) roots blocks
  heads_eq : blocks.map List.head? = tops.map some
  attachedTo_none : after.attachedTo none = target.attachedTo none ++ tops
  state?_old : ∀ {x : ObjectId}, target.contains x = true → after.state? x = target.state? x
  location?_old : ∀ {x : ObjectId}, target.contains x = true →
    after.location? x = target.location? x

variable {target mid after : Revision} {roots tops copies : List ObjectId} {copy : ObjectId}
  {left : Supply}

theorem place?_eq_of_location?_eq (wf : r.table.WellFormed) (wf' : after.table.WellFormed)
    (hid : r.contains id = true) (h : after.location? id = r.location? id) :
    after.table.place? id = r.table.place? id ∧
      after.table.position? id = r.table.position? id := by
  obtain ⟨place, index, hlocation⟩ := wf.exists_location?_eq_some hid
  obtain ⟨hplace, hindex⟩ := wf.location?_eq_some_iff.mp hlocation
  obtain ⟨hplace', hindex'⟩ := wf'.location?_eq_some_iff.mp (h.trans hlocation)
  rw [hplace, hplace', (wf.position?_eq_some_iff hplace).mpr hindex,
    (wf'.position?_eq_some_iff hplace').mpr hindex']
  exact ⟨rfl, rfl⟩

theorem IsCopy.copiesOf (h : IsCopy source root target after copy copies)
    (wf : after.table.WellFormed) : CopiesOf source root after copies where
  length_eq := h.length_copies
  place?_head := by
    intro top htop
    rw [h.head?_copies, Option.some.injEq] at htop
    have hmem : top ∈ after.attachedTo none := by simp [h.attachedTo_none, htop]
    exact wf.mem_siblings.mp hmem
  parent?_copy := h.parent?_copy
  index_copy := h.index_copy
  state?_copy := h.state?_copy

theorem CopiesOf.transfer (h : CopiesOf source root mid copies) (wf : mid.table.WellFormed)
    (wf' : after.table.WellFormed) (hmem : ∀ x ∈ copies, mid.contains x = true)
    (hstate : ∀ {x}, mid.contains x = true → after.state? x = mid.state? x)
    (hlocation : ∀ {x}, mid.contains x = true → after.location? x = mid.location? x) :
    CopiesOf source root after copies := by
  have hsame : ∀ {i : Nat} {x : ObjectId}, copies[i]? = some x → mid.contains x = true ∧
      after.table.place? x = mid.table.place? x ∧
        after.table.position? x = mid.table.position? x := by
    intro i x hx
    have hcontains := hmem x (List.mem_of_getElem? hx)
    exact ⟨hcontains, place?_eq_of_location?_eq wf wf' hcontains (hlocation hcontains)⟩
  refine ⟨h.length_eq, ?_, ?_, ?_, ?_⟩
  · intro top htop
    rw [(hsame (List.head?_eq_getElem?.symm.trans htop)).2.1]
    exact h.place?_head htop
  · intro i j x y x' y' hx hx' hy hy'
    rw [Table.parent?_eq, (hsame hx').2.1, ← Table.parent?_eq]
    exact h.parent?_copy hx hx' hy hy'
  · intro i x x' hi hx hx'
    rw [(hsame hx').2.2]
    exact h.index_copy hi hx hx'
  · intro i x x' hx hx'
    rw [hstate (hsame hx').1]
    exact h.state?_copy hx hx'

theorem IsCopy.contains_of_contains (h : IsCopy source root target after copy copies)
    (hid : target.contains id = true) : after.contains id = true := by
  have hstate := h.state?_old hid
  unfold contains Table.contains at hid ⊢
  unfold state? at hstate
  rw [← Option.isSome_map (f := Entry.state), hstate, Option.isSome_map]
  exact hid

theorem AreCopies.nil : AreCopies source [] r r [] [] where
  objects_eq := by simp
  copiesOf := .nil
  heads_eq := rfl
  attachedTo_none := by simp
  state?_old _ := rfl
  location?_old _ := rfl

theorem AreCopies.cons {blocks : List (List ObjectId)}
    (hfirst : IsCopy source root r mid copy copies)
    (hrest : AreCopies source roots mid after tops blocks) (wf : mid.table.WellFormed)
    (wf' : after.table.WellFormed) :
    AreCopies source (root :: roots) r after (copy :: tops) (copies :: blocks) where
  objects_eq := by simp [hrest.objects_eq, hfirst.objects_eq]
  copiesOf := by
    refine .cons ((hfirst.copiesOf wf).transfer wf wf' ?_ hrest.state?_old hrest.location?_old)
      hrest.copiesOf
    intro x hx
    have hobject : x ∈ mid.objects := by simp [hfirst.objects_eq, hx]
    exact wf.mem_preorder.mp hobject
  heads_eq := by simp [hfirst.head?_copies, hrest.heads_eq]
  attachedTo_none := by simp [hrest.attachedTo_none, hfirst.attachedTo_none]
  state?_old hx := (hrest.state?_old (hfirst.contains_of_contains hx)).trans (hfirst.state?_old hx)
  location?_old hx :=
    (hrest.location?_old (hfirst.contains_of_contains hx)).trans (hfirst.location?_old hx)

theorem areCopies_copySubtrees (hsource : source.table.Sound supply)
    (hr : r.table.Sound supply) (htransient : r.transient = true)
    (hroots : ∀ root ∈ roots, source.contains root = true) :
    ∃ blocks, AreCopies source roots r
        { r with table := (copySubtrees source.table (r.table, supply) roots).2.1 }
        (copySubtrees source.table (r.table, supply) roots).1 blocks ∧
      ∀ x ∈ blocks.flatten, supply.nextId ≤ x.value := by
  induction roots generalizing r supply with
  | nil => exact ⟨[], .nil, by simp⟩
  | cons root roots ih =>
      have hroot := hroots root List.mem_cons_self
      have hrest : ∀ x ∈ roots, source.contains x = true := fun x hx =>
        hroots x (List.mem_cons_of_mem _ hx)
      let mid : Revision :=
        { r with table := (copySubtree source.table (r.table, supply) root).2.1 }
      have hcopy : r.copy supply source root = .ok (_, mid, _) :=
        copy_eq_ok_iff.mpr ⟨htransient, hroot, rfl⟩
      have hedits := edits_of_copy hsource.wellFormed hcopy
      have hmid : mid.table.Sound _ := hedits.sound hsource hr
      have hsource' := hsource.remains hedits.remains
      obtain ⟨copies, hfirst, hfresh⟩ := isCopy_of_copy hsource hr hcopy
      obtain ⟨blocks, hblocks, hfresh'⟩ := ih hsource' hmid htransient hrest
      have hafter := (edits_copySubtrees hsource.wellFormed hrest).sound hsource' hmid
      refine ⟨copies :: blocks, .cons hfirst hblocks hmid.wellFormed hafter.wellFormed, ?_⟩
      intro x hx
      rcases List.mem_append.mp hx with hx | hx
      · exact hfresh x hx
      · exact Nat.le_trans hedits.remains.1 (hfresh' x hx)

/-! ### The copy of a selection -/

/-- What becomes of `target` when the selected objects of `source` are copied to it. The `originals`
are what is covered by the selection: the subtrees of the `roots`, one after the other. -/
structure IsSelectedCopy (source : Revision) (sel : Selection) (target after : Revision)
    (copies : Selection) (roots tops : List ObjectId) (blocks : List (List ObjectId)) : Prop extends
    AreCopies source roots target after tops blocks where
  roots_sublist : roots.Sublist source.objects
  mem_roots : ∀ {id : ObjectId}, id ∈ roots ↔ source.contains id = true ∧
    sel.contains id = true ∧ ∀ a, source.table.Within a id → a ≠ id → sel.contains a = false
  mem_originals : ∀ {id : ObjectId}, id ∈ roots.flatMap source.table.subtree ↔
    source.contains id = true ∧ source.table.Covered sel id
  nodup_originals : (roots.flatMap source.table.subtree).Nodup
  nodup_blocks : blocks.flatten.Nodup
  length_blocks : blocks.flatten.length =
    {id | source.contains id = true ∧ source.table.Covered sel id}.ncard
  contains_copies : ∀ {id : ObjectId}, copies.contains id = true ↔ id ∈ tops
  size_copies : copies.size = roots.length

theorem length_flatten_of_forall₂ {roots : List ObjectId} {blocks : List (List ObjectId)}
    (h : List.Forall₂ (fun root block => CopiesOf source root after block) roots blocks) :
    blocks.flatten.length = (roots.flatMap source.table.subtree).length := by
  induction h with
  | nil => rfl
  | cons hfirst _ ih =>
      rw [List.flatten_cons, List.length_append, ih, hfirst.length_eq, List.flatMap_cons,
        List.length_append]

theorem isSelectedCopy_of_copySelected {copies : Selection} (hsource : source.table.Sound supply)
    (hr : r.table.Sound supply) (h : r.copySelected supply source sel = .ok (copies, after, left)) :
    ∃ roots tops blocks, IsSelectedCopy source sel r after copies roots tops blocks ∧
      ∀ x ∈ blocks.flatten, supply.nextId ≤ x.value := by
  have wf := hsource.wellFormed
  have hafter := ((edits_of_copySelected wf h).sound hsource hr).wellFormed
  have hobjects : after.objects.Nodup := hafter.nodup_preorder
  have htops : (after.attachedTo none).Nodup := hafter.nodup_siblings none
  obtain ⟨htransient, hresult⟩ := copySelected_eq_ok_iff.mp h
  cases hresult
  obtain ⟨blocks, hblocks, hfresh⟩ := areCopies_copySubtrees hsource hr htransient fun root hroot =>
    ((mem_selectedRoots_iff wf).mp hroot).1
  refine ⟨_, _, blocks, ⟨hblocks, selectedRoots_sublist source sel, mem_selectedRoots_iff wf,
    mem_flatMap_selectedRoots_iff wf, nodup_flatMap_selectedRoots wf, ?_, ?_,
    Selection.contains_ofList, ?_⟩, hfresh⟩
  · rw [hblocks.objects_eq] at hobjects
    exact (List.nodup_append.mp hobjects).2.1
  · rw [length_flatten_of_forall₂ hblocks.copiesOf, length_flatMap_selectedRoots wf]
  · rw [hblocks.attachedTo_none] at htops
    rw [Selection.size_ofList (List.nodup_append.mp htops).2.1, hblocks.copiesOf.length_eq,
      ← List.length_map List.head?, hblocks.heads_eq, List.length_map]

end Revision

end Schematic
