import Schematic.Proofs.Store.Preorder
import Schematic.Store.Placement

namespace Schematic.Table

variable {t u : Table} {id p other : ObjectId} {place parent before : Option ObjectId}
  {state : ObjectState}

/-! ### Lists that are kept -/

@[simp] theorem mem_insertBefore {list : List ObjectId} :
    other ∈ insertBefore id before list ↔ other = id ∨ other ∈ list := by
  rw [(insertBefore_perm id before list).mem_iff, List.mem_cons]

theorem nodup_insertBefore {list : List ObjectId} (h : list.Nodup) (hid : id ∉ list) :
    (insertBefore id before list).Nodup :=
  (insertBefore_perm id before list).nodup_iff.mpr (List.nodup_cons.mpr ⟨hid, h⟩)

theorem setSiblings_children_ne_nil {list : List ObjectId}
    (h : ∀ place : Option ObjectId, t.children[place]? ≠ some []) (place : Option ObjectId) :
    (t.setSiblings parent list).children[place]? ≠ some [] := by
  unfold setSiblings
  cases list with
  | nil => simp [Std.ExtTreeMap.getElem?_erase, h]
  | cons x xs =>
      simp only [List.isEmpty_cons, Bool.false_eq_true, if_false, Std.ExtTreeMap.getElem?_insert]
      split
      · simp
      · exact h place

theorem unlink_children_ne_nil
    (h : ∀ place : Option ObjectId, t.children[place]? ≠ some []) (place : Option ObjectId) :
    (t.unlink id).children[place]? ≠ some [] := by
  unfold unlink
  split
  · exact setSiblings_children_ne_nil h place
  · exact h place

theorem foldl_forget_children_ne_nil (ids : List ObjectId)
    (h : ∀ place : Option ObjectId, t.children[place]? ≠ some []) (place : Option ObjectId) :
    (ids.foldl forget t).children[place]? ≠ some [] := by
  induction ids generalizing t with
  | nil => exact h place
  | cons id ids ih =>
      apply ih
      intro place
      simp only [forget, Std.ExtTreeMap.getElem?_erase]
      split
      · simp
      · exact h place

/-! ### Places after a change -/

@[simp] theorem place?_insert : (t.insert id state parent before).place? other =
    if id = other then some parent else t.place? other := by
  rw [place?, get?_insert]
  split <;> rfl

@[simp] theorem contains_insert :
    (t.insert id state parent before).contains other = (other == id || t.contains other) := by
  rw [contains, get?_insert, contains]
  by_cases h : id = other <;> simp [h, eq_comm (a := other)]

@[simp] theorem place?_setState : (t.setState id state).place? other = t.place? other := by
  rw [place?, get?_setState]
  split
  · rename_i h
    subst h
    rw [Option.map_map]
    rfl
  · rfl

theorem place?_relink (hid : t.contains id = true) : (t.relink id parent before).place? other =
    if id = other then some parent else t.place? other := by
  obtain ⟨entry, hentry⟩ := Option.isSome_iff_exists.mp hid
  rw [place?, get?_relink]
  split
  · simp [hentry]
  · rfl

theorem get?_foldl_forget (ids : List ObjectId) :
    (ids.foldl forget t).get? other = if other ∈ ids then none else t.get? other := by
  induction ids generalizing t with
  | nil => simp
  | cons id ids ih =>
      rw [List.foldl_cons, ih, get?_forget]
      by_cases h : other ∈ ids <;> by_cases h' : id = other <;> simp [h, h', eq_comm (a := other)]

theorem siblings_foldl_forget (ids : List ObjectId) :
    (ids.foldl forget t).siblings place =
      if place ∈ ids.map some then [] else t.siblings place := by
  induction ids generalizing t with
  | nil => simp
  | cons id ids ih =>
      rw [List.foldl_cons, ih, siblings_forget]
      by_cases h : place ∈ ids.map some <;> by_cases h' : some id = place <;>
        simp only [List.map_cons, List.mem_cons, h, h', eq_comm (a := place), or_true, or_false,
          if_true, if_false]

@[simp] theorem get?_removeSubtree : (t.removeSubtree id).get? other =
    if other ∈ t.subtree id then none else t.get? other := by
  rw [removeSubtree, get?_foldl_forget, get?_unlink]

@[simp] theorem siblings_removeSubtree : (t.removeSubtree id).siblings place =
    if place ∈ (t.subtree id).map some then [] else (t.unlink id).siblings place :=
  siblings_foldl_forget (t.subtree id)

@[simp] theorem place?_removeSubtree : (t.removeSubtree id).place? other =
    if other ∈ t.subtree id then none else t.place? other := by
  rw [place?, get?_removeSubtree]
  split <;> rfl

theorem isContainer_eq_of_state {q : ObjectId}
    (h : (u.get? q).map Entry.state = (t.get? p).map Entry.state) :
    u.isContainer q = t.isContainer p := by
  unfold isContainer Entry.kind
  cases hu : u.get? q <;> cases ht : t.get? p <;> simp_all

/-- An object keeps its depth as long as nothing that it lies below is attached elsewhere. -/
theorem AtDepth.transfer {n : Nat} (h : t.AtDepth n id)
    (hsame : ∀ a, t.Within a id → u.place? a = t.place? a) : u.AtDepth n id := by
  induction h with
  | top hplace => exact .top (hsame _ .self ▸ hplace)
  | attached hplace _ ih =>
      exact .attached (hsame _ .self ▸ hplace) (ih fun a ha => hsame a (.attached hplace ha))

/-- Attaching one object to a place that does not lie below it leaves every object grounded. -/
theorem WellFormed.grounded_of_place?_eq (wf : t.WellFormed) (hid : u.place? id = some parent)
    (hparent : ∀ p, parent = some p → t.contains p = true ∧ ¬ t.Within id p)
    (hsame : ∀ x, id ≠ x → u.place? x = t.place? x) (hother : u.contains other = true) :
    ∃ n, u.AtDepth n other := by
  have hself : ∃ n, u.AtDepth n id := by
    cases parent with
    | none => exact ⟨0, .top hid⟩
    | some p =>
        obtain ⟨hp, hout⟩ := hparent p rfl
        obtain ⟨n, hn⟩ := wf.grounded hp
        refine ⟨n + 1, .attached hid (hn.transfer fun a ha => hsame a ?_)⟩
        rintro rfl
        exact hout ha
  -- The others are grounded by the same way up, as far as it does not meet the one that moved.
  have hbelow : ∀ {n x}, t.AtDepth n x → ∃ m, u.AtDepth m x := by
    intro n x h
    induction h with
    | @top x hplace =>
        rcases eq_or_ne id x with rfl | hne
        · exact hself
        · exact ⟨0, .top ((hsame x hne).trans hplace)⟩
    | @attached n x p hplace _ ih =>
        rcases eq_or_ne id x with rfl | hne
        · exact hself
        · obtain ⟨m, hm⟩ := ih
          exact ⟨m + 1, .attached ((hsame x hne).trans hplace) hm⟩
  rcases eq_or_ne id other with rfl | hne
  · exact hself
  · obtain ⟨place, hplace⟩ := contains_iff.mp hother
    obtain ⟨n, hn⟩ := wf.grounded (contains_of_place? ((hsame other hne).symm.trans hplace))
    exact hbelow hn

/-! ### Preservation -/

theorem wellFormed_empty : empty.WellFormed where
  isContainer h := by simp [place?, get?_empty] at h
  grounded h := by simp [contains, get?_empty] at h
  mem_siblings := by simp [place?]
  nodup_siblings := by simp
  children_ne_nil := by simp [empty]

namespace WellFormed

variable (wf : t.WellFormed)

include wf

theorem siblings_unlink : (t.unlink id).siblings place = (t.siblings place).filter (· != id) := by
  rw [Table.siblings_unlink]
  split
  · rfl
  · rename_i h
    exact (filter_bne_eq_self fun hmem => h (wf.mem_siblings.mp hmem)).symm

theorem siblings_relink : (t.relink id parent before).siblings place =
    if parent = place then insertBefore id before ((t.siblings parent).filter (· != id))
    else (t.siblings place).filter (· != id) := by
  rw [Table.siblings_relink, wf.siblings_unlink, wf.siblings_unlink]

theorem siblings_removeSubtree : (t.removeSubtree id).siblings place =
    if place ∈ (t.subtree id).map some then [] else (t.siblings place).filter (· != id) := by
  rw [Table.siblings_removeSubtree, wf.siblings_unlink]

theorem insert (hnew : t.contains id = false)
    (hparent : ∀ p, parent = some p → t.isContainer p = true) :
    (t.insert id state parent before).WellFormed where
  isContainer := by
    intro x p h
    have hp : t.isContainer p = true := by
      rw [place?_insert] at h
      split at h
      · exact hparent p (Option.some.inj h)
      · exact wf.isContainer h
    have hne : id ≠ p := by
      rintro rfl
      simp [contains_of_isContainer hp] at hnew
    rw [← hp]
    exact isContainer_eq_of_state (by simp [hne])
  grounded := by
    refine wf.grounded_of_place?_eq (place?_insert.trans (if_pos rfl)) (fun p hp => ?_) fun x hx =>
      place?_insert.trans (if_neg hx)
    have hcontains := contains_of_isContainer (hparent p hp)
    refine ⟨hcontains, fun hwithin => ?_⟩
    rw [wf.contains_of_within hwithin hcontains] at hnew
    cases hnew
  mem_siblings := by
    intro x place
    rw [place?_insert, siblings_insert]
    have hmem : x ∈ t.siblings place ↔ t.place? x = some place := wf.mem_siblings
    by_cases hx : id = x
    · subst hx
      have hnone : id ∉ t.siblings place := fun h => by
        simp [wf.contains_of_mem_siblings h] at hnew
      by_cases h : parent = place <;> simp [h, hnone, mem_insertBefore]
    · by_cases h : parent = place <;> simp [h, hx, mem_insertBefore, hmem, Ne.symm hx]
  nodup_siblings := by
    intro place
    rw [siblings_insert]
    split
    · apply nodup_insertBefore (wf.nodup_siblings parent)
      intro h
      simp [wf.contains_of_mem_siblings h] at hnew
    · exact wf.nodup_siblings place
  children_ne_nil := setSiblings_children_ne_nil wf.children_ne_nil

theorem setState (hkind : t.hasChildren id = true → state.kind.isContainer = true) :
    (t.setState id state).WellFormed where
  isContainer := by
    intro x p h
    simp only [place?_setState] at h
    have hp := wf.isContainer h
    by_cases hid : id = p
    · subst hid
      have hchildren : t.hasChildren id = true :=
        wf.hasChildren_iff.mpr ⟨x, parent?_eq_some_iff.mpr h⟩
      obtain ⟨entry, hentry⟩ := Option.isSome_iff_exists.mp (contains_of_isContainer hp)
      simpa [Table.isContainer, Entry.kind, hentry] using hkind hchildren
    · rw [← hp]
      exact isContainer_eq_of_state (by simp [hid])
  grounded := by
    intro x hx
    simp only [contains_iff, place?_setState] at hx
    obtain ⟨n, hn⟩ := wf.grounded (contains_iff.mpr hx)
    exact ⟨n, hn.transfer fun _ _ => place?_setState⟩
  mem_siblings := by
    intro x place
    simpa using wf.mem_siblings
  nodup_siblings := wf.nodup_siblings
  children_ne_nil := wf.children_ne_nil

theorem relink (hid : t.contains id = true)
    (hparent : ∀ p, parent = some p → t.isContainer p = true ∧ ¬ t.Within id p) :
    (t.relink id parent before).WellFormed where
  isContainer := by
    intro x p h
    have hp : t.isContainer p = true := by
      rw [place?_relink hid] at h
      split at h
      · exact (hparent p (Option.some.inj h)).1
      · exact wf.isContainer h
    rw [← hp]
    apply isContainer_eq_of_state
    rw [get?_relink]
    split
    · rename_i heq
      simp [heq, Function.comp_def]
    · rfl
  grounded := wf.grounded_of_place?_eq ((place?_relink hid).trans (if_pos rfl))
    (fun p hp => ⟨contains_of_isContainer (hparent p hp).1, (hparent p hp).2⟩)
    fun x hx => (place?_relink hid).trans (if_neg hx)
  mem_siblings := by
    intro x place
    rw [place?_relink hid, wf.siblings_relink]
    have hmem : x ∈ t.siblings place ↔ t.place? x = some place := wf.mem_siblings
    by_cases hx : id = x
    · subst hx
      by_cases h : parent = place <;> simp [h, mem_insertBefore]
    · by_cases h : parent = place <;> simp [h, hx, mem_insertBefore, hmem, Ne.symm hx]
  nodup_siblings := by
    intro place
    rw [wf.siblings_relink]
    split
    · exact nodup_insertBefore ((wf.nodup_siblings parent).filter _) (by simp)
    · exact (wf.nodup_siblings place).filter _
  children_ne_nil :=
    setSiblings_children_ne_nil (unlink_children_ne_nil wf.children_ne_nil)

theorem mem_siblings_removeSubtree :
    other ∈ (t.removeSubtree id).siblings place ↔
      (t.removeSubtree id).place? other = some place := by
  rw [place?_removeSubtree, wf.siblings_removeSubtree]
  -- An object goes with its parent, and stays with it unless it is the root of what is removed.
  have hparent : ∀ {p}, t.place? other = some (some p) → p ∈ t.subtree id →
      other ∈ t.subtree id := fun hplace hp => wf.mem_subtree_of_within (.of_place? hplace) hp
  have hother : other ∈ t.subtree id → t.place? other = some place → other ≠ id →
      place ∈ (t.subtree id).map some := by
    intro hmem hplace hne
    have hid := contains_root_of_mem_subtree hmem
    have hwithin := (wf.mem_subtree hid).mp hmem
    cases place with
    | none => exact absurd (hwithin.eq_of_top hplace).symm hne
    | some p =>
        exact List.mem_map_of_mem ((wf.mem_subtree hid).mpr (hwithin.parent (Ne.symm hne) hplace))
  split
  · rename_i hgone
    obtain ⟨p, hp, rfl⟩ := List.mem_map.mp hgone
    simp only [List.not_mem_nil, false_iff]
    split
    · simp
    · rename_i hkept
      exact fun hplace => hkept (hparent hplace hp)
  · rename_i hstays
    rw [List.mem_filter, wf.mem_siblings, bne_iff_ne]
    split
    · rename_i hmem
      simp only [reduceCtorEq, iff_false, not_and, not_not]
      intro hplace
      by_contra hne
      exact hstays (hother hmem hplace hne)
    · rename_i hkept
      apply and_iff_left_of_imp
      intro hplace
      rintro rfl
      exact hkept (wf.mem_subtree_self (contains_of_place? hplace))

theorem removeSubtree (id : ObjectId) : (t.removeSubtree id).WellFormed where
  isContainer := by
    intro x p h
    rw [place?_removeSubtree] at h
    split at h
    · simp at h
    · rename_i hx
      have hp : p ∉ t.subtree id := mt (wf.mem_subtree_of_within (.of_place? h)) hx
      rw [← wf.isContainer h]
      exact isContainer_eq_of_state (by simp [hp])
  grounded := by
    intro x hx
    obtain ⟨place, hplace⟩ := contains_iff.mp hx
    rw [place?_removeSubtree] at hplace
    split at hplace
    · simp at hplace
    · rename_i hout
      obtain ⟨n, hn⟩ := wf.grounded (contains_of_place? hplace)
      refine ⟨n, hn.transfer fun a ha => ?_⟩
      simp [mt (wf.mem_subtree_of_within ha) hout]
  mem_siblings := wf.mem_siblings_removeSubtree
  nodup_siblings := by
    intro place
    rw [wf.siblings_removeSubtree]
    split
    · exact .nil
    · exact (wf.nodup_siblings place).filter _
  children_ne_nil :=
    foldl_forget_children_ne_nil _ (unlink_children_ne_nil wf.children_ne_nil)

end WellFormed

theorem WellFormed.ext (wf : t.WellFormed) (wf' : u.WellFormed)
    (hget : ∀ id, t.get? id = u.get? id)
    (hsiblings : ∀ place, t.siblings place = u.siblings place) : t = u := by
  have hentries : t.entries = u.entries := Std.ExtTreeMap.ext_getElem? fun id => hget id
  have hchildren : t.children = u.children := by
    refine Std.ExtTreeMap.ext_getElem? fun place => ?_
    have hlist := hsiblings place
    have ht := wf.children_ne_nil place
    have hu := wf'.children_ne_nil place
    unfold siblings at hlist
    cases hl : t.children[place]? <;> cases hr : u.children[place]? <;> simp_all
  cases t
  cases u
  simp_all

end Schematic.Table
