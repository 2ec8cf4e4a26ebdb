import Mathlib.Data.List.Nodup
import Schematic.Proofs.Store.Ancestry

/-!
The bound of `descend` is never met in a well-formed table, so `subtree` and `preorder` obey the
equations of an unbounded recursion, and a statement about an object may be proved from what is
attached to it (`WellFormed.downward`).
-/

namespace Schematic.Table

variable {t : Table} {a id p : ObjectId} {place : Option ObjectId}

theorem Within.eq_or_exists (h : t.Within a id) :
    id = a ∨ ∃ child, t.place? child = some (some a) ∧ t.Within child id := by
  induction h with
  | self => exact .inl rfl
  | @attached id parent hplace _ ih =>
      refine .inr ?_
      rcases ih with rfl | ⟨child, hchild, hwithin⟩
      · exact ⟨id, hplace, .self⟩
      · exact ⟨child, hchild, .attached hplace hwithin⟩

theorem Within.contains (h : t.Within a id) (ha : t.contains a = true) : t.contains id = true := by
  cases h with
  | self => exact ha
  | attached hplace _ => exact contains_of_place? hplace

theorem contains_root_of_mem_subtree (h : id ∈ t.subtree a) : t.contains a = true := by
  by_contra ha
  simp [subtree, ha] at h

theorem AtDepth.exists_root {n : Nat} (h : t.AtDepth n id) :
    ∃ root, t.place? root = some none ∧ t.Within root id := by
  induction h with
  | top hplace => exact ⟨_, hplace, .self⟩
  | attached hplace _ ih =>
      obtain ⟨root, hroot, hwithin⟩ := ih
      exact ⟨root, hroot, .attached hplace hwithin⟩

/-! ### Lists in which nothing occurs twice -/

theorem notMem_of_nodup_append_cons {front back : List ObjectId}
    (h : (front ++ id :: back).Nodup) : id ∉ front ∧ id ∉ back := by
  have hid := (List.nodup_cons.mp (List.nodup_middle.mp h)).1
  rwa [List.mem_append, not_or] at hid

theorem notMem_block {front block back : List ObjectId} (h : (front ++ block ++ back).Nodup) :
    (∀ x ∈ front, x ∉ block) ∧ ∀ x ∈ back, x ∉ block := by
  obtain ⟨hfirst, -, hback⟩ := List.nodup_append.mp h
  obtain ⟨-, -, hfront⟩ := List.nodup_append.mp hfirst
  exact ⟨fun x hx hmem => hfront x hx x hmem rfl,
    fun x hx hmem => hback x (List.mem_append_right _ hmem) x hx rfl⟩

theorem filter_bne_eq_self {list : List ObjectId} (h : id ∉ list) :
    list.filter (· != id) = list :=
  List.filter_eq_self.mpr fun _ hx => bne_iff_ne.mpr (ne_of_mem_of_not_mem hx h)

theorem idxOf?_eq_some_iff_of_nodup {list : List ObjectId} {index : Nat} (h : list.Nodup) :
    list.idxOf? id = some index ↔ list[index]? = some id := by
  rw [List.idxOf?_eq_some_iff, List.getElem?_eq_some_iff]
  constructor
  · rintro ⟨hlt, heq, -⟩
    exact ⟨hlt, heq⟩
  · rintro ⟨hlt, heq⟩
    refine ⟨hlt, heq, fun j hj hid => ?_⟩
    have := (h.getElem_inj_iff).mp (hid.trans heq.symm)
    omega

namespace WellFormed

variable (wf : t.WellFormed)

include wf

/-! ### Equations -/

theorem descend_eq {n k l : Nat} (h : t.AtDepth n id) (hk : t.children.size < n + k)
    (hl : t.children.size < n + l) : t.descend k id = t.descend l id := by
  have hn := wf.depth_le_size_children h
  induction k generalizing n l id with
  | zero => omega
  | succ k ih =>
      cases l with
      | zero => omega
      | succ l =>
          simp only [descend]
          congr 1
          apply List.flatMap_congr
          intro child hchild
          have hdepth : t.AtDepth (n + 1) child := h.attached (wf.mem_siblings.mp hchild)
          exact ih hdepth (by omega) (by omega) (wf.depth_le_size_children hdepth)

theorem subtree_eq (h : t.contains id = true) :
    t.subtree id = id :: (t.siblings (some id)).flatMap t.subtree := by
  obtain ⟨n, hn⟩ := wf.grounded h
  rw [subtree, if_pos h, depthBound, descend]
  congr 1
  apply List.flatMap_congr
  intro child hchild
  have hdepth : t.AtDepth (n + 1) child := hn.attached (wf.mem_siblings.mp hchild)
  rw [subtree, if_pos hdepth.contains]
  exact wf.descend_eq hdepth (by omega) (by rw [depthBound]; omega)

theorem preorder_eq : t.preorder = (t.siblings none).flatMap t.subtree := by
  apply List.flatMap_congr
  intro child hchild
  rw [subtree, if_pos (wf.contains_of_mem_siblings hchild)]

/-- Induction down the forest: what holds of an object whenever it holds of everything attached to
it holds of every object that is present. -/
theorem downward {motive : ∀ id, t.contains id = true → Prop}
    (step : ∀ id (h : t.contains id = true),
      (∀ child (hchild : child ∈ t.siblings (some id)),
        motive child (wf.contains_of_mem_siblings hchild)) → motive id h)
    (id : ObjectId) (h : t.contains id = true) : motive id h := by
  have hbounded : ∀ k n id (h : t.AtDepth n id), t.children.size < n + k →
      motive id h.contains := by
    intro k
    induction k with
    | zero =>
        intro n id h hlt
        have := wf.depth_le_size_children h
        omega
    | succ k ih =>
        intro n id h hlt
        apply step id h.contains
        intro child hchild
        exact ih (n + 1) child (h.attached (wf.mem_siblings.mp hchild)) (by omega)
  obtain ⟨n, hn⟩ := wf.grounded h
  exact hbounded (t.children.size + 1) n id hn (by omega)

/-! ### Members -/

theorem mem_subtree (ha : t.contains a = true) : id ∈ t.subtree a ↔ t.Within a id := by
  induction a, ha using wf.downward with
  | step a ha ih =>
      rw [wf.subtree_eq ha, List.mem_cons, List.mem_flatMap]
      constructor
      · rintro (rfl | ⟨child, hchild, hid⟩)
        · exact .self
        · exact (Within.of_place? (wf.mem_siblings.mp hchild)).trans ((ih child hchild).mp hid)
      · intro h
        rcases h.eq_or_exists with rfl | ⟨child, hchild, hwithin⟩
        · exact .inl rfl
        · have hmem := wf.mem_siblings.mpr hchild
          exact .inr ⟨child, hmem, (ih child hmem).mpr hwithin⟩

theorem contains_of_mem_subtree (h : id ∈ t.subtree a) : t.contains id = true := by
  have ha := contains_root_of_mem_subtree h
  exact ((wf.mem_subtree ha).mp h).contains ha

theorem mem_preorder : id ∈ t.preorder ↔ t.contains id = true := by
  rw [wf.preorder_eq, List.mem_flatMap]
  constructor
  · rintro ⟨child, -, hid⟩
    exact wf.contains_of_mem_subtree hid
  · intro h
    obtain ⟨n, hn⟩ := wf.grounded h
    obtain ⟨root, hroot, hwithin⟩ := hn.exists_root
    exact ⟨root, wf.mem_siblings.mpr hroot,
      (wf.mem_subtree (contains_of_place? hroot)).mpr hwithin⟩

theorem mem_subtree_self (h : t.contains id = true) : id ∈ t.subtree id :=
  (wf.mem_subtree h).mpr .self

theorem mem_subtree_of_within {x : ObjectId} (h : t.Within x id) (hx : x ∈ t.subtree a) :
    id ∈ t.subtree a := by
  have ha := contains_root_of_mem_subtree hx
  exact (wf.mem_subtree ha).mpr (((wf.mem_subtree ha).mp hx).trans h)

theorem nodup_flatMap_of_disjoint {list : List ObjectId} (hlist : list.Nodup)
    (hcontains : ∀ x ∈ list, t.contains x = true)
    (hdisjoint : ∀ x ∈ list, ∀ y ∈ list, ∀ z, t.Within x z → t.Within y z → x = y)
    (h : ∀ x ∈ list, (t.subtree x).Nodup) : (list.flatMap t.subtree).Nodup := by
  refine List.nodup_flatMap.mpr ⟨h, ?_⟩
  apply hlist.pairwise_of_forall_ne
  intro x hx y hy hne z hzx hzy
  have hxz : t.Within x z := (wf.mem_subtree (hcontains x hx)).mp hzx
  have hyz : t.Within y z := (wf.mem_subtree (hcontains y hy)).mp hzy
  exact hne (hdisjoint x hx y hy z hxz hyz)

theorem nodup_flatMap_subtree (h : ∀ child ∈ t.siblings place, (t.subtree child).Nodup) :
    ((t.siblings place).flatMap t.subtree).Nodup := by
  refine wf.nodup_flatMap_of_disjoint (wf.nodup_siblings place)
    (fun x => wf.contains_of_mem_siblings) ?_ h
  intro x hx y hy z hxz hyz
  exact wf.eq_of_within_siblings (wf.mem_siblings.mp hx) (wf.mem_siblings.mp hy) hxz hyz

theorem nodup_subtree (ha : t.contains a = true) : (t.subtree a).Nodup := by
  induction a, ha using wf.downward with
  | step a ha ih =>
      rw [wf.subtree_eq ha]
      refine List.nodup_cons.mpr ⟨?_, wf.nodup_flatMap_subtree ih⟩
      intro hmem
      obtain ⟨child, hchild, hup⟩ := List.mem_flatMap.mp hmem
      exact wf.not_within_parent (wf.mem_siblings.mp hchild)
        ((wf.mem_subtree (wf.contains_of_mem_siblings hchild)).mp hup)

theorem nodup_preorder : t.preorder.Nodup := by
  rw [wf.preorder_eq]
  exact wf.nodup_flatMap_subtree fun child hchild =>
    wf.nodup_subtree (wf.contains_of_mem_siblings hchild)

theorem preorder_perm_ids : t.preorder.Perm t.ids := by
  apply (List.perm_ext_iff_of_nodup wf.nodup_preorder Std.ExtTreeMap.nodup_keys).mpr
  intro id
  rw [wf.mem_preorder, Std.ExtTreeMap.mem_keys, Std.ExtTreeMap.mem_iff_isSome_getElem?]
  rfl

theorem length_preorder : t.preorder.length = t.size := by
  rw [wf.preorder_perm_ids.length_eq, Table.ids, Std.ExtTreeMap.length_keys, size]

/-! ### Places of subtrees -/

theorem subtree_eq_of_siblings {before after : List ObjectId} (hp : t.contains p = true)
    (h : t.siblings (some p) = before ++ id :: after) :
    t.subtree p = p :: before.flatMap t.subtree ++ t.subtree id ++ after.flatMap t.subtree := by
  simp [wf.subtree_eq hp, h]

theorem preorder_eq_of_siblings {before after : List ObjectId}
    (h : t.siblings none = before ++ id :: after) :
    t.preorder = before.flatMap t.subtree ++ t.subtree id ++ after.flatMap t.subtree := by
  simp [wf.preorder_eq, h]

theorem exists_subtree_eq_append (h : t.Within a id) (ha : t.contains a = true) :
    ∃ front back, t.subtree a = front ++ t.subtree id ++ back := by
  induction h with
  | self => exact ⟨[], [], by simp⟩
  | @attached id parent hplace hparent ih =>
      obtain ⟨front, back, hsplit⟩ := ih
      obtain ⟨before, after, hlist⟩ := List.append_of_mem (wf.mem_siblings.mpr hplace)
      refine ⟨front ++ parent :: before.flatMap t.subtree,
        after.flatMap t.subtree ++ back, ?_⟩
      rw [hsplit, wf.subtree_eq_of_siblings (hparent.contains ha) hlist]
      simp

theorem exists_preorder_eq_append (h : t.contains id = true) :
    ∃ front back, t.preorder = front ++ t.subtree id ++ back := by
  obtain ⟨n, hn⟩ := wf.grounded h
  obtain ⟨root, hroot, hwithin⟩ := hn.exists_root
  obtain ⟨before, after, hlist⟩ := List.append_of_mem (wf.mem_siblings.mpr hroot)
  obtain ⟨front, back, hsplit⟩ :=
    wf.exists_subtree_eq_append hwithin (contains_of_place? hroot)
  refine ⟨before.flatMap t.subtree ++ front, back ++ after.flatMap t.subtree, ?_⟩
  rw [wf.preorder_eq_of_siblings hlist, hsplit]
  simp

theorem exists_preorder_eq_of_siblings {before after : List ObjectId}
    (h : t.siblings place = before ++ id :: after) :
    ∃ front back, t.preorder = front ++ t.subtree id ++ (after.flatMap t.subtree ++ back) ∧
      (place = none → back = []) ∧
        ∀ p, place = some p → ∃ above, front = above ++ p :: before.flatMap t.subtree := by
  have hplace : t.place? id = some place := wf.mem_siblings.mp (by simp [h])
  cases place with
  | none =>
      exact ⟨before.flatMap t.subtree, [], by simpa using wf.preorder_eq_of_siblings h,
        fun _ => rfl, by simp⟩
  | some p =>
      have hp := wf.contains_parent hplace
      obtain ⟨front, back, hsplit⟩ := wf.exists_preorder_eq_append hp
      refine ⟨front ++ p :: before.flatMap t.subtree, back, ?_, by simp, ?_⟩
      · rw [hsplit, wf.subtree_eq_of_siblings hp h]
        simp
      · rintro q hq
        cases hq
        exact ⟨front, rfl⟩

/-- In a list that has the subtree of an object as a block, the object comes before everything else
that lies below it. -/
theorem idxOf_lt_of_eq_append {list front back : List ObjectId}
    (hsplit : list = front ++ t.subtree a ++ back) (hnodup : list.Nodup) (h : t.Within a id)
    (hne : a ≠ id) (ha : t.contains a = true) : list.idxOf a < list.idxOf id := by
  have hid : id ∈ (t.siblings (some a)).flatMap t.subtree := by
    have hmem := (wf.mem_subtree ha).mpr h
    rw [wf.subtree_eq ha] at hmem
    exact List.mem_of_ne_of_mem hne.symm hmem
  rw [wf.subtree_eq ha, List.append_assoc, List.cons_append] at hsplit
  obtain ⟨-, -, hdisjoint⟩ := List.nodup_append.mp (hsplit ▸ hnodup)
  have hafront : a ∉ front := fun hmem => hdisjoint a hmem a (by simp) rfl
  have hidfront : id ∉ front := fun hmem => hdisjoint id hmem id (by simp [hid]) rfl
  rw [hsplit, List.idxOf_append_of_notMem hafront, List.idxOf_append_of_notMem hidfront,
    List.idxOf_cons_self, List.idxOf_cons_ne _ hne]
  omega

theorem idxOf_lt_of_within (h : t.Within a id) (hne : a ≠ id) (ha : t.contains a = true) :
    t.preorder.idxOf a < t.preorder.idxOf id := by
  obtain ⟨front, back, hsplit⟩ := wf.exists_preorder_eq_append ha
  exact wf.idxOf_lt_of_eq_append hsplit wf.nodup_preorder h hne ha

theorem filter_subtree_child {child : ObjectId} (h : child ∈ t.siblings (some p)) :
    (t.subtree child).filter (fun x => t.place? x = some (some p)) = [child] := by
  have hplace := wf.mem_siblings.mp h
  have hchild := wf.contains_of_mem_siblings h
  have hnodup := wf.nodup_subtree hchild
  have hwithin : ∀ x ∈ t.subtree child, t.Within child x := fun x => (wf.mem_subtree hchild).mp
  rw [wf.subtree_eq hchild] at hnodup hwithin ⊢
  rw [List.filter_cons_of_pos (by simpa using hplace), List.cons_inj_right,
    List.filter_eq_nil_iff]
  intro x hx hxplace
  have hne : child ≠ x := by
    rintro rfl
    exact (List.nodup_cons.mp hnodup).1 hx
  exact wf.not_within_parent hplace
    ((hwithin x (List.mem_cons_of_mem _ hx)).parent hne (of_decide_eq_true hxplace))

/-- The objects of a subtree that are attached to one of them are the siblings below that one, in
their order. -/
theorem filter_subtree_eq_siblings (ha : t.contains a = true) (hp : t.Within a p) :
    (t.subtree a).filter (fun x => t.place? x = some (some p)) = t.siblings (some p) := by
  have hpresent : t.contains p = true := hp.contains ha
  obtain ⟨front, back, hsplit⟩ := wf.exists_subtree_eq_append hp ha
  obtain ⟨hfront, hback⟩ := notMem_block (hsplit ▸ wf.nodup_subtree ha)
  have helsewhere : ∀ list : List ObjectId, (∀ x ∈ list, x ∉ t.subtree p) →
      list.filter (fun x => t.place? x = some (some p)) = [] := by
    intro list hlist
    refine List.filter_eq_nil_iff.mpr fun x hx h => hlist x hx ?_
    exact (wf.mem_subtree hpresent).mpr (.of_place? (of_decide_eq_true h))
  have hself : t.place? p ≠ some (some p) := fun h => wf.not_within_parent h .self
  rw [hsplit, List.filter_append, List.filter_append,
    helsewhere front hfront, helsewhere back hback, wf.subtree_eq hpresent,
    List.filter_cons_of_neg (by simpa using hself), List.filter_flatMap,
    List.flatMap_congr fun child => wf.filter_subtree_child, List.flatMap_singleton']
  simp

theorem position?_eq_some_iff {index : Nat} (h : t.place? id = some place) :
    t.position? id = some index ↔ (t.siblings place)[index]? = some id := by
  unfold place? at h
  obtain ⟨entry, hentry, rfl⟩ := Option.map_eq_some_iff.mp h
  rw [position?, hentry]
  exact idxOf?_eq_some_iff_of_nodup (wf.nodup_siblings entry.parent)

end WellFormed

end Schematic.Table
