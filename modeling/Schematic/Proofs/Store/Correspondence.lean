import Schematic.Proofs.Store.Preorder

namespace Schematic.Table

/-- What is not kept in view takes everything below it out of view. -/
def HidesBelow (t : Table) (keep : ObjectId → Bool) : Prop :=
  ∀ x y, t.Within x y → keep x = false → keep y = false

theorem descend_congr {t u : Table} (h : u.children = t.children) (bound : Nat) (id : ObjectId) :
    u.descend bound id = t.descend bound id := by
  induction bound generalizing id with
  | zero => rfl
  | succ bound ih =>
      rw [descend, descend, siblings, h, ← siblings]
      exact congrArg _ (List.flatMap_congr fun child _ => ih child)

theorem preorder_congr {t u : Table} (h : u.children = t.children) : u.preorder = t.preorder := by
  rw [preorder, preorder, siblings, depthBound, h, ← siblings, ← depthBound]
  exact List.flatMap_congr fun root _ => descend_congr h _ root

namespace WellFormed

variable {t u : Table} {a : ObjectId} {keep : ObjectId → Bool}

theorem hidesBelow_subtree (wf : t.WellFormed) (id : ObjectId) :
    t.HidesBelow fun x => !(t.subtree id).elem x := by
  intro x y h hx
  simp only [Bool.not_eq_false', List.elem_eq_mem, decide_eq_true_eq] at hx ⊢
  exact wf.mem_subtree_of_within h hx

theorem filter_flatMap_subtree (wf : t.WellFormed) (hdown : t.HidesBelow keep)
    {list : List ObjectId} (h : ∀ x ∈ list, t.contains x = true) :
    (list.flatMap t.subtree).filter keep =
      (list.filter keep).flatMap fun x => (t.subtree x).filter keep := by
  induction list with
  | nil => rfl
  | cons x list ih =>
      rw [List.flatMap_cons, List.filter_append, ih fun y hy => h y (List.mem_cons_of_mem _ hy),
        List.filter_cons]
      split
      · rfl
      · rename_i hkeep
        have hgone : (t.subtree x).filter keep = [] := by
          apply List.filter_eq_nil_iff.mpr
          intro y hy
          have hwithin := (wf.mem_subtree (h x List.mem_cons_self)).mp hy
          simp [hdown x y hwithin (eq_false_of_ne_true hkeep)]
        rw [hgone, List.nil_append]

variable (wf : t.WellFormed) (wf' : u.WellFormed)

include wf wf'

theorem subtree_map {f : ObjectId → ObjectId} (ha : t.contains a = true)
    (hfa : u.contains (f a) = true)
    (h : ∀ x, t.Within a x → u.siblings (some (f x)) = (t.siblings (some x)).map f) :
    u.subtree (f a) = (t.subtree a).map f := by
  induction a, ha using wf.downward with
  | step a ha ih =>
      have hself := h a .self
      rw [wf'.subtree_eq hfa, wf.subtree_eq ha, hself, List.map_cons, List.flatMap_map,
        List.map_flatMap]
      congr 1
      apply List.flatMap_congr
      intro child hchild
      have hmem : f child ∈ u.siblings (some (f a)) := by
        rw [hself]
        exact List.mem_map_of_mem hchild
      refine ih child hchild (wf'.contains_of_mem_siblings hmem) fun x hx => h x ?_
      exact (Within.of_place? (wf.mem_siblings.mp hchild)).trans hx

theorem subtree_congr (ha : t.contains a = true) (ha' : u.contains a = true)
    (h : ∀ x, t.Within a x → u.siblings (some x) = t.siblings (some x)) :
    u.subtree a = t.subtree a := by
  have hmap := wf.subtree_map wf' (f := id) ha ha' fun x hx => by rw [List.map_id]; exact h x hx
  rwa [List.map_id] at hmap

variable (hdown : t.HidesBelow keep) (hdown' : u.HidesBelow keep)

include hdown hdown'

theorem filter_subtree_congr (ha : t.contains a = true) (ha' : u.contains a = true)
    (hlists : ∀ x, keep x = true →
      (t.siblings (some x)).filter keep = (u.siblings (some x)).filter keep)
    (hkeep : keep a = true) : (t.subtree a).filter keep = (u.subtree a).filter keep := by
  induction a, ha using wf.downward with
  | step a ha ih =>
      rw [wf.subtree_eq ha, wf'.subtree_eq ha', List.filter_cons_of_pos hkeep,
        List.filter_cons_of_pos hkeep,
        wf.filter_flatMap_subtree hdown fun x => wf.contains_of_mem_siblings,
        wf'.filter_flatMap_subtree hdown' fun x => wf'.contains_of_mem_siblings, ← hlists a hkeep]
      congr 1
      apply List.flatMap_congr
      intro child hchild
      have hchild' : child ∈ (u.siblings (some a)).filter keep := hlists a hkeep ▸ hchild
      exact ih child (List.mem_of_mem_filter hchild)
        (wf'.contains_of_mem_siblings (List.mem_of_mem_filter hchild')) (List.of_mem_filter hchild)

theorem filter_preorder_congr
    (hlists : ∀ place : Option ObjectId, (∀ x, place = some x → keep x = true) →
      (t.siblings place).filter keep = (u.siblings place).filter keep) :
    t.preorder.filter keep = u.preorder.filter keep := by
  have htop := hlists none (by simp)
  rw [wf.preorder_eq, wf'.preorder_eq,
    wf.filter_flatMap_subtree hdown fun x => wf.contains_of_mem_siblings,
    wf'.filter_flatMap_subtree hdown' fun x => wf'.contains_of_mem_siblings, ← htop]
  apply List.flatMap_congr
  intro root hroot
  have hroot' : root ∈ (u.siblings none).filter keep := htop ▸ hroot
  exact wf.filter_subtree_congr wf' hdown hdown'
    (wf.contains_of_mem_siblings (List.mem_of_mem_filter hroot))
    (wf'.contains_of_mem_siblings (List.mem_of_mem_filter hroot'))
    (fun x hx => hlists (some x) (by simpa using hx)) (List.of_mem_filter hroot)

end WellFormed

end Schematic.Table
