import Mathlib.Data.List.Nodup
import Mathlib.Data.List.Perm.Subperm
import Mathlib.Data.Option.Basic
import Schematic.Store.Lookup

/-!
A table records each attachment twice, as the parent in an entry and as a place in a list, and
nothing in it rules out circles. `WellFormed` says when the two records agree and every object hangs
below the top level.
-/

namespace Schematic.Table

/-- The list that an object which is present belongs to, named by its parent. -/
def place? (t : Table) (id : ObjectId) : Option (Option ObjectId) := (t.get? id).map Entry.parent

inductive AtDepth (t : Table) : Nat → ObjectId → Prop
  | top {id : ObjectId} (hplace : t.place? id = some none) : AtDepth t 0 id
  | attached {n : Nat} {id parent : ObjectId} (hplace : t.place? id = some (some parent))
      (hparent : AtDepth t n parent) : AtDepth t (n + 1) id

/-- `t.Within a id` says that `id` is `a` or is attached to it, directly or through others. -/
inductive Within (t : Table) (a : ObjectId) : ObjectId → Prop
  | self : Within t a a
  | attached {id parent : ObjectId} (hplace : t.place? id = some (some parent))
      (hparent : Within t a parent) : Within t a id

/-- The entries and the lists of a table describe the same forest, in which only containers have
something attached to them. -/
structure WellFormed (t : Table) : Prop where
  isContainer : ∀ {id parent : ObjectId}, t.place? id = some (some parent) →
    t.isContainer parent = true
  grounded : ∀ {id : ObjectId}, t.contains id = true → ∃ n, t.AtDepth n id
  mem_siblings : ∀ {id : ObjectId} {place : Option ObjectId},
    id ∈ t.siblings place ↔ t.place? id = some place
  nodup_siblings : ∀ place, (t.siblings place).Nodup
  children_ne_nil : ∀ place : Option ObjectId, t.children[place]? ≠ some []

variable {t : Table} {a b id p : ObjectId} {m n : Nat}

theorem contains_iff : t.contains id = true ↔ ∃ place, t.place? id = some place := by
  simp [contains, place?, Option.isSome_iff_exists]

theorem contains_of_place? {place : Option ObjectId} (h : t.place? id = some place) :
    t.contains id = true :=
  contains_iff.mpr ⟨place, h⟩

theorem place?_of_get? {entry : Entry} (h : t.get? id = some entry) :
    t.place? id = some entry.parent := by
  rw [place?, h, Option.map_some]

theorem contains_of_isContainer (h : t.isContainer id = true) : t.contains id = true := by
  unfold isContainer at h
  unfold contains
  cases hget : t.get? id with
  | none => simp [hget] at h
  | some entry => rfl

theorem parent?_eq (t : Table) (id : ObjectId) : t.parent? id = (t.place? id).join := by
  unfold parent? place?
  cases t.get? id <;> rfl

theorem parent?_eq_some_iff : t.parent? id = some p ↔ t.place? id = some (some p) := by
  rw [parent?_eq, Option.join_eq_some_iff]

/-! ### Depth -/

namespace AtDepth

theorem contains (h : t.AtDepth n id) : t.contains id = true := by
  cases h with
  | top hplace => exact contains_of_place? hplace
  | attached hplace _ => exact contains_of_place? hplace

theorem unique (h : t.AtDepth m id) (h' : t.AtDepth n id) : m = n := by
  induction h generalizing n with
  | top hplace =>
      cases h' with
      | top _ => rfl
      | attached hplace' _ => simp [hplace] at hplace'
  | attached hplace _ ih =>
      cases h' with
      | top hplace' => simp [hplace] at hplace'
      | attached hplace' hparent' =>
          simp only [hplace, Option.some.injEq] at hplace'
          subst hplace'
          rw [ih hparent']

/-- The objects met on the way up from an object are as many as its depth says, and each has
something attached to it. -/
theorem exists_ancestors (h : t.AtDepth n id) :
    ∃ above : List ObjectId, above.length = n ∧ above.Nodup ∧
      (∀ a ∈ above, ∃ k < n, t.AtDepth k a) ∧
        ∀ a ∈ above, ∃ child, t.place? child = some (some a) := by
  induction h with
  | top hplace => exact ⟨[], rfl, .nil, by simp, by simp⟩
  | @attached n id parent hplace hparent ih =>
      obtain ⟨above, hlength, hnodup, hdepth, hchild⟩ := ih
      have hnew : parent ∉ above := by
        intro hmem
        obtain ⟨k, hk, hk'⟩ := hdepth parent hmem
        have := hk'.unique hparent
        omega
      refine ⟨parent :: above, by simp [hlength], List.nodup_cons.mpr ⟨hnew, hnodup⟩, ?_, ?_⟩
      · intro a ha
        rcases List.mem_cons.mp ha with rfl | ha
        · exact ⟨n, by omega, hparent⟩
        · obtain ⟨k, hk, hk'⟩ := hdepth a ha
          exact ⟨k, by omega, hk'⟩
      · intro a ha
        rcases List.mem_cons.mp ha with rfl | ha
        · exact ⟨id, hplace⟩
        · exact hchild a ha

theorem lt_size (h : t.AtDepth n id) : n < t.size := by
  obtain ⟨above, hlength, hnodup, hdepth, -⟩ := h.exists_ancestors
  have hnew : id ∉ above := by
    intro hmem
    obtain ⟨k, hk, hk'⟩ := hdepth id hmem
    have := hk'.unique h
    omega
  have hsub : id :: above ⊆ t.entries.keys := by
    intro a ha
    have hcontains : t.contains a = true := by
      rcases List.mem_cons.mp ha with rfl | ha
      · exact h.contains
      · obtain ⟨k, -, hk⟩ := hdepth a ha
        exact hk.contains
    rw [Std.ExtTreeMap.mem_keys, Std.ExtTreeMap.mem_iff_isSome_getElem?]
    exact hcontains
  have hle := (List.subperm_of_subset (List.nodup_cons.mpr ⟨hnew, hnodup⟩) hsub).length_le
  rw [List.length_cons, hlength, Std.ExtTreeMap.length_keys] at hle
  exact hle

end AtDepth

/-! ### What lies below an object -/

namespace Within

theorem trans (h : t.Within a b) (h' : t.Within b id) : t.Within a id := by
  induction h' with
  | self => exact h
  | attached hplace _ ih => exact .attached hplace ih

theorem of_place? (h : t.place? id = some (some p)) : t.Within p id :=
  .attached h .self

theorem eq_of_not_contains (h : t.Within a id) (habsent : t.contains id = false) : a = id := by
  cases h with
  | self => rfl
  | attached hplace _ => simp [contains_of_place? hplace] at habsent

theorem parent (h : t.Within a id) (hne : a ≠ id) (hplace : t.place? id = some (some p)) :
    t.Within a p := by
  cases h with
  | self => exact absurd rfl hne
  | attached hplace' hparent =>
      rw [hplace] at hplace'
      cases hplace'
      exact hparent

theorem eq_of_top (h : t.Within a id) (hplace : t.place? id = some none) : a = id := by
  cases h with
  | self => rfl
  | attached hplace' _ => simp [hplace] at hplace'

theorem depth_le (h : t.Within a id) (ha : t.AtDepth m a) (hid : t.AtDepth n id) :
    m ≤ n ∧ (m = n → a = id) := by
  induction h generalizing n with
  | self => exact ⟨Nat.le_of_eq (ha.unique hid), fun _ => rfl⟩
  | attached hplace hparent ih =>
      cases hid with
      | top hplace' => simp [hplace] at hplace'
      | attached hplace' hdepth =>
          simp only [hplace, Option.some.injEq] at hplace'
          subst hplace'
          have hle := (ih hdepth).1
          exact ⟨by omega, fun h => absurd h (by omega)⟩

/-- Two objects that a third one lies below lie one below the other. -/
theorem comparable (h : t.Within a id) (h' : t.Within b id) : t.Within a b ∨ t.Within b a := by
  induction h with
  | self => exact .inr h'
  | @attached id parent hplace hparent ih =>
      by_cases hb : b = id
      · exact .inl (hb ▸ .attached hplace hparent)
      · exact ih (h'.parent hb hplace)

end Within

namespace WellFormed

variable (wf : t.WellFormed)

include wf

theorem contains_parent (h : t.place? id = some (some p)) : t.contains p = true :=
  contains_of_isContainer (wf.isContainer h)

theorem contains_of_mem_siblings {place : Option ObjectId} (h : id ∈ t.siblings place) :
    t.contains id = true :=
  contains_of_place? (wf.mem_siblings.mp h)

theorem hasChildren_iff : t.hasChildren id = true ↔ ∃ child, t.parent? child = some id := by
  simp only [parent?_eq_some_iff, ← wf.mem_siblings]
  rw [hasChildren, Bool.not_eq_true', List.isEmpty_eq_false_iff_exists_mem]

theorem isContainer_of_hasChildren (h : t.hasChildren id = true) : t.isContainer id = true := by
  obtain ⟨child, hchild⟩ := wf.hasChildren_iff.mp h
  exact wf.isContainer (parent?_eq_some_iff.mp hchild)

theorem contains_of_within (h : t.Within a id) (hid : t.contains id = true) :
    t.contains a = true := by
  induction h with
  | self => exact hid
  | attached hplace _ ih => exact ih (wf.contains_parent hplace)

theorem antisymm (h : t.Within a b) (h' : t.Within b a) (ha : t.contains a = true) : a = b := by
  obtain ⟨m, hm⟩ := wf.grounded ha
  obtain ⟨n, hn⟩ := wf.grounded (wf.contains_of_within h' ha)
  exact (h.depth_le hm hn).2 (Nat.le_antisymm (h.depth_le hm hn).1 (h'.depth_le hn hm).1)

theorem not_within_parent (h : t.place? id = some (some p)) : ¬ t.Within id p := by
  intro hdown
  have hid := contains_of_place? h
  have heq : id = p := wf.antisymm hdown (.of_place? h) hid
  obtain ⟨n, hn⟩ := wf.grounded hid
  cases hn with
  | top hplace => simp [h] at hplace
  | attached hplace hdepth =>
      rw [h] at hplace
      cases hplace
      have := hdepth.unique (heq ▸ hdepth.attached h)
      omega

theorem eq_of_within_of_place? {place : Option ObjectId} (ha : t.place? a = some place)
    (hb : t.place? b = some place) (h : t.Within a b) : a = b := by
  cases place with
  | none => exact h.eq_of_top hb
  | some parent =>
      by_contra hne
      exact wf.not_within_parent ha (h.parent hne hb)

theorem eq_of_within_siblings {place : Option ObjectId} (ha : t.place? a = some place)
    (hb : t.place? b = some place) (h : t.Within a id) (h' : t.Within b id) : a = b := by
  rcases h.comparable h' with hab | hba
  · exact wf.eq_of_within_of_place? ha hb hab
  · exact (wf.eq_of_within_of_place? hb ha hba).symm

/-! ### Bounds of walks -/

theorem depth_le_size_children (h : t.AtDepth n id) : n ≤ t.children.size := by
  obtain ⟨above, rfl, hnodup, -, hchild⟩ := h.exists_ancestors
  have hsub : above.map some ⊆ t.children.keys := by
    intro place hplace
    obtain ⟨a, ha, rfl⟩ := List.mem_map.mp hplace
    obtain ⟨child, hchild⟩ := hchild a ha
    have hmem := wf.mem_siblings.mpr hchild
    rw [Std.ExtTreeMap.mem_keys, Std.ExtTreeMap.mem_iff_isSome_getElem?]
    unfold siblings at hmem
    cases hlist : t.children[some a]? with
    | none => simp [hlist] at hmem
    | some list => rfl
  have hle := (List.subperm_of_subset (hnodup.map (Option.some_injective _)) hsub).length_le
  simpa [Std.ExtTreeMap.length_keys] using hle

end WellFormed

/-! ### The walk up -/

theorem within_of_mem_climb (h : a ∈ t.climb n id) : t.Within a id := by
  induction n generalizing id with
  | zero => simp [climb] at h
  | succ n ih =>
      rcases List.mem_cons.mp h with rfl | h
      · exact .self
      · cases hparent : t.parent? id with
        | none => simp [hparent] at h
        | some parent =>
            rw [hparent] at h
            exact .attached (parent?_eq_some_iff.mp hparent) (ih h)

theorem mem_climb_of_within (h : t.Within a id) (hid : t.AtDepth m id) (hlt : m < n) :
    a ∈ t.climb n id := by
  induction h generalizing m n with
  | self =>
      cases n with
      | zero => omega
      | succ n => exact List.mem_cons_self
  | attached hplace _ ih =>
      cases hid with
      | top hplace' => simp [hplace] at hplace'
      | attached hplace' hparent =>
          rw [hplace] at hplace'
          cases hplace'
          cases n with
          | zero => omega
          | succ n =>
              have hup := ih hparent (Nat.lt_of_succ_lt_succ hlt)
              simp [climb, parent?_eq_some_iff.mpr hplace, hup]

/-- The walk up from an object, present or not, meets what the object lies below. -/
theorem WellFormed.isAncestorOrSelf_iff (wf : t.WellFormed) :
    t.isAncestorOrSelf a id = true ↔ t.Within a id := by
  unfold isAncestorOrSelf lineage
  rw [List.contains_iff_mem]
  constructor
  · exact within_of_mem_climb
  · intro h
    by_cases hid : t.contains id = true
    · obtain ⟨m, hm⟩ := wf.grounded hid
      exact mem_climb_of_within h hm (Nat.lt_succ_of_lt (hm.lt_size))
    · rw [h.eq_of_not_contains (eq_false_of_ne_true hid)]
      exact List.mem_cons_self

theorem WellFormed.mem_tail_lineage_iff (wf : t.WellFormed) :
    a ∈ (t.lineage id).tail ↔ t.Within a id ∧ a ≠ id := by
  constructor
  · intro h
    rw [lineage, climb, List.tail_cons] at h
    cases hparent : t.parent? id with
    | none => simp [hparent] at h
    | some parent =>
        rw [hparent] at h
        have hplace := parent?_eq_some_iff.mp hparent
        have hup : t.Within a parent := within_of_mem_climb h
        refine ⟨.attached hplace hup, ?_⟩
        rintro rfl
        exact wf.not_within_parent hplace hup
  · rintro ⟨h, hne⟩
    have hmem : a ∈ t.lineage id := List.contains_iff_mem.mp (wf.isAncestorOrSelf_iff.mpr h)
    exact List.mem_of_ne_of_mem hne hmem

end Schematic.Table
