import Schematic.Proofs.Store.Move

namespace Schematic

namespace Placement

structure Present (t : Table) (object : Option ObjectId) (place : Placement) : Prop where
  object : ∀ id, object = some id → t.contains id = true
  parent : ∀ p, place.parent = some p → t.contains p = true
  before : ∀ next, place.before = some next → t.contains next = true

/-- An object may be attached to `p`, which is a component and no part of what is attached. -/
def Accepts (t : Table) (object : Option ObjectId) (p : ObjectId) : Prop :=
  (t.get? p).map Entry.kind = some .component ∧ ∀ id, object = some id → p ∉ t.subtree id

structure Admissible (t : Table) (object : Option ObjectId) (place : Placement) : Prop where
  present : place.Present t object
  accepts : ∀ p, place.parent = some p → Accepts t object p
  parent?_before : ∀ next, place.before = some next → t.parent? next = place.parent

/-- What is wrong with a placement: the first of these that applies. -/
inductive FirstFault (t : Table) (object : Option ObjectId) (place : Placement) :
    StoreError → Prop
  | absentObject {id : ObjectId} (hobject : object = some id) (habsent : t.contains id = false) :
      FirstFault t object place (.noSuchObject id)
  | absentParent {p : ObjectId} (hobject : ∀ id, object = some id → t.contains id = true)
      (hparent : place.parent = some p) (habsent : t.contains p = false) :
      FirstFault t object place (.noSuchParent p)
  | absentSuccessor {next : ObjectId} (hobject : ∀ id, object = some id → t.contains id = true)
      (hparent : ∀ p, place.parent = some p → t.contains p = true)
      (hbefore : place.before = some next) (habsent : t.contains next = false) :
      FirstFault t object place (.noSuchObject next)
  | wrongParent {p : ObjectId} (hpresent : place.Present t object)
      (hparent : place.parent = some p) (hwrong : ¬ Accepts t object p) :
      FirstFault t object place (.invalidParent p)
  | wrongSuccessor {next : ObjectId} (hpresent : place.Present t object)
      (haccepts : ∀ p, place.parent = some p → Accepts t object p)
      (hbefore : place.before = some next) (hwrong : t.parent? next ≠ place.parent) :
      FirstFault t object place (.notSibling next)

/-- `Performed t object place id u` says that the table `u` comes of a placement which is performed,
whether it may be or not. The object that is placed is `id`. -/
inductive Performed (t : Table) : Option ObjectId → Placement → ObjectId → Table → Prop
  | moved (id : ObjectId) (place : Placement) : Performed t (some id) place id (t.move id place)
  | added {id : ObjectId} (state : ObjectState) (place : Placement) (hid : t.contains id = false) :
      Performed t none place id (t.insert id state place.parent place.before)

variable {t u : Table} {object : Option ObjectId} {place : Placement} {id p x : ObjectId}
  {e : StoreError}

/-! ### The check -/

theorem accepts_iff (wf : t.WellFormed) (hobject : ∀ id, object = some id → t.contains id = true) :
    Accepts t object p ↔ t.isContainer p = true ∧ ∀ id, object = some id → ¬ t.Within id p := by
  have hkind : (t.get? p).map Entry.kind = some .component ↔ t.isContainer p = true := by
    unfold Table.isContainer
    cases t.get? p <;> simp [ObjectKind.isContainer]
  refine and_congr hkind (forall_congr' fun id => forall_congr' fun hid => ?_)
  rw [wf.mem_subtree (hobject id hid)]

theorem check_eq_ok_iff_admissible (wf : t.WellFormed) :
    place.check t object = .ok () ↔ place.Admissible t object := by
  rw [check_eq_ok_iff, fault?_eq_none_iff]
  constructor
  · rintro ⟨hobject, hparent, hbefore, haccepts, hsibling⟩
    refine ⟨⟨hobject, hparent, hbefore⟩, fun p hp => ?_, hsibling⟩
    exact (accepts_iff wf hobject).mpr ((rejectsParent_eq_false_iff wf).mp (haccepts p hp))
  · rintro ⟨⟨hobject, hparent, hbefore⟩, haccepts, hsibling⟩
    refine ⟨hobject, hparent, hbefore, fun p hp => ?_, hsibling⟩
    exact (rejectsParent_eq_false_iff wf).mpr ((accepts_iff wf hobject).mp (haccepts p hp))

theorem check_eq_error_iff : place.check t object = .error e ↔ place.fault? t object = some e := by
  unfold check
  split <;> simp_all

theorem rejectsParent_eq_true_iff (wf : t.WellFormed)
    (hobject : ∀ id, object = some id → t.contains id = true) :
    rejectsParent t object p = true ↔ ¬ Accepts t object p := by
  rw [accepts_iff wf hobject, ← rejectsParent_eq_false_iff wf, Bool.not_eq_false]

theorem check_eq_error_iff_firstFault (wf : t.WellFormed) :
    place.check t object = .error e ↔ place.FirstFault t object e := by
  rw [check_eq_error_iff]
  simp only [fault?, Option.orElse_eq_orElse, Option.orElse_eq_or, Option.or_eq_some_iff,
    Option.map_eq_some_iff, Option.map_eq_none_iff, Option.filter_eq_some_iff,
    Option.filter_eq_none_iff, Bool.not_eq_true', Bool.not_eq_false, bne_iff_ne, Bool.not_eq_true]
  constructor
  · rintro (⟨id, ⟨hid, habsent⟩, rfl⟩ | ⟨hobject, ⟨p, ⟨hp, habsent⟩, rfl⟩ | ⟨hparent, h⟩⟩)
    · exact .absentObject hid habsent
    · exact .absentParent hobject hp habsent
    · rcases h with ⟨next, ⟨hnext, habsent⟩, rfl⟩ |
        ⟨hbefore, ⟨p, ⟨hp, hrejects⟩, rfl⟩ | ⟨haccepts, next, ⟨hnext, hwrong⟩, rfl⟩⟩
      · exact .absentSuccessor hobject hparent hnext habsent
      · exact .wrongParent ⟨hobject, hparent, hbefore⟩ hp
          ((rejectsParent_eq_true_iff wf hobject).mp hrejects)
      · refine .wrongSuccessor ⟨hobject, hparent, hbefore⟩ (fun p hp => ?_) hnext hwrong
        exact (accepts_iff wf hobject).mpr ((rejectsParent_eq_false_iff wf).mp (haccepts p hp))
  · intro h
    cases h with
    | absentObject hid habsent => exact .inl ⟨_, ⟨hid, habsent⟩, rfl⟩
    | absentParent hobject hp habsent => exact .inr ⟨hobject, .inl ⟨_, ⟨hp, habsent⟩, rfl⟩⟩
    | absentSuccessor hobject hparent hnext habsent =>
        exact .inr ⟨hobject, .inr ⟨hparent, .inl ⟨_, ⟨hnext, habsent⟩, rfl⟩⟩⟩
    | wrongParent hpresent hp hwrong =>
        obtain ⟨hobject, hparent, hbefore⟩ := hpresent
        have hrejects := (rejectsParent_eq_true_iff wf hobject).mpr hwrong
        exact .inr ⟨hobject, .inr ⟨hparent, .inr ⟨hbefore, .inl ⟨_, ⟨hp, hrejects⟩, rfl⟩⟩⟩⟩
    | wrongSuccessor hpresent haccepts hnext hwrong =>
        obtain ⟨hobject, hparent, hbefore⟩ := hpresent
        refine .inr ⟨hobject, .inr ⟨hparent, .inr ⟨hbefore, .inr ⟨fun p hp => ?_, _,
          ⟨hnext, hwrong⟩, rfl⟩⟩⟩⟩
        exact (rejectsParent_eq_false_iff wf).mpr ((accepts_iff wf hobject).mp (haccepts p hp))

/-! ### The table that comes of it -/

namespace Performed

theorem get?_state (h : Performed t object place id u) (hx : x ≠ id) :
    (u.get? x).map Entry.state = (t.get? x).map Entry.state := by
  cases h with
  | moved id place | added state place hid => simp [hx.symm]

theorem place?_of_ne (h : Performed t object place id u) (hx : x ≠ id) :
    u.place? x = t.place? x := by
  cases h with
  | moved id place | added state place hid => simp [Table.place?, hx.symm]

theorem mem_siblings (h : Performed t object place id u) : id ∈ u.siblings place.parent := by
  cases h with
  | moved id place | added state place hid => simp [Table.move, Table.mem_insertBefore]

theorem mem_siblings_iff_of_ne (h : Performed t object place id u) (wf : t.WellFormed)
    (hx : x ≠ id) (other : Option ObjectId) : x ∈ u.siblings other ↔ x ∈ t.siblings other := by
  cases h with
  | moved id place =>
      rw [wf.siblings_move]
      split <;> simp [Table.mem_insertBefore, hx]
  | added state place hid =>
      rw [Table.siblings_insert]
      split
      · rename_i hother
        simp [Table.mem_insertBefore, hx, hother]
      · rfl

theorem within (h : Performed t object place id u) (hx : t.Within id x) : u.Within id x := by
  induction hx with
  | self => exact .self
  | @attached x p hplace _ ih =>
      by_cases hxid : x = id
      · exact hxid ▸ .self
      · exact .attached ((h.place?_of_ne hxid).trans hplace) ih

theorem wellFormed (h : Performed t object place id u) (wf : t.WellFormed)
    (hplace : place.check t object = .ok ()) : u.WellFormed := by
  cases h with
  | moved id place => exact wf.move hplace
  | added state place hid =>
      obtain ⟨-, hparent, -⟩ := (check_eq_ok_iff_of_wellFormed wf).mp hplace
      exact wf.insert hid fun p hp => (hparent p hp).1

/-- A placement that leaves a forest has put something that was there, or was new, below a container
that is no part of it. -/
theorem check_of_wellFormed (h : Performed t object place id u) (wf : t.WellFormed)
    (hu : u.WellFormed)
    (hbefore : ∀ next, place.before = some next → next ∈ t.siblings place.parent) :
    place.check t object = .ok () := by
  have hid : u.place? id = some place.parent := hu.mem_siblings.mp h.mem_siblings
  refine (check_eq_ok_iff_of_wellFormed wf).mpr ⟨?_, fun p hp => ?_, fun next hnext =>
    wf.mem_siblings.mp (hbefore next hnext)⟩
  · cases h with
    | moved id place =>
        intro id' hid'
        cases hid'
        obtain ⟨entry, hentry⟩ := Option.isSome_iff_exists.mp (Table.contains_of_place? hid)
        simp only [Table.get?_move, if_true] at hentry
        obtain ⟨old, hold, -⟩ := Option.map_eq_some_iff.mp hentry
        exact Option.isSome_iff_exists.mpr ⟨old, hold⟩
    | added state place hid' =>
        intro id' hid'
        cases hid'
  · rw [hp] at hid
    have hout : ¬ u.Within id p := hu.not_within_parent hid
    have hne : p ≠ id := by
      rintro rfl
      exact hout .self
    refine ⟨?_, fun id' hobject hwithin => ?_⟩
    · rw [← hu.isContainer hid]
      exact (Table.isContainer_eq_of_state (h.get?_state hne)).symm
    · cases h with
      | moved id place =>
          cases hobject
          exact hout (Performed.within (.moved id place) hwithin)
      | added state place hid' => cases hobject

/-- A placement is accepted if performing it leaves a forest and its successor is in the list that
the object is put into. -/
theorem check_eq_ok_iff (h : Performed t object place id u) (wf : t.WellFormed) :
    place.check t object = .ok () ↔
      u.WellFormed ∧ ∀ next, place.before = some next → next ∈ t.siblings place.parent := by
  constructor
  · intro hplace
    refine ⟨h.wellFormed wf hplace, fun next hnext => ?_⟩
    obtain ⟨-, -, hsibling⟩ := (check_eq_ok_iff_of_wellFormed wf).mp hplace
    exact wf.mem_siblings.mpr (hsibling next hnext)
  · rintro ⟨hu, hbefore⟩
    exact h.check_of_wellFormed wf hu hbefore

end Performed

end Placement

end Schematic
