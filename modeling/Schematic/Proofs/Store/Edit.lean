import Mathlib.Logic.Relation
import Schematic.Proofs.Payload.Kept
import Schematic.Proofs.Store.Outcome
import Schematic.Proofs.Store.Preservation

/-!
`Edit` lists what can happen to a table at all, with everything that has been checked by then, and
every operation that succeeds is a chain of edits. An invariant of all tables has therefore to be
shown for the constructors of `Edit` alone.
-/

namespace Schematic

namespace Supply

def Remains (later earlier : Supply) : Prop :=
  earlier.nextId ≤ later.nextId ∧ earlier.nextStamp ≤ later.nextStamp

theorem Remains.refl (supply : Supply) : supply.Remains supply := ⟨Nat.le_refl _, Nat.le_refl _⟩

theorem Remains.trans {a b c : Supply} (h : a.Remains b) (h' : b.Remains c) : a.Remains c :=
  ⟨Nat.le_trans h'.1 h.1, Nat.le_trans h'.2 h.2⟩

theorem remains_mint (supply : Supply) : supply.mint.2.Remains supply :=
  ⟨Nat.le_succ _, Nat.le_refl _⟩

theorem remains_stamp (supply : Supply) : supply.stamp.2.Remains supply :=
  ⟨Nat.le_refl _, Nat.le_succ _⟩

/-- An identity that has been minted is not minted again. This and `Table.Sound.not_contains_mint`
are what any other way of making identities has to give. -/
theorem Remains.mint_ne {later supply : Supply} (h : later.Remains supply.mint.2) :
    later.mint.1 ≠ supply.mint.1 := by
  intro heq
  have hlt : supply.nextId < later.nextId := h.1
  exact absurd (congrArg ObjectId.value heq) (Nat.ne_of_gt hlt)

end Supply

namespace Placement

theorem rejectsParent_eq_false_iff {t : Table} (wf : t.WellFormed) {object : Option ObjectId}
    {p : ObjectId} :
    rejectsParent t object p = false ↔
      t.isContainer p = true ∧ ∀ id, object = some id → ¬ t.Within id p := by
  unfold rejectsParent
  cases object with
  | none => simp
  | some id =>
      simp only [Option.any_some, Bool.or_eq_false_iff, Bool.not_eq_false', Option.some.injEq,
        forall_eq', ← wf.isAncestorOrSelf_iff, Bool.not_eq_true]
      exact and_comm

/-- In a forest the check of a placement looks at three things: the object is there, its parent is a
container outside of what is moved, and the successor is attached to that parent. -/
theorem check_eq_ok_iff_of_wellFormed {t : Table} (wf : t.WellFormed) {object : Option ObjectId}
    {place : Placement} :
    place.check t object = .ok () ↔
      (∀ id, object = some id → t.contains id = true) ∧
      (∀ p, place.parent = some p →
        t.isContainer p = true ∧ ∀ id, object = some id → ¬ t.Within id p) ∧
      ∀ next, place.before = some next → t.place? next = some place.parent := by
  rw [check_eq_ok_iff, fault?_eq_none_iff]
  simp only [rejectsParent_eq_false_iff wf]
  constructor
  · rintro ⟨hobject, -, hnext, hparent, hsibling⟩
    refine ⟨hobject, hparent, fun next hbefore => ?_⟩
    obtain ⟨place', hplace'⟩ := Table.contains_iff.mp (hnext next hbefore)
    have hjoin := hsibling next hbefore
    rw [Table.parent?_eq, hplace', Option.join_some] at hjoin
    rw [hplace', hjoin]
  · rintro ⟨hobject, hparent, hnext⟩
    refine ⟨hobject, fun p hp => Table.contains_of_isContainer (hparent p hp).1,
      fun next hbefore => Table.contains_of_place? (hnext next hbefore), hparent,
      fun next hbefore => ?_⟩
    rw [Table.parent?_eq, hnext next hbefore, Option.join_some]

end Placement

namespace Table

variable {t : Table} {id : ObjectId} {place : Placement}

theorem WellFormed.move (wf : t.WellFormed) (hplace : place.check t (some id) = .ok ()) :
    (t.move id place).WellFormed := by
  obtain ⟨hid, hparent, -⟩ := (Placement.check_eq_ok_iff_of_wellFormed wf).mp hplace
  exact wf.relink (hid id rfl) fun p hp => ⟨(hparent p hp).1, (hparent p hp).2 id rfl⟩

end Table

/-- One step of work on a table, and on the supply from which all tables are fed. Copies are taken
from the table `source`. -/
inductive Edit (source : Table) : Table × Supply → Table × Supply → Prop
  | pass {t : Table} {supply later : Supply} (hlater : later.Remains supply) :
      Edit source (t, supply) (t, later)
  | add {t : Table} {supply : Supply} {place : Placement} {kept : Payload}
      (hplace : place.check t none = .ok ()) (hkept : kept.accept = .ok kept) :
      Edit source (t, supply)
        (t.insert ⟨supply.nextId⟩ ⟨supply.nextStamp, kept⟩ place.parent place.before,
          ⟨supply.nextId + 1, supply.nextStamp + 1⟩)
  | share {t : Table} {supply : Supply} {original : ObjectId} {entry : Entry}
      {parent : Option ObjectId} (hentry : source.get? original = some entry)
      (hparent : ∀ p, parent = some p → t.isContainer p = true) :
      Edit source (t, supply)
        (t.insert ⟨supply.nextId⟩ entry.state parent none, ⟨supply.nextId + 1, supply.nextStamp⟩)
  | write {t : Table} {supply : Supply} {id : ObjectId} {kept : Payload}
      (hid : t.contains id = true)
      (hkind : t.hasChildren id = true → kept.kind.isContainer = true)
      (hkept : kept.accept = .ok kept) :
      Edit source (t, supply)
        (t.setState id ⟨supply.nextStamp, kept⟩, ⟨supply.nextId, supply.nextStamp + 1⟩)
  | remove {t : Table} {supply : Supply} (id : ObjectId) :
      Edit source (t, supply) (t.removeSubtree id, supply)
  | move {t : Table} {supply : Supply} {id : ObjectId} {place : Placement}
      (hplace : place.check t (some id) = .ok ()) :
      Edit source (t, supply) (t.move id place, supply)

abbrev Edits (source : Table) : Table × Supply → Table × Supply → Prop :=
  Relation.ReflTransGen (Edit source)

/-- An instance that has been given out, for a payload that has been accepted. -/
structure ObjectState.Issued (state : ObjectState) (supply : Supply) : Prop where
  stamp_lt : state.stamp < supply.nextStamp
  accept_eq : state.payload.accept = .ok state.payload

theorem ObjectState.Issued.remains {state : ObjectState} {supply later : Supply}
    (h : state.Issued supply) (hlater : later.Remains supply) : state.Issued later where
  stamp_lt := Nat.lt_of_lt_of_le h.stamp_lt hlater.2
  accept_eq := h.accept_eq

namespace Table

/-- A table as it can come to be while `supply` is left: a forest of objects whose identities and
instances have been given out. -/
structure Sound (t : Table) (supply : Supply) : Prop where
  wellFormed : t.WellFormed
  minted : ∀ {id : ObjectId} {entry : Entry}, t.get? id = some entry → id.value < supply.nextId
  issued : ∀ {id : ObjectId} {entry : Entry}, t.get? id = some entry → entry.state.Issued supply

theorem sound_empty (supply : Supply) : empty.Sound supply where
  wellFormed := wellFormed_empty
  minted h := by simp [get?_empty] at h
  issued h := by simp [get?_empty] at h

namespace Sound

variable {t u : Table} {supply later : Supply}

theorem change (h : t.Sound supply) (hlater : later.Remains supply) (wf : u.WellFormed)
    (hget : ∀ {id entry}, u.get? id = some entry →
      id.value < later.nextId ∧ entry.state.Issued later ∨
        ∃ old, t.get? id = some old ∧ old.state = entry.state) : u.Sound later where
  wellFormed := wf
  minted hentry := by
    rcases hget hentry with ⟨hid, -⟩ | ⟨old, hold, -⟩
    · exact hid
    · exact Nat.lt_of_lt_of_le (h.minted hold) hlater.1
  issued hentry := by
    rcases hget hentry with ⟨-, hstate⟩ | ⟨old, hold, hstate⟩
    · exact hstate
    · exact hstate ▸ (h.issued hold).remains hlater

theorem remains (h : t.Sound supply) (hlater : later.Remains supply) : t.Sound later :=
  h.change hlater h.wellFormed fun hentry => .inr ⟨_, hentry, rfl⟩

theorem not_contains (h : t.Sound supply) {n : Nat} (hn : supply.nextId ≤ n) :
    t.contains ⟨n⟩ = false := by
  apply eq_false_of_ne_true
  intro hid
  obtain ⟨entry, hentry⟩ := Option.isSome_iff_exists.mp hid
  have hlt := h.minted hentry
  dsimp only at hlt
  omega

theorem not_contains_mint (h : t.Sound supply) (hlater : later.Remains supply) :
    t.contains later.mint.1 = false :=
  h.not_contains hlater.1

end Sound

end Table

namespace Edit

variable {source : Table} {a b : Table × Supply}

theorem remains (h : Edit source a b) : b.2.Remains a.2 := by
  cases h with
  | pass hlater => exact hlater
  | @add _ supply _ _ _ _ => exact supply.mint.2.remains_stamp.trans supply.remains_mint
  | share _ _ => exact Supply.remains_mint _
  | write _ _ _ => exact Supply.remains_stamp _
  | remove _ => exact .refl _
  | move _ => exact .refl _

theorem wellFormed (h : Edit source a b) (ha : a.1.WellFormed) (hnew : ∀ n, a.2.nextId ≤ n →
    a.1.contains ⟨n⟩ = false) : b.1.WellFormed := by
  cases h with
  | pass _ => exact ha
  | add hplace _ =>
      obtain ⟨-, hparent, -⟩ := (Placement.check_eq_ok_iff_of_wellFormed ha).mp hplace
      exact ha.insert (hnew _ (Nat.le_refl _)) fun p hp => (hparent p hp).1
  | share _ hparent => exact ha.insert (hnew _ (Nat.le_refl _)) hparent
  | write _ hkind _ => exact ha.setState hkind
  | remove id => exact ha.removeSubtree id
  | move hplace => exact ha.move hplace

/-- An edit brings in one new instance at most. Every other one was in the table before, or is
shared with the source by an object that is new. -/
theorem exists_instance (h : Edit source a b) :
    ∃ kept : Payload, ∀ {id : ObjectId} {entry : Entry}, b.1.get? id = some entry →
      (∃ old, a.1.get? id = some old ∧ old.state = entry.state) ∨
      (id.value < b.2.nextId ∧ ∃ original shared, source.get? original = some shared ∧
        shared.state = entry.state) ∨
      (id.value < b.2.nextId ∨ a.1.contains id = true) ∧ a.2.nextStamp < b.2.nextStamp ∧
        entry.state = ⟨a.2.nextStamp, kept⟩ ∧ kept.accept = .ok kept := by
  cases h with
  | pass _ => exact ⟨.blank .text, fun hentry => .inl ⟨_, hentry, rfl⟩⟩
  | @add t supply place kept hplace hkept =>
      refine ⟨kept, fun {id entry} hentry => ?_⟩
      rw [Table.get?_insert] at hentry
      split at hentry
      · rename_i hid
        cases hentry
        subst hid
        exact .inr (.inr ⟨.inl (Nat.lt_succ_self _), Nat.lt_succ_self _, rfl, hkept⟩)
      · exact .inl ⟨entry, hentry, rfl⟩
  | share hshared _ =>
      refine ⟨.blank .text, fun {id entry} hentry => ?_⟩
      rw [Table.get?_insert] at hentry
      split at hentry
      · rename_i hid
        cases hentry
        subst hid
        exact .inr (.inl ⟨Nat.lt_succ_self _, _, _, hshared, rfl⟩)
      · exact .inl ⟨entry, hentry, rfl⟩
  | @write t supply id kept hid _ hkept =>
      refine ⟨kept, fun {other entry} hentry => ?_⟩
      rw [Table.get?_setState] at hentry
      split at hentry
      · rename_i heq
        subst heq
        obtain ⟨old, -, rfl⟩ := Option.map_eq_some_iff.mp hentry
        exact .inr (.inr ⟨.inr hid, Nat.lt_succ_self _, rfl, hkept⟩)
      · exact .inl ⟨entry, hentry, rfl⟩
  | remove id =>
      refine ⟨.blank .text, fun {other entry} hentry => ?_⟩
      rw [Table.get?_removeSubtree] at hentry
      split at hentry
      · cases hentry
      · exact .inl ⟨entry, hentry, rfl⟩
  | @move t supply id place _ =>
      refine ⟨.blank .text, fun {other entry} hentry => ?_⟩
      rw [Table.move, Table.get?_relink] at hentry
      split at hentry
      · rename_i heq
        subst heq
        obtain ⟨old, hold, rfl⟩ := Option.map_eq_some_iff.mp hentry
        exact .inl ⟨old, hold, rfl⟩
      · exact .inl ⟨entry, hentry, rfl⟩

theorem sound (h : Edit source a b) (hsource : source.Sound a.2) (ha : a.1.Sound a.2) :
    b.1.Sound b.2 := by
  have hlater := h.remains
  obtain ⟨kept, hkept⟩ := h.exists_instance
  refine ha.change hlater (h.wellFormed ha.wellFormed fun n => ha.not_contains) ?_
  intro id entry hentry
  rcases hkept hentry with hold | ⟨hid, original, shared, hshared, hstate⟩ |
    ⟨hid, hlt, hstate, haccept⟩
  · exact .inr hold
  · exact .inl ⟨hid, hstate ▸ (hsource.issued hshared).remains hlater⟩
  · refine .inl ⟨?_, hstate ▸ ⟨hlt, haccept⟩⟩
    rcases hid with hid | hid
    · exact hid
    · obtain ⟨old, hold⟩ := Option.isSome_iff_exists.mp hid
      exact Nat.lt_of_lt_of_le (ha.minted hold) hlater.1

end Edit

namespace Edits

variable {source : Table} {a b : Table × Supply}

theorem remains (h : Edits source a b) : b.2.Remains a.2 := by
  induction h with
  | refl => exact .refl _
  | tail _ hedit ih => exact hedit.remains.trans ih

theorem sound (h : Edits source a b) (hsource : source.Sound a.2) (ha : a.1.Sound a.2) :
    b.1.Sound b.2 := by
  induction h with
  | refl => exact ha
  | tail hedits hedit ih => exact hedit.sound (hsource.remains (remains hedits)) ih

end Edits

/-! ### Operations as chains of edits -/

namespace Revision

variable {r next : Revision} {source t : Table} {supply left : Supply}

theorem edits_of_add {payload : Payload} {place : Placement} {id : ObjectId}
    (h : r.add supply payload place = .ok (id, next, left)) :
    Edits source (r.table, supply) (next.table, left) := by
  obtain ⟨-, hplace, kept, hkept, hresult⟩ := add_eq_ok_iff.mp h
  cases hresult
  exact .single (.add hplace (Payload.accept_of_accept hkept))

theorem edits_foldl_install {staged : List (ObjectId × Payload)}
    (h : ∀ change ∈ staged, t.contains change.1 = true ∧
      (t.hasChildren change.1 = true → change.2.kind.isContainer = true) ∧
        change.2.accept = .ok change.2) :
    Edits source (t, supply) (staged.foldl install (t, supply)) := by
  induction staged generalizing t supply with
  | nil => exact .refl
  | cons change staged ih =>
      obtain ⟨hid, hkind, hkept⟩ := h change List.mem_cons_self
      refine .head (.write hid hkind hkept) (ih fun other hother => ?_)
      obtain ⟨hid, hkind, hkept⟩ := h other (List.mem_cons_of_mem _ hother)
      refine ⟨?_, hkind, hkept⟩
      simpa [Table.contains_iff] using hid

theorem edits_of_write {updates : List (ObjectId × Payload)}
    (h : r.write supply updates = .ok (next, left)) :
    Edits source (r.table, supply) (next.table, left) := by
  obtain ⟨-, changes, hchanges, hresult⟩ := write_eq_ok_iff.mp h
  cases hresult
  apply edits_foldl_install
  intro change hchange
  obtain ⟨update, -, hvet⟩ := exists_of_mem_mapM hchanges (List.mem_filter.mp hchange).1
  obtain ⟨hid, hkind, heq, hkept⟩ := vet_eq_ok_iff.mp hvet
  refine ⟨heq ▸ hid, ?_, Payload.accept_of_accept hkept⟩
  rw [heq, (Payload.accept_eq_ok_iff.mp hkept).2, Payload.kind_normalize]
  exact hkind

theorem edits_of_delete {id : ObjectId} (h : r.delete id = .ok next) :
    Edits source (r.table, supply) (next.table, supply) := by
  obtain ⟨-, -, rfl⟩ := delete_eq_ok_iff.mp h
  exact .single (.remove id)

theorem edits_foldl_removeSubtree (ids : List ObjectId) :
    Edits source (t, supply) (ids.foldl Table.removeSubtree t, supply) := by
  induction ids generalizing t with
  | nil => exact .refl
  | cons id ids ih => exact .head (.remove id) ih

theorem edits_of_deleteSelected {sel : Selection} (h : r.deleteSelected sel = .ok next) :
    Edits source (r.table, supply) (next.table, supply) := by
  obtain ⟨-, rfl⟩ := deleteSelected_eq_ok_iff.mp h
  exact edits_foldl_removeSubtree _

theorem edits_of_relocate {id : ObjectId} {place : Placement}
    (h : r.relocate id place = .ok next) :
    Edits source (r.table, supply) (next.table, supply) := by
  obtain ⟨-, hplace, rfl⟩ := relocate_eq_ok_iff.mp h
  exact .single (.move hplace)

end Revision

end Schematic
