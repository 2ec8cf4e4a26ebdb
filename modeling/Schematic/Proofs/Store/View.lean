import Schematic.Proofs.Store.Outcome
import Schematic.Proofs.Store.Preservation
import Schematic.Store.Difference

namespace Schematic

abbrev Shown := ObjectState × Option ObjectId × Nat

namespace Revision

def view (r : Revision) (id : ObjectId) : Option Shown :=
  (r.state? id).bind fun state => (r.location? id).map fun location => (state, location)

variable {r r' source target : Revision} {id : ObjectId}

theorem contains_iff_exists_state? :
    r.contains id = true ↔ ∃ state, r.state? id = some state := by
  rw [← Option.isSome_iff_exists, state?, Option.isSome_map]
  rfl

theorem view_eq_some_iff (wf : r.table.WellFormed) {state : ObjectState}
    {place : Option ObjectId} {index : Nat} :
    r.view id = some (state, place, index) ↔
      r.table.get? id = some ⟨state, place⟩ ∧ (r.attachedTo place)[index]? = some id := by
  have hlocation := @Table.WellFormed.location?_eq_some_iff r wf id place index
  rw [view, Option.bind_eq_some_iff]
  constructor
  · rintro ⟨state', hstate, hmap⟩
    obtain ⟨location, hplace, heq⟩ := Option.map_eq_some_iff.mp hmap
    cases heq
    obtain ⟨entry, hentry, rfl⟩ := Option.map_eq_some_iff.mp hstate
    obtain ⟨hparent, hindex⟩ := hlocation.mp hplace
    rw [Table.place?_of_get? hentry, Option.some.injEq] at hparent
    subst hparent
    exact ⟨hentry, hindex⟩
  · rintro ⟨hentry, hindex⟩
    have hplace := hlocation.mpr ⟨Table.place?_of_get? hentry, hindex⟩
    refine ⟨state, ?_, by rw [hplace, Option.map_some]⟩
    rw [state?, hentry, Option.map_some]

theorem view_eq_none (hid : r.contains id = false) : r.view id = none := by
  have hstate : r.state? id = none := by
    rw [← Option.not_isSome_iff_eq_none, state?, Option.isSome_map]
    exact Bool.eq_false_iff.mp hid
  rw [view, hstate, Option.bind_none]

/-- A list can be read off a view: the object at an index is the one that is shown there. -/
theorem getElem?_attachedTo_iff (wf : r.table.WellFormed) {place : Option ObjectId} {index : Nat} :
    (r.attachedTo place)[index]? = some id ↔ ∃ state, r.view id = some (state, place, index) := by
  simp only [view_eq_some_iff wf]
  constructor
  · intro hindex
    have hmem : id ∈ r.table.siblings place := List.mem_of_getElem? hindex
    obtain ⟨⟨state, parent⟩, hentry, rfl⟩ := Option.map_eq_some_iff.mp (wf.mem_siblings.mp hmem)
    exact ⟨state, hentry, hindex⟩
  · rintro ⟨state, -, hindex⟩
    exact hindex

theorem table_eq_of_view_eq (wf : r.table.WellFormed) (wf' : r'.table.WellFormed)
    (h : r.view = r'.view) : r.table = r'.table := by
  refine wf.ext wf' (fun id => ?_) fun place => ?_
  · have hentry : ∀ {r r' : Revision}, r.table.WellFormed → r'.table.WellFormed →
        r.view = r'.view → ∀ {entry}, r.table.get? id = some entry →
          r'.table.get? id = some entry := by
      rintro r r' wf wf' h ⟨state, place⟩ hentry
      have hmem := wf.mem_siblings.mpr (Table.place?_of_get? hentry)
      obtain ⟨index, hindex⟩ := List.getElem?_of_mem hmem
      have hview := (view_eq_some_iff wf).mpr ⟨hentry, hindex⟩
      rw [h] at hview
      exact ((view_eq_some_iff wf').mp hview).1
    exact Option.ext fun entry => ⟨hentry wf wf' h, hentry wf' wf h.symm⟩
  · apply List.ext_getElem?
    intro index
    apply Option.ext
    intro id
    change (r.attachedTo place)[index]? = some id ↔ (r'.attachedTo place)[index]? = some id
    rw [getElem?_attachedTo_iff wf, getElem?_attachedTo_iff wf', h]

end Revision

/-! ### Differences -/

namespace Difference

variable {source target : Revision} {id : ObjectId}

theorem mem_added_iff (wf : target.table.WellFormed) :
    id ∈ (between source target).added ↔
      target.contains id = true ∧ source.contains id = false := by
  rw [between, List.mem_filter, Revision.objects, wf.mem_preorder, Bool.not_eq_true']
  rfl

theorem mem_removed_iff (wf : source.table.WellFormed) :
    id ∈ (between source target).removed ↔
      source.contains id = true ∧ target.contains id = false :=
  mem_added_iff wf

theorem isModified_iff :
    source.isModified target id = true ↔ ∃ old new, source.state? id = some old ∧
      target.state? id = some new ∧
        (old.stamp ≠ new.stamp ∨ source.location? id ≠ target.location? id) := by
  unfold Revision.isModified
  cases source.state? id <;> cases target.state? id <;> simp

theorem mem_modified_iff (wf : target.table.WellFormed) :
    id ∈ (between source target).modified ↔ ∃ old new, source.state? id = some old ∧
      target.state? id = some new ∧
        (old.stamp ≠ new.stamp ∨ source.location? id ≠ target.location? id) := by
  rw [between, List.mem_filter, isModified_iff, and_iff_right_iff_imp]
  rintro ⟨old, new, -, hnew, -⟩
  exact wf.mem_preorder.mpr (Revision.contains_iff_exists_state?.mpr ⟨new, hnew⟩)

/-- Bring a view up to date: take out what has been removed, and look again at what has been added
or modified. -/
def refresh (d : Difference) (target : Revision) (view : ObjectId → Option Shown)
    (id : ObjectId) : Option Shown :=
  if id ∈ d.added ++ d.modified then target.view id
  else if id ∈ d.removed then none
  else view id

/-- A view that is refreshed shows the target, as long as stamps tell instances apart. -/
theorem refresh_between (wf : source.table.WellFormed) (wf' : target.table.WellFormed)
    (hstamp : ∀ id old new, source.state? id = some old → target.state? id = some new →
      old.stamp = new.stamp → old = new) :
    (between source target).refresh target source.view = target.view := by
  funext id
  unfold refresh
  split
  · rfl
  · rename_i hkept
    simp only [List.mem_append, not_or, mem_added_iff wf', mem_modified_iff wf', not_and,
      Bool.not_eq_false] at hkept
    obtain ⟨hadded, hmodified⟩ := hkept
    cases htarget : target.contains id with
    | false =>
        rw [Revision.view_eq_none htarget]
        cases hsource : source.contains id with
        | false => rw [Revision.view_eq_none hsource, ite_self]
        | true => rw [if_pos ((mem_removed_iff wf).mpr ⟨hsource, htarget⟩)]
    | true =>
        have hstays : id ∉ (between source target).removed := fun hremoved => by
          simp [((mem_removed_iff wf).mp hremoved).2] at htarget
        obtain ⟨new, hnew⟩ := Revision.contains_iff_exists_state?.mp htarget
        obtain ⟨old, hold⟩ := Revision.contains_iff_exists_state?.mp (hadded htarget)
        have hsame : ¬ (old.stamp ≠ new.stamp ∨ source.location? id ≠ target.location? id) :=
          fun h => hmodified ⟨old, new, hold, hnew, h⟩
        rw [not_or, not_not, not_not] at hsame
        rw [if_neg hstays, Revision.view, Revision.view, hold, hnew, hsame.2,
          hstamp id old new hold hnew hsame.1]

structure IsComplete (source target : Revision) : Prop where
  refresh_eq : (between source target).refresh target source.view = target.view
  same_of_empty : between source target = ⟨[], [], []⟩ → source.objects = target.objects ∧
    (∀ place, source.attachedTo place = target.attachedTo place) ∧
      ∀ id, source.state? id = target.state? id
  nodup_added : (between source target).added.Nodup
  nodup_removed : (between source target).removed.Nodup
  nodup_modified : (between source target).modified.Nodup
  disjoint : (between source target).added.Disjoint (between source target).modified
  added_sublist : (between source target).added.Sublist target.objects
  modified_sublist : (between source target).modified.Sublist target.objects

theorem isComplete (wf : source.table.WellFormed) (wf' : target.table.WellFormed)
    (hstamp : ∀ id old new, source.state? id = some old → target.state? id = some new →
      old.stamp = new.stamp → old = new) : IsComplete source target where
  refresh_eq := refresh_between wf wf' hstamp
  same_of_empty := by
    intro hempty
    have hview := refresh_between wf wf' hstamp
    rw [hempty] at hview
    have htable : source.table = target.table := Revision.table_eq_of_view_eq wf wf' hview
    refine ⟨?_, fun place => ?_, fun id => ?_⟩
    · rw [Revision.objects, htable, Revision.objects]
    · rw [Revision.attachedTo, htable, Revision.attachedTo]
    · rw [Revision.state?, htable, Revision.state?]
  nodup_added := wf'.nodup_preorder.filter _
  nodup_removed := wf.nodup_preorder.filter _
  nodup_modified := wf'.nodup_preorder.filter _
  disjoint := by
    intro id hadded hmodified
    obtain ⟨old, -, hold, -⟩ := (mem_modified_iff wf').mp hmodified
    have habsent := ((mem_added_iff wf').mp hadded).2
    rw [Revision.contains_iff_exists_state?.mpr ⟨old, hold⟩] at habsent
    cases habsent
  added_sublist := List.filter_sublist
  modified_sublist := List.filter_sublist

end Difference

end Schematic
