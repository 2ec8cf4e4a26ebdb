import Mathlib.Data.Set.Card
import Schematic.Store.Selection

namespace Schematic.Selection

variable {s t : Selection} {id x : ObjectId}

/-! ### Members -/

@[simp] theorem contains_none : none.contains x = false :=
  Std.ExtTreeSet.contains_empty

@[simp] theorem compare_beq_eq (id x : ObjectId) : (compare id x == .eq) = (x == id) := by
  rw [Bool.eq_iff_iff, beq_iff_eq, beq_iff_eq, Std.LawfulEqOrd.compare_eq_iff_eq, eq_comm]

@[simp] theorem contains_object : (object id).contains x = true ↔ x = id := by
  change (Std.ExtTreeSet.insert ∅ id).contains x = true ↔ _
  rw [Std.ExtTreeSet.contains_insert, Std.ExtTreeSet.contains_empty, Bool.or_false,
    compare_beq_eq, beq_iff_eq]

@[simp] theorem contains_ofList {ids : List ObjectId} :
    (ofList ids).contains x = true ↔ x ∈ ids := by
  rw [contains, ofList, Std.ExtTreeSet.contains_ofList, List.contains_iff_mem]

theorem size_ofList {ids : List ObjectId} (h : ids.Nodup) : (ofList ids).size = ids.length := by
  refine Std.ExtTreeSet.size_ofList (h.imp fun hne heq => hne ?_)
  exact Std.LawfulEqOrd.eq_of_compare heq

@[simp] theorem contains_including : (s.including id).contains x = (s.contains x || x == id) := by
  rw [including, contains, Std.ExtTreeSet.contains_insert, compare_beq_eq, Bool.or_comm, contains]

@[simp] theorem contains_excluding : (s.excluding id).contains x = (s.contains x && x != id) := by
  rw [excluding, contains, Std.ExtTreeSet.contains_erase, bne, compare_beq_eq, Bool.and_comm]
  rfl

theorem contains_excluding_of_ne (h : x ≠ id) : (s.excluding id).contains x = s.contains x := by
  rw [contains_excluding, bne_iff_ne.mpr h, Bool.and_true]

@[simp] theorem contains_union : (s.union t).contains x = (s.contains x || t.contains x) :=
  Std.ExtTreeSet.contains_union

@[simp] theorem contains_intersection :
    (s.intersection t).contains x = (s.contains x && t.contains x) :=
  Std.ExtTreeSet.contains_inter

@[simp] theorem contains_difference :
    (s.difference t).contains x = (s.contains x && !t.contains x) :=
  Std.ExtTreeSet.contains_diff

theorem union_comm (s t : Selection) : s.union t = t.union s :=
  ext fun id => by rw [contains_union, contains_union, Bool.or_comm]

@[simp] theorem union_self (s : Selection) : s.union s = s :=
  ext fun id => by rw [contains_union, Bool.or_self]

/-! ### The list of the members -/

@[simp] theorem mem_toList_iff : x ∈ s.toList ↔ s.contains x = true := by
  rw [toList, Std.ExtTreeSet.mem_toList, contains, Std.ExtTreeSet.contains_iff_mem]

theorem pairwise_toList (s : Selection) : s.toList.Pairwise fun a b => a.value < b.value :=
  (Std.ExtTreeSet.ordered_toList (t := s.members)).imp Nat.compare_eq_lt.mp

theorem nodup_of_pairwise {list : List ObjectId}
    (h : list.Pairwise fun a b => a.value < b.value) : list.Nodup :=
  h.imp fun hlt heq => Nat.ne_of_lt hlt (congrArg ObjectId.value heq)

/-- The members of a selection can be listed in ascending order in one way only. -/
theorem eq_toList_of_pairwise {list : List ObjectId}
    (h : list.Pairwise fun a b => a.value < b.value)
    (hmem : ∀ x, x ∈ list ↔ s.contains x = true) : list = s.toList := by
  have hperm : list.Perm s.toList := by
    refine (List.perm_ext_iff_of_nodup (nodup_of_pairwise h)
      (nodup_of_pairwise s.pairwise_toList)).mpr fun x => ?_
    rw [hmem, mem_toList_iff]
  exact hperm.eq_of_pairwise (fun a b _ _ hab hba => absurd hab (Nat.lt_asymm hba)) h
    s.pairwise_toList

theorem eq_iff_toList_eq : s.eq t = true ↔ s.toList = t.toList := by
  rw [eq_iff]
  constructor
  · exact congrArg toList
  · intro h
    refine ext fun x => ?_
    rw [Bool.eq_iff_iff, ← mem_toList_iff, ← mem_toList_iff, h]

/-- A selection answers like a set of objects: it has them as its members, and lists them in
ascending order and each once. -/
structure Represents (s : Selection) (holds : ObjectId → Bool) : Prop where
  contains_eq : ∀ x, s.contains x = holds x
  mem_toList : ∀ {x}, x ∈ s.toList ↔ holds x = true
  ascending : s.toList.Pairwise fun a b => a.value < b.value
  nodup_toList : s.toList.Nodup
  eq_toList : ∀ {list : List ObjectId}, (list.Pairwise fun a b => a.value < b.value) →
    (∀ x, x ∈ list ↔ holds x = true) → list = s.toList
  length_toList : s.toList.length = s.size
  encard_eq : {x | holds x = true}.encard = s.size
  isEmpty_iff : s.isEmpty = true ↔ ∀ x, holds x = false

theorem represents_contains (s : Selection) : s.Represents s.contains where
  contains_eq _ := rfl
  mem_toList := mem_toList_iff
  ascending := s.pairwise_toList
  nodup_toList := nodup_of_pairwise s.pairwise_toList
  eq_toList := eq_toList_of_pairwise
  length_toList := Std.ExtTreeSet.length_toList
  encard_eq := by
    have hset : {x | s.contains x = true} = (s.toList.toFinset : Set ObjectId) := by
      ext x
      simp [mem_toList_iff]
    rw [hset, Set.encard_coe_eq_coe_finsetCard,
      List.toFinset_card_of_nodup (nodup_of_pairwise s.pairwise_toList), toList,
      Std.ExtTreeSet.length_toList, size]
  isEmpty_iff := by
    rw [isEmpty, beq_iff_eq, size, ← Std.ExtTreeSet.length_toList, List.length_eq_zero_iff,
      List.eq_nil_iff_forall_not_mem]
    refine forall_congr' fun x => ?_
    rw [← toList, mem_toList_iff, Bool.not_eq_true]

end Schematic.Selection
