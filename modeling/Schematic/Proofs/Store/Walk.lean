import Schematic.Proofs.Store.Removal

/-!
`Search` and `Collects` are the walk up the parents and the walk down the lists without a bound. On
a table in which parents form a circle such a walk has no end; on a well-formed table it has one,
since an object has fewer objects above it than the table has entries.
-/

namespace Schematic

namespace Table

/-- A search from an object, or from beyond the top level, for the first that passes a test on the
way up, which ends after so many rounds. -/
inductive Search (t : Table) (test : ObjectId → Bool) : Option ObjectId → Nat → Bool → Prop
  | exhausted : Search t test none 0 false
  | found {id : ObjectId} (h : test id = true) : Search t test (some id) 1 true
  | up {id : ObjectId} {rounds : Nat} {found : Bool} (h : test id = false)
      (hup : Search t test (t.parent? id) rounds found) :
      Search t test (some id) (rounds + 1) found

/-- A walk down from the objects of a list, in which what is attached to an object is walked through
in a call of its own. `depth` is the greatest number of calls that have been open at the same time.
-/
inductive Collects (t : Table) : Nat → List ObjectId → List ObjectId → List ObjectId → Prop
  | nil {out : List ObjectId} : Collects t 0 [] out out
  | cons {m n : Nat} {id : ObjectId} {ids out mid all : List ObjectId}
      (hdown : Collects t m (t.siblings (some id)) (out ++ [id]) mid)
      (hnext : Collects t n ids mid all) : Collects t (max (m + 1) n) (id :: ids) out all

variable {t : Table} {test : ObjectId → Bool} {current : Option ObjectId} {a id : ObjectId}
  {k m n : Nat} {found found' : Bool} {ids out mid all all' : List ObjectId}

/-! ### Walks without a bound -/

theorem Search.unique (h : t.Search test current m found) (h' : t.Search test current n found') :
    m = n ∧ found = found' := by
  induction h generalizing n with
  | exhausted =>
      cases h'
      exact ⟨rfl, rfl⟩
  | found h =>
      cases h' with
      | found _ => exact ⟨rfl, rfl⟩
      | up hnot _ => simp [h] at hnot
  | up h _ ih =>
      cases h' with
      | found hyes => simp [h] at hyes
      | up _ hup' =>
          obtain ⟨rfl, rfl⟩ := ih hup'
          exact ⟨rfl, rfl⟩

theorem Search.search_iff (h : t.Search test current m found) :
    t.Search test current n found' ↔ n = m ∧ found' = found := by
  constructor
  · exact fun h' => h'.unique h
  · rintro ⟨rfl, rfl⟩
    exact h

theorem Collects.unique (h : t.Collects m ids out all) (h' : t.Collects n ids out all') :
    m = n ∧ all = all' := by
  induction h generalizing n all' with
  | nil =>
      cases h'
      exact ⟨rfl, rfl⟩
  | cons _ _ ihdown ihnext =>
      cases h' with
      | cons hdown' hnext' =>
          obtain ⟨rfl, rfl⟩ := ihdown hdown'
          obtain ⟨rfl, rfl⟩ := ihnext hnext'
          exact ⟨rfl, rfl⟩

theorem Collects.collects_iff (h : t.Collects m ids out all) :
    t.Collects n ids out all' ↔ n = m ∧ all' = all := by
  constructor
  · exact fun h' => h'.unique h
  · rintro ⟨rfl, rfl⟩
    exact h

/-! ### The way up -/

theorem exists_search_succ
    (h : ∃ rounds ≤ k, t.Search test (t.parent? id) rounds
      ((((t.parent? id).map (t.climb n)).getD []).any test)) :
    ∃ rounds ≤ k + 1, t.Search test (some id) rounds ((t.climb (n + 1) id).any test) := by
  rw [climb, List.any_cons]
  cases htest : test id with
  | true => exact ⟨1, by omega, .found htest⟩
  | false =>
      obtain ⟨rounds, hle, hsearch⟩ := h
      exact ⟨rounds + 1, by omega, .up htest hsearch⟩

theorem exists_search_of_top (h : t.parent? id = none) :
    ∃ rounds ≤ 1, t.Search test (some id) rounds ((t.climb (n + 1) id).any test) := by
  refine exists_search_succ ⟨0, Nat.le_refl 0, ?_⟩
  rw [h]
  exact .exhausted

/-- A search takes one round for the object itself and one for each object above it. -/
theorem AtDepth.exists_search (h : t.AtDepth m id) (test : ObjectId → Bool) (hlt : m < n) :
    ∃ rounds ≤ m + 1, t.Search test (some id) rounds ((t.climb n id).any test) := by
  induction h generalizing n with
  | top hplace =>
      cases n with
      | zero => omega
      | succ n => exact exists_search_of_top (by rw [parent?_eq, hplace, Option.join_some])
  | attached hplace hparent ih =>
      cases n with
      | zero => omega
      | succ n =>
          refine exists_search_succ ?_
          rw [parent?_eq_some_iff.mpr hplace]
          exact ih (Nat.lt_of_succ_lt_succ hlt)

namespace WellFormed

variable (wf : t.WellFormed)

include wf

theorem exists_search_lineage (test : ObjectId → Bool) (id : ObjectId) :
    ∃ rounds ≤ t.size + 1, t.Search test (some id) rounds ((t.lineage id).any test) := by
  by_cases hid : t.contains id = true
  · obtain ⟨m, hm⟩ := wf.grounded hid
    obtain ⟨rounds, hle, hsearch⟩ := hm.exists_search test (Nat.lt_succ_of_lt hm.lt_size)
    exact ⟨rounds, by have := hm.lt_size; omega, hsearch⟩
  · have hparent : t.parent? id = none := by
      rw [parent?, Option.not_isSome_iff_eq_none.mp hid, Option.bind_none]
    obtain ⟨rounds, hle, hsearch⟩ :
        ∃ rounds ≤ 1, t.Search test (some id) rounds ((t.lineage id).any test) :=
      exists_search_of_top hparent
    exact ⟨rounds, by omega, hsearch⟩

theorem exists_search_tail_lineage (test : ObjectId → Bool) (id : ObjectId) :
    ∃ rounds ≤ t.size + 1, t.Search test (t.parent? id) rounds
      ((t.lineage id).tail.any test) := by
  rw [lineage, climb, List.tail_cons]
  cases hparent : t.parent? id with
  | none => exact ⟨0, Nat.zero_le _, .exhausted⟩
  | some p =>
      obtain ⟨m, hm⟩ := wf.grounded (wf.contains_parent (parent?_eq_some_iff.mp hparent))
      obtain ⟨rounds, hle, hsearch⟩ := hm.exists_search test hm.lt_size
      exact ⟨rounds, by have := hm.lt_size; omega, hsearch⟩

end WellFormed

/-! ### The way down -/

theorem Collects.cons_of_singleton (h : t.Collects m [id] out mid)
    (hnext : t.Collects n ids mid all) : t.Collects (max m n) (id :: ids) out all := by
  cases h with
  | cons hdown hnil =>
      cases hnil
      rw [Nat.max_zero]
      exact .cons hdown hnext

theorem exists_collects_of_forall
    (h : ∀ x ∈ ids, ∃ depth ≤ k, ∀ out, t.Collects depth [x] out (out ++ t.subtree x)) :
    ∃ depth ≤ k, ∀ out, t.Collects depth ids out (out ++ ids.flatMap t.subtree) := by
  induction ids with
  | nil =>
      refine ⟨0, Nat.zero_le k, fun out => ?_⟩
      rw [List.flatMap_nil, List.append_nil]
      exact .nil
  | cons x ids ih =>
      obtain ⟨m, hm, hfirst⟩ := h x List.mem_cons_self
      obtain ⟨n, hn, hrest⟩ := ih fun y hy => h y (List.mem_cons_of_mem _ hy)
      refine ⟨max m n, Nat.max_le.mpr ⟨hm, hn⟩, fun out => ?_⟩
      rw [List.flatMap_cons, ← List.append_assoc]
      exact (hfirst out).cons_of_singleton (hrest _)

namespace WellFormed

variable (wf : t.WellFormed)

include wf

/-- The calls that are open at the same time are for objects one above the other, which with those
above the first are no more than there are entries. -/
theorem exists_collects_subtree (hid : t.contains id = true) (hdepth : t.AtDepth m id) :
    ∃ depth, depth + m ≤ t.size ∧ ∀ out, t.Collects depth [id] out (out ++ t.subtree id) := by
  induction id, hid using wf.downward generalizing m with
  | step id hid ih =>
      -- The children are one level deeper, so that one call more fits in front of theirs.
      have hlt := hdepth.lt_size
      obtain ⟨depth, hle, hbelow⟩ :
          ∃ depth ≤ t.size - (m + 1), ∀ out, t.Collects depth (t.siblings (some id)) out
            (out ++ (t.siblings (some id)).flatMap t.subtree) := by
        refine exists_collects_of_forall fun child hchild => ?_
        obtain ⟨depth, hle, hcollects⟩ :=
          ih child hchild (hdepth.attached (wf.mem_siblings.mp hchild))
        exact ⟨depth, by omega, hcollects⟩
      refine ⟨depth + 1, by omega, fun out => ?_⟩
      rw [wf.subtree_eq hid, List.append_cons, ← Nat.max_zero (depth + 1)]
      exact .cons (hbelow _) .nil

theorem exists_collects_preorder :
    ∃ depth ≤ t.size, ∀ out, t.Collects depth (t.siblings none) out (out ++ t.preorder) := by
  rw [wf.preorder_eq]
  refine exists_collects_of_forall fun root hroot => ?_
  have hcontains := wf.contains_of_mem_siblings hroot
  obtain ⟨m, hm⟩ := wf.grounded hcontains
  obtain ⟨depth, hle, hcollects⟩ := wf.exists_collects_subtree hcontains hm
  exact ⟨depth, by omega, hcollects⟩

theorem length_subtree_le (id : ObjectId) : (t.subtree id).length ≤ t.size := by
  by_cases hid : t.contains id = true
  · obtain ⟨front, back, hsplit⟩ := wf.exists_preorder_eq_append hid
    have hlength := wf.length_preorder
    rw [hsplit, List.length_append, List.length_append] at hlength
    omega
  · rw [subtree, if_neg hid]
    exact Nat.zero_le _

theorem exists_position?_eq_some {entry : Entry} (h : t.get? id = some entry) :
    ∃ index, t.position? id = some index := by
  have hplace := place?_of_get? h
  obtain ⟨index, hindex⟩ := List.getElem?_of_mem (wf.mem_siblings.mpr hplace)
  exact ⟨index, (wf.position?_eq_some_iff hplace).mpr hindex⟩

end WellFormed

end Table

/-! ### Lookups of a copy -/

namespace Revision

variable {source : Table} {root : ObjectId}

/-- A copy of the objects `ids`, which are those of the subtree of `root`, finds all that it looks
up: the entry of each object, the copy of the parent of each but the root, and in the end the copy
of the root. -/
structure CopyFinds (source : Table) (root : ObjectId) (ids : List ObjectId) (target : Table)
    (supply : Supply) : Prop where
  entry : ∀ id ∈ ids, ∃ entry, source.get? id = some entry
  copyOfParent : ∀ {done id rest}, ids = done ++ id :: rest → id ≠ root →
    ∃ p copy, source.parent? id = some p ∧
      (done.foldl (Copying.next source root) ⟨target, [], supply⟩).copies.lookup p = some copy
  copyOfRoot : ∃ copy c, ids.foldl (Copying.next source root) ⟨target, [], supply⟩ = c ∧
    c.copies.lookup root = some copy ∧
      copySubtree source (target, supply) root = (copy, c.table, c.supply)

theorem copyFinds_subtree (wf : source.WellFormed) (hroot : source.contains root = true)
    (target : Table) (supply : Supply) :
    CopyFinds source root (source.subtree root) target supply where
  entry id hid := Option.isSome_iff_exists.mp (wf.contains_of_mem_subtree hid)
  copyOfParent := by
    intro done id rest hsplit hne
    have hwithin : source.Within root id := (wf.mem_subtree hroot).mp (by simp [hsplit])
    cases hwithin with
    | self => exact absurd rfl hne
    | @attached _ p hplace _ =>
        have hstart : Copied source root supply target [] ⟨target, [], supply⟩ := .start
        have hcopied := hstart.foldl_next wf hroot hsplit
        have hdone := wf.mem_of_subtree_eq_append hroot hsplit (Ne.symm hne) hplace
        exact ⟨p, _, Table.parent?_eq_some_iff.mpr hplace, hcopied.lookup_eq hdone⟩
  copyOfRoot := by
    have hstart : Copied source root supply target [] ⟨target, [], supply⟩ := .start
    have hcopied := hstart.foldl_next wf hroot (List.append_nil _).symm
    have hlookup := hcopied.lookup_eq (wf.mem_subtree_self hroot)
    refine ⟨_, _, rfl, hlookup, ?_⟩
    rw [copySubtree, hlookup, Option.getD_some]

end Revision

/-! ### All walks -/

namespace Table

/-- Every walk through a table ends by itself. A walk up takes at most one round more than there are
entries; a walk down has no more calls open at a time, and collects no more objects, than there are
entries. What they give is what the operations of a table go by, and what they look up is there. -/
structure WalksEnd (t : Table) : Prop where
  isAncestorOrSelf_iff : ∀ a id, ∃ rounds ≤ t.size + 1, ∀ n found,
    t.Search (a == ·) (some id) n found ↔ n = rounds ∧ found = t.isAncestorOrSelf a id
  hasSelectedAncestor_iff : ∀ (sel : Selection) id, ∃ rounds ≤ t.size + 1, ∀ n found,
    t.Search sel.contains (t.parent? id) n found ↔
      n = rounds ∧ found = Revision.hasSelectedAncestor t sel id
  subtree_iff : ∀ id, t.contains id = true → ∃ depth ≤ t.size, ∀ n out all,
    t.Collects n [id] out all ↔ n = depth ∧ all = out ++ t.subtree id
  preorder_iff : ∃ depth ≤ t.size, ∀ n out all,
    t.Collects n (t.siblings none) out all ↔ n = depth ∧ all = out ++ t.preorder
  length_subtree_le : ∀ id, (t.subtree id).length ≤ t.size
  length_preorder : t.preorder.length = t.size
  removeSubtree_eq : ∀ {id n removed}, t.contains id = true → t.Collects n [id] [] removed →
    t.removeSubtree id = removed.foldl forget (t.unlink id)
  removeSubtree_absent : ∀ {id}, t.contains id = false → t.removeSubtree id = t
  copyFinds : ∀ {root n ids} target supply, t.contains root = true → t.Collects n [root] [] ids →
    Revision.CopyFinds t root ids target supply
  position?_eq : ∀ {id entry}, t.get? id = some entry → ∃ index, t.position? id = some index

variable {t : Table}

theorem WellFormed.eq_subtree_of_collects (wf : t.WellFormed) {id : ObjectId} {n : Nat}
    {ids : List ObjectId} (hid : t.contains id = true) (h : t.Collects n [id] [] ids) :
    ids = t.subtree id := by
  obtain ⟨m, hm⟩ := wf.grounded hid
  obtain ⟨depth, -, hcollects⟩ := wf.exists_collects_subtree hid hm
  exact (h.unique (hcollects [])).2

theorem walksEnd_of_wellFormed (wf : t.WellFormed) : t.WalksEnd where
  isAncestorOrSelf_iff a id := by
    obtain ⟨rounds, hle, hsearch⟩ := wf.exists_search_lineage (a == ·) id
    rw [isAncestorOrSelf, List.contains_eq_any_beq]
    exact ⟨rounds, hle, fun _ _ => hsearch.search_iff⟩
  hasSelectedAncestor_iff sel id := by
    obtain ⟨rounds, hle, hsearch⟩ := wf.exists_search_tail_lineage sel.contains id
    exact ⟨rounds, hle, fun _ _ => hsearch.search_iff⟩
  subtree_iff id hid := by
    obtain ⟨m, hm⟩ := wf.grounded hid
    obtain ⟨depth, hle, hcollects⟩ := wf.exists_collects_subtree hid hm
    exact ⟨depth, by omega, fun _ out _ => (hcollects out).collects_iff⟩
  preorder_iff := by
    obtain ⟨depth, hle, hcollects⟩ := wf.exists_collects_preorder
    exact ⟨depth, hle, fun _ out _ => (hcollects out).collects_iff⟩
  length_subtree_le := wf.length_subtree_le
  length_preorder := wf.length_preorder
  removeSubtree_eq hid h := by rw [wf.eq_subtree_of_collects hid h, removeSubtree]
  removeSubtree_absent {id} hid := by
    have hget : t.get? id = none := Option.isNone_iff_eq_none.mp (by simpa [contains] using hid)
    rw [removeSubtree, subtree, hid, if_neg Bool.false_ne_true, List.foldl_nil, unlink, hget]
  copyFinds target supply hroot h := by
    rw [wf.eq_subtree_of_collects hroot h]
    exact Revision.copyFinds_subtree wf hroot target supply
  position?_eq := wf.exists_position?_eq_some

end Table

end Schematic
