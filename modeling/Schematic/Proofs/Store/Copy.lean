import Schematic.Proofs.Store.Correspondence
import Schematic.Proofs.Store.Edit

/-!
The copies are made in the order of the subtree from consecutive identities, so the copy of an
object is known beforehand. `Copied` says what stands in the table after some of the subtree has
been copied; the parent of the next object is then among those that have been.
-/

namespace Schematic

theorem Table.WellFormed.mem_of_subtree_eq_append {t : Table} (wf : t.WellFormed)
    {root p id : ObjectId} {done rest : List ObjectId} (hroot : t.contains root = true)
    (hsplit : t.subtree root = done ++ id :: rest) (hne : root ≠ id)
    (hplace : t.place? id = some (some p)) : p ∈ done := by
  have hid : t.Within root id := (wf.mem_subtree hroot).mp (by simp [hsplit])
  have hp : t.Within root p := hid.parent hne hplace
  have hnodup := wf.nodup_subtree hroot
  obtain ⟨front, back, hblock⟩ := wf.exists_subtree_eq_append hp hroot
  have hpid : p ≠ id := by
    rintro rfl
    exact wf.not_within_parent hplace .self
  have hlt := wf.idxOf_lt_of_eq_append hblock hnodup (.of_place? hplace) hpid
    (wf.contains_parent hplace)
  rw [hsplit] at hlt hnodup
  have hiddone := (Table.notMem_of_nodup_append_cons hnodup).1
  by_contra hpdone
  rw [List.idxOf_append_of_notMem hiddone, List.idxOf_append_of_notMem hpdone,
    List.idxOf_cons_self] at hlt
  omega

namespace Revision

section

variable (source : Table) (root : ObjectId) (supply : Supply)

def copyOf (id : ObjectId) : ObjectId := ⟨supply.nextId + (source.subtree root).idxOf id⟩

def copyParent? (id : ObjectId) : Option ObjectId :=
  if id = root then none else (source.parent? id).map (copyOf source root supply)

/-- What has become of the table `t` and the supply after the objects `done` have been copied. -/
structure Copied (t : Table) (done : List ObjectId) (c : Copying) : Prop where
  supply_eq : c.supply = ⟨supply.nextId + done.length, supply.nextStamp⟩
  lookup_eq : ∀ {id}, id ∈ done → c.copies.lookup id = some (copyOf source root supply id)
  get?_copyOf : ∀ {id}, id ∈ done → c.table.get? (copyOf source root supply id) =
    (source.get? id).map fun entry => ⟨entry.state, copyParent? source root supply id⟩
  get?_of_lt : ∀ {id : ObjectId}, id.value < supply.nextId → c.table.get? id = t.get? id
  siblings_eq : ∀ place, c.table.siblings place = t.siblings place ++
    (done.filter fun id => copyParent? source root supply id = place).map
      (copyOf source root supply)
  edits : Edits source (t, supply) (c.table, c.supply)

end

variable {source t : Table} {root id p : ObjectId} {supply : Supply} {done rest : List ObjectId}
  {c : Copying}

theorem copyOf_eq_of_append (hnodup : (source.subtree root).Nodup)
    (hsplit : source.subtree root = done ++ id :: rest) :
    copyOf source root supply id = ⟨supply.nextId + done.length⟩ := by
  rw [hsplit] at hnodup
  rw [copyOf, hsplit, List.idxOf_append_of_notMem (Table.notMem_of_nodup_append_cons hnodup).1,
    List.idxOf_cons_self, Nat.add_zero]

theorem copyOf_inj {x y : ObjectId} (hx : x ∈ source.subtree root) :
    copyOf source root supply x = copyOf source root supply y ↔ x = y := by
  constructor
  · intro h
    simp only [copyOf, ObjectId.mk.injEq, Nat.add_left_cancel_iff] at h
    exact (List.idxOf_inj hx).mp h
  · rintro rfl
    rfl

theorem exists_of_copyParent?_eq_some (wf : source.WellFormed)
    (hroot : source.contains root = true) (hsplit : source.subtree root = done ++ id :: rest)
    {q : ObjectId} (h : copyParent? source root supply id = some q) :
    ∃ p ∈ done, source.place? id = some (some p) ∧ q = copyOf source root supply p := by
  unfold copyParent? at h
  split at h
  · cases h
  · rename_i hne
    obtain ⟨p, hp, rfl⟩ := Option.map_eq_some_iff.mp h
    have hplace := Table.parent?_eq_some_iff.mp hp
    exact ⟨p, wf.mem_of_subtree_eq_append hroot hsplit (Ne.symm hne) hplace, hplace, rfl⟩

namespace Copied

theorem start : Copied source root supply t [] ⟨t, [], supply⟩ where
  supply_eq := rfl
  lookup_eq h := absurd h List.not_mem_nil
  get?_copyOf h := absurd h List.not_mem_nil
  get?_of_lt _ := rfl
  siblings_eq := by simp
  edits := .refl

theorem mint_eq (h : Copied source root supply t done c) (hnodup : (source.subtree root).Nodup)
    (hsplit : source.subtree root = done ++ id :: rest) :
    ⟨c.supply.nextId⟩ = copyOf source root supply id := by
  rw [copyOf_eq_of_append hnodup hsplit, h.supply_eq]

theorem next_eq (h : Copied source root supply t done c) (wf : source.WellFormed)
    (hroot : source.contains root = true) (hsplit : source.subtree root = done ++ id :: rest)
    {entry : Entry} (hentry : source.get? id = some entry) :
    c.next source root id =
      ⟨c.table.insert ⟨c.supply.nextId⟩ entry.state (copyParent? source root supply id) none,
        (id, ⟨c.supply.nextId⟩) :: c.copies, ⟨c.supply.nextId + 1, c.supply.nextStamp⟩⟩ := by
  have hparent : (if id = root then none else entry.parent.bind fun p => c.copies.lookup p) =
      copyParent? source root supply id := by
    unfold copyParent? Table.parent?
    rw [hentry, Option.bind_some]
    split
    · rfl
    · rename_i hne
      cases hp : entry.parent with
      | none => rfl
      | some p =>
          have hplace := Table.place?_of_get? hentry
          rw [hp] at hplace
          exact h.lookup_eq (wf.mem_of_subtree_eq_append hroot hsplit (Ne.symm hne) hplace)
  rw [Copying.next, hentry]
  simp only [hparent, Supply.mint]

theorem isContainer_parent (h : Copied source root supply t done c) (wf : source.WellFormed)
    (hroot : source.contains root = true) (hsplit : source.subtree root = done ++ id :: rest)
    {q : ObjectId} (hq : copyParent? source root supply id = some q) :
    c.table.isContainer q = true := by
  obtain ⟨p, hp, hplace, rfl⟩ := exists_of_copyParent?_eq_some wf hroot hsplit hq
  rw [← wf.isContainer hplace]
  apply Table.isContainer_eq_of_state
  rw [h.get?_copyOf hp, Option.map_map]
  rfl

theorem next (h : Copied source root supply t done c) (wf : source.WellFormed)
    (hroot : source.contains root = true) (hsplit : source.subtree root = done ++ id :: rest) :
    Copied source root supply t (done ++ [id]) (c.next source root id) := by
  have hid : id ∈ source.subtree root := by simp [hsplit]
  have hnodup := wf.nodup_subtree hroot
  obtain ⟨entry, hentry⟩ := Option.isSome_iff_exists.mp (wf.contains_of_mem_subtree hid)
  have hcopy := h.mint_eq hnodup hsplit
  have hedit : Edit source (c.table, c.supply) _ :=
    .share hentry fun _ => h.isContainer_parent wf hroot hsplit
  rw [h.next_eq wf hroot hsplit hentry]
  rw [hcopy] at hedit ⊢
  -- A subtree lists no object twice, so that what was recorded of the others stays.
  have hother : ∀ {x}, x ∈ done → x ≠ id := fun hx =>
    ne_of_mem_of_not_mem hx (Table.notMem_of_nodup_append_cons (hsplit ▸ hnodup)).1
  refine ⟨?_, ?_, ?_, ?_, ?_, h.edits.tail hedit⟩
  · simp [h.supply_eq, Nat.add_assoc]
  · intro x hx
    rw [List.lookup_cons]
    rcases List.mem_append.mp hx with hx | hx
    · rw [beq_false_of_ne (hother hx)]
      exact h.lookup_eq hx
    · rw [List.mem_singleton.mp hx, beq_self_eq_true]
  · intro x hx
    rw [Table.get?_insert]
    rcases List.mem_append.mp hx with hx | hx
    · rw [if_neg fun heq => hother hx ((copyOf_inj hid).mp heq).symm]
      exact h.get?_copyOf hx
    · rw [List.mem_singleton.mp hx, if_pos rfl, hentry, Option.map_some]
  · intro x hx
    rw [Table.get?_insert, if_neg, h.get?_of_lt hx]
    rintro rfl
    exact absurd hx (Nat.not_lt.mpr (Nat.le_add_right _ _))
  · intro place
    rw [Table.siblings_insert, Table.insertBefore_none, List.filter_append, List.map_append,
      ← List.append_assoc, ← h.siblings_eq]
    split
    · rename_i heq
      subst heq
      simp
    · rename_i hne
      simp [hne]

theorem foldl_next (h : Copied source root supply t done c) (wf : source.WellFormed)
    (hroot : source.contains root = true) {more : List ObjectId}
    (hsplit : source.subtree root = done ++ (more ++ rest)) :
    Copied source root supply t (done ++ more) (more.foldl (Copying.next source root) c) := by
  induction more generalizing done c with
  | nil => simpa using h
  | cons id more ih =>
      have hnext := ih (h.next wf hroot hsplit) (by simp [hsplit])
      rwa [List.append_assoc] at hnext

end Copied

theorem copySubtree_eq (wf : source.WellFormed) (hroot : source.contains root = true) (t : Table)
    (supply : Supply) :
    ∃ c, Copied source root supply t (source.subtree root) c ∧
      copySubtree source (t, supply) root =
        (copyOf source root supply root, c.table, c.supply) := by
  have hstart : Copied source root supply t [] ⟨t, [], supply⟩ := .start
  have hcopied := hstart.foldl_next wf hroot (List.append_nil _).symm
  refine ⟨_, hcopied, ?_⟩
  rw [copySubtree, hcopied.lookup_eq (wf.mem_subtree_self hroot), Option.getD_some]

/-! ### The finished copy -/

theorem copyParent?_eq_none_iff (hid : source.Within root id) :
    copyParent? source root supply id = none ↔ id = root := by
  constructor
  · intro h
    by_contra hne
    cases hid with
    | self => exact hne rfl
    | attached hplace _ =>
        rw [copyParent?, if_neg hne, Table.parent?_eq_some_iff.mpr hplace] at h
        cases h
  · intro h
    exact if_pos h

theorem copyParent?_eq_some_iff (wf : source.WellFormed) (hroot : source.contains root = true)
    (hid : source.Within root id) (hp : source.Within root p) :
    copyParent? source root supply id = some (copyOf source root supply p) ↔
      source.place? id = some (some p) := by
  have hmem : p ∈ source.subtree root := (wf.mem_subtree hroot).mpr hp
  unfold copyParent?
  split
  · rename_i heq
    subst heq
    simp only [false_iff, reduceCtorEq]
    exact fun hplace => wf.not_within_parent hplace hp
  · rw [Option.map_eq_some_iff, ← Table.parent?_eq_some_iff]
    constructor
    · rintro ⟨q, hq, heq⟩
      rwa [(copyOf_inj hmem).mp heq.symm]
    · intro hparent
      exact ⟨p, hparent, rfl⟩

namespace Copied

variable (h : Copied source root supply t (source.subtree root) c)

include h

theorem contains_of_contains (ht : t.Sound supply) (hid : t.contains id = true) :
    c.table.contains id = true := by
  obtain ⟨entry, hentry⟩ := Option.isSome_iff_exists.mp hid
  rw [Table.contains, h.get?_of_lt (ht.minted hentry)]
  exact hid

theorem place?_copyOf (wf : source.WellFormed) (hid : id ∈ source.subtree root) :
    c.table.place? (copyOf source root supply id) =
      some (copyParent? source root supply id) := by
  obtain ⟨entry, hentry⟩ := Option.isSome_iff_exists.mp (wf.contains_of_mem_subtree hid)
  rw [Table.place?, h.get?_copyOf hid, hentry]
  rfl

variable (hroot : source.contains root = true)

include hroot

theorem siblings_none (wf : source.WellFormed) :
    c.table.siblings none = t.siblings none ++ [copyOf source root supply root] := by
  have hone : (source.subtree root).filter
      (fun id => copyParent? source root supply id = none) = [root] := by
    have hcongr : (source.subtree root).filter
        (fun id => copyParent? source root supply id = none) =
          (source.subtree root).filter (· == root) := by
      apply List.filter_congr
      intro id hid
      rw [Bool.eq_iff_iff, decide_eq_true_eq, beq_iff_eq]
      exact copyParent?_eq_none_iff ((wf.mem_subtree hroot).mp hid)
    rw [hcongr, List.filter_beq,
      List.count_eq_one_of_mem (wf.nodup_subtree hroot) (wf.mem_subtree_self hroot)]
    rfl
  rw [h.siblings_eq, hone, List.map_singleton]

variable (hsource : source.Sound supply) (ht : t.Sound supply)

include hsource ht

theorem siblings_of_contains (hp : t.contains p = true) :
    c.table.siblings (some p) = t.siblings (some p) := by
  have hnone : (source.subtree root).filter
      (fun id => copyParent? source root supply id = some p) = [] := by
    apply List.filter_eq_nil_iff.mpr
    intro id hid hparent
    obtain ⟨done, rest, hsplit⟩ := List.append_of_mem hid
    obtain ⟨q, -, -, rfl⟩ := exists_of_copyParent?_eq_some hsource.wellFormed hroot hsplit
      (of_decide_eq_true hparent)
    simp [ht.not_contains (Nat.le_add_right _ _), copyOf] at hp
  rw [h.siblings_eq, hnone, List.map_nil, List.append_nil]

theorem siblings_copyOf (hp : source.Within root p) :
    c.table.siblings (some (copyOf source root supply p)) =
      (source.siblings (some p)).map (copyOf source root supply) := by
  have wf := hsource.wellFormed
  have hnew : t.siblings (some (copyOf source root supply p)) = [] := by
    apply List.eq_nil_iff_forall_not_mem.mpr
    intro x hx
    have hcontains := ht.wellFormed.contains_parent (ht.wellFormed.mem_siblings.mp hx)
    simp [ht.not_contains (Nat.le_add_right _ _), copyOf] at hcontains
  have hcongr : (source.subtree root).filter
      (fun id => copyParent? source root supply id = some (copyOf source root supply p)) =
        (source.subtree root).filter (fun id => source.place? id = some (some p)) := by
    refine List.filter_congr fun id hid => decide_eq_decide.mpr ?_
    exact copyParent?_eq_some_iff wf hroot ((wf.mem_subtree hroot).mp hid) hp
  rw [h.siblings_eq, hnew, hcongr, wf.filter_subtree_eq_siblings hroot hp, List.nil_append]

theorem preorder_eq :
    c.table.preorder = t.preorder ++ (source.subtree root).map (copyOf source root supply) := by
  have wf := (h.edits.sound hsource ht).wellFormed
  have hrootmem := hsource.wellFormed.mem_subtree_self hroot
  have hcopy : c.table.subtree (copyOf source root supply root) =
      (source.subtree root).map (copyOf source root supply) := by
    refine hsource.wellFormed.subtree_map wf hroot ?_ fun x hx => ?_
    · exact Table.contains_of_place? (h.place?_copyOf hsource.wellFormed hrootmem)
    · exact h.siblings_copyOf hroot hsource ht hx
  have hold : ∀ x ∈ t.siblings none, c.table.subtree x = t.subtree x := by
    intro x hx
    have hcontains := ht.wellFormed.contains_of_mem_siblings hx
    apply ht.wellFormed.subtree_congr wf hcontains (h.contains_of_contains ht hcontains)
    exact fun y hy => h.siblings_of_contains hroot hsource ht (hy.contains hcontains)
  rw [wf.preorder_eq, h.siblings_none hroot hsource.wellFormed, List.flatMap_append,
    List.flatMap_singleton, hcopy, List.flatMap_congr hold, ht.wellFormed.preorder_eq]

theorem position?_copyOf (hid : id ∈ source.subtree root) (hne : id ≠ root) :
    c.table.position? (copyOf source root supply id) = source.position? id := by
  have wf := (h.edits.sound hsource ht).wellFormed
  have hwithin := (hsource.wellFormed.mem_subtree hroot).mp hid
  have hcopy := h.place?_copyOf hsource.wellFormed hid
  cases hwithin with
  | self => exact absurd rfl hne
  | @attached _ p hplace hp =>
      rw [(copyParent?_eq_some_iff hsource.wellFormed hroot (.attached hplace hp) hp).mpr hplace]
        at hcopy
      apply Option.ext
      intro index
      rw [wf.position?_eq_some_iff hcopy, hsource.wellFormed.position?_eq_some_iff hplace,
        h.siblings_copyOf hroot hsource ht hp, List.getElem?_map, Option.map_eq_some_iff]
      constructor
      · rintro ⟨x, hx, heq⟩
        rwa [(copyOf_inj hid).mp heq.symm]
      · intro hx
        exact ⟨id, hx, rfl⟩

theorem position?_of_contains (hid : t.contains id = true) :
    c.table.position? id = t.position? id := by
  have wf := (h.edits.sound hsource ht).wellFormed
  obtain ⟨entry, hentry⟩ := Option.isSome_iff_exists.mp hid
  have hplace := Table.place?_of_get? hentry
  have hkept := Table.place?_of_get? ((h.get?_of_lt (ht.minted hentry)).trans hentry)
  apply Option.ext
  intro index
  rw [wf.position?_eq_some_iff hkept, ht.wellFormed.position?_eq_some_iff hplace]
  cases hparent : entry.parent with
  | none =>
      rw [h.siblings_none hroot hsource.wellFormed, List.getElem?_append]
      split
      · rfl
      · rename_i hge
        rw [List.getElem?_eq_none (Nat.not_lt.mp hge)]
        refine iff_of_false (fun heq => ?_) (by simp)
        rw [List.mem_singleton.mp (List.mem_of_getElem? heq), copyOf,
          ht.not_contains (Nat.le_add_right _ _)] at hid
        cases hid
  | some p =>
      rw [hparent] at hplace
      rw [h.siblings_of_contains hroot hsource ht (ht.wellFormed.contains_parent hplace)]

end Copied

/-! ### Copies as chains of edits -/

theorem edits_copySubtrees (wf : source.WellFormed) {roots : List ObjectId}
    (hroots : ∀ root ∈ roots, source.contains root = true) :
    Edits source (t, supply) (copySubtrees source (t, supply) roots).2 := by
  induction roots generalizing t supply with
  | nil => exact .refl
  | cons root roots ih =>
      obtain ⟨c, hcopied, heq⟩ :=
        copySubtree_eq wf (hroots root List.mem_cons_self) t supply
      rw [copySubtrees, heq]
      exact hcopied.edits.trans (ih fun x hx => hroots x (List.mem_cons_of_mem _ hx))

variable {r other next : Revision} {left : Supply}

theorem edits_of_copy (wf : other.table.WellFormed) {copy : ObjectId}
    (h : r.copy supply other id = .ok (copy, next, left)) :
    Edits other.table (r.table, supply) (next.table, left) := by
  obtain ⟨-, hid, hresult⟩ := copy_eq_ok_iff.mp h
  obtain ⟨c, hcopied, heq⟩ := copySubtree_eq wf hid r.table supply
  rw [heq] at hresult
  cases hresult
  exact hcopied.edits

theorem edits_of_copySelected (wf : other.table.WellFormed) {sel copies : Selection}
    (h : r.copySelected supply other sel = .ok (copies, next, left)) :
    Edits other.table (r.table, supply) (next.table, left) := by
  obtain ⟨-, hresult⟩ := copySelected_eq_ok_iff.mp h
  cases hresult
  refine edits_copySubtrees wf fun root hroot => wf.mem_preorder.mp ?_
  exact List.mem_of_mem_filter (List.mem_of_mem_filter hroot)

/-! ### The copy beside its original -/

/-- What becomes of `target` when an object of `source` with everything below it is copied to it.
The copies are listed in the order of their originals, and the first of them is `copy`. -/
structure IsCopy (source : Revision) (id : ObjectId) (target after : Revision) (copy : ObjectId)
    (copies : List ObjectId) : Prop where
  objects_eq : after.objects = target.objects ++ copies
  nodup_copies : copies.Nodup
  length_copies : copies.length = (source.table.subtree id).length
  head?_copies : copies.head? = some copy
  attachedTo_none : after.attachedTo none = target.attachedTo none ++ [copy]
  parent?_copy : ∀ {i j : Nat} {x y x' y' : ObjectId}, (source.table.subtree id)[i]? = some x →
    copies[i]? = some x' → (source.table.subtree id)[j]? = some y → copies[j]? = some y' →
      (after.table.parent? x' = some y' ↔ source.table.parent? x = some y)
  index_copy : ∀ {i : Nat} {x x' : ObjectId}, 0 < i → (source.table.subtree id)[i]? = some x →
    copies[i]? = some x' → after.table.position? x' = source.table.position? x
  state?_copy : ∀ {i : Nat} {x x' : ObjectId}, (source.table.subtree id)[i]? = some x →
    copies[i]? = some x' → after.state? x' = source.state? x
  state?_old : ∀ {x : ObjectId}, target.contains x = true → after.state? x = target.state? x
  location?_old : ∀ {x : ObjectId}, target.contains x = true →
    after.location? x = target.location? x

theorem isCopy_of_copy {copy : ObjectId} (hother : other.table.Sound supply)
    (hr : r.table.Sound supply) (h : r.copy supply other id = .ok (copy, next, left)) :
    ∃ copies, IsCopy other id r next copy copies ∧ ∀ x ∈ copies, supply.nextId ≤ x.value := by
  obtain ⟨-, hid, hresult⟩ := copy_eq_ok_iff.mp h
  have wf := hother.wellFormed
  obtain ⟨c, hcopied, heq⟩ := copySubtree_eq wf hid r.table supply
  rw [heq] at hresult
  cases hresult
  have hcopyOf : ∀ {i : Nat} {x x' : ObjectId}, (other.table.subtree id)[i]? = some x →
      ((other.table.subtree id).map (copyOf other.table id supply))[i]? = some x' →
        x ∈ other.table.subtree id ∧ x' = copyOf other.table id supply x := by
    intro i x x' hx hx'
    rw [List.getElem?_map, hx, Option.map_some, Option.some.injEq] at hx'
    exact ⟨List.mem_of_getElem? hx, hx'.symm⟩
  refine ⟨(other.table.subtree id).map (copyOf other.table id supply),
    ⟨hcopied.preorder_eq hid hother hr, ?_, List.length_map _, ?_, hcopied.siblings_none hid wf,
      ?_, ?_, ?_, ?_, ?_⟩, ?_⟩
  · apply (List.nodup_map_iff_inj_on (wf.nodup_subtree hid)).mpr
    intro x hx y _ hxy
    exact (copyOf_inj hx).mp hxy
  · rw [wf.subtree_eq hid, List.map_cons, List.head?_cons]
  · intro i j x y x' y' hx hx' hy hy'
    obtain ⟨hxmem, rfl⟩ := hcopyOf hx hx'
    obtain ⟨hymem, rfl⟩ := hcopyOf hy hy'
    rw [Table.parent?_eq_some_iff, Table.parent?_eq_some_iff, hcopied.place?_copyOf wf hxmem,
      Option.some.injEq]
    exact copyParent?_eq_some_iff wf hid ((wf.mem_subtree hid).mp hxmem)
      ((wf.mem_subtree hid).mp hymem)
  · intro i x x' hi hx hx'
    obtain ⟨hxmem, rfl⟩ := hcopyOf hx hx'
    -- The copy of the root comes last at the top, wherever the root is.
    have hne : x ≠ id := by
      rintro rfl
      have hfirst : (other.table.subtree x)[0]? = some x := by rw [wf.subtree_eq hid]; rfl
      have := (List.getElem?_inj (List.getElem?_eq_some_iff.mp hx).1 (wf.nodup_subtree hid)).mp
        (hx.trans hfirst.symm)
      omega
    exact hcopied.position?_copyOf hid hother hr hxmem hne
  · intro i x x' hx hx'
    obtain ⟨hxmem, rfl⟩ := hcopyOf hx hx'
    unfold state?
    rw [hcopied.get?_copyOf hxmem, Option.map_map]
    rfl
  · intro x hx
    obtain ⟨entry, hentry⟩ := Option.isSome_iff_exists.mp hx
    unfold state?
    rw [hcopied.get?_of_lt (hr.minted hentry)]
  · intro x hx
    obtain ⟨entry, hentry⟩ := Option.isSome_iff_exists.mp hx
    unfold location?
    rw [hcopied.get?_of_lt (hr.minted hentry), hcopied.position?_of_contains hid hother hr hx]
  · intro x hx
    obtain ⟨y, -, rfl⟩ := List.mem_map.mp hx
    exact Nat.le_add_right _ _

end Revision

end Schematic
