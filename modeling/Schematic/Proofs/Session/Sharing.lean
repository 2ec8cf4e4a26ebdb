import Schematic.Proofs.Session.Refusal
import Schematic.SharedSession

/-!
`SharedSession.unshared` gives every revision a table of its own, and commands commute with it. A
table is changed only in a cell that no other revision can reach, and a copy is taken from another
cell than the one that it is put in.
-/

namespace Schematic

namespace SharedSession

variable {s next : SharedSession} {name other : String} {h h' : Handle} {cell source : Nat}
  {t : Table × Supply} {root : ObjectId}

def unshared (s : SharedSession) : Session :=
  { revisions := s.handles.map fun _ h => s.view h, supply := s.supply }

def Allocated (s : SharedSession) : Prop :=
  ∀ name h, s.handle? name = some h → h.cell < s.unused

@[simp] theorem revision?_unshared (s : SharedSession) (name : String) :
    s.unshared.revision? name = s.revision? name := by
  rw [Session.revision?, unshared, Std.ExtTreeMap.getElem?_map, revision?, handle?]

theorem revision?_of_handle? (hh : s.handle? name = some h) :
    s.revision? name = some (s.view h) := by
  rw [revision?, hh, Option.map_some]

theorem revision?_congr (hhandle : next.handle? name = s.handle? name)
    (hcells : ∀ h, s.handle? name = some h → next.cells h.cell = s.cells h.cell) :
    next.revision? name = s.revision? name := by
  rw [revision?, revision?, hhandle]
  refine Option.map_congr fun h hh => ?_
  rw [view, view, hcells h hh]

theorem unshared_eq_update {r : Revision} (hname : next.revision? name = some r)
    (hothers : ∀ other, other ≠ name → next.revision? other = s.revision? other) :
    next.unshared = s.unshared.update name (r, next.supply) := by
  refine Session.ext_revision? (fun other => ?_) rfl
  rw [Session.revision?_update, revision?_unshared, revision?_unshared]
  split
  · rename_i h
    exact h ▸ hname
  · rename_i hne
    exact hothers other (Ne.symm hne)

@[simp] theorem handle?_put : (s.put name h).handle? other =
    if name = other then some h else s.handle? other := by
  simp [handle?, put, Std.ExtTreeMap.getElem?_insert]

@[simp] theorem handle?_allocate {u : Table} : (s.allocate name h u).handle? other =
    if name = other then some { h with cell := s.unused } else s.handle? other :=
  handle?_put

@[simp] theorem cells_allocate {u : Table} : (s.allocate name h u).cells cell =
    if cell = s.unused then u else s.cells cell := rfl

/-! ### Cells of one's own -/

/-- Nobody else has a handle for the cell of a revision. -/
def Alone (s : SharedSession) (name : String) (cell : Nat) : Prop :=
  ∀ other h, other ≠ name → s.handle? other = some h → h.cell ≠ cell

theorem alone_of_holders_le (hh : s.handle? name = some h) (hle : s.holders h.cell ≤ 1) :
    s.Alone name h.cell := by
  intro other h' hne hh' hcell
  have hsub : [(name, h), (other, h')] ⊆ s.handles.toList.filter (·.2.cell == h.cell) := by
    intro pair hpair
    rw [List.mem_filter]
    rcases List.mem_pair.mp hpair with rfl | rfl
    · exact ⟨Std.ExtTreeMap.mem_toList_iff_getElem?_eq_some.mpr hh, beq_self_eq_true _⟩
    · exact ⟨Std.ExtTreeMap.mem_toList_iff_getElem?_eq_some.mpr hh', beq_iff_eq.mpr hcell⟩
  have hnodup : [(name, h), (other, h')].Nodup := by
    simp only [List.nodup_cons, List.mem_singleton, Prod.mk.injEq, not_and]
    exact ⟨fun heq => absurd heq.symm hne, List.not_mem_nil, .nil⟩
  have htwo := (List.subperm_of_subset hnodup hsub).length_le
  rw [← List.countP_eq_length_filter] at htwo
  exact absurd (Nat.le_trans htwo hle) (by simp)

/-- What it means that a revision, with what it holds, has been given the cell for itself. -/
structure Owned (s : SharedSession) (name : String) (h : Handle) (cell : Nat)
    (next : SharedSession) : Prop where
  handle?_eq : next.handle? name = some { h with cell }
  cells_eq : next.cells cell = s.cells h.cell
  alone : next.Alone name cell
  handle?_other : ∀ other, other ≠ name → next.handle? other = s.handle? other
  cells_old : ∀ old, old < s.unused → next.cells old = s.cells old
  supply_eq : next.supply = s.supply
  allocated : next.Allocated

theorem allocated_allocate (hs : s.Allocated) {u : Table} : (s.allocate name h u).Allocated := by
  intro other h' hh'
  rw [handle?_allocate] at hh'
  split at hh'
  · cases hh'
    exact Nat.lt_succ_self s.unused
  · exact Nat.lt_succ_of_lt (hs other h' hh')

theorem owned_own (hs : s.Allocated) (hh : s.handle? name = some h) (guests : Nat) :
    s.Owned name h (s.own name h guests).1 (s.own name h guests).2 := by
  unfold own
  split
  · refine ⟨by simp, by simp, ?_, ?_, ?_, rfl, allocated_allocate hs⟩
    · intro other h' hne hh'
      rw [handle?_allocate, if_neg (Ne.symm hne)] at hh'
      exact Nat.ne_of_lt (hs other h' hh')
    · intro other hne
      simp [Ne.symm hne]
    · intro old hold
      simp [Nat.ne_of_lt hold]
  · rename_i hfew
    have hle : s.holders h.cell ≤ 1 := by omega
    exact ⟨hh, rfl, alone_of_holders_le hh hle, fun _ _ => rfl, fun _ _ => rfl, rfl, hs⟩

theorem own_ne_of_guests (hs : s.Allocated) (hh : s.handle? name = some h) :
    (s.own name h 1).1 ≠ h.cell := by
  have hself : 0 < s.holders h.cell :=
    List.countP_pos_iff.mpr ⟨(name, h), Std.ExtTreeMap.mem_toList_iff_getElem?_eq_some.mpr hh,
      beq_self_eq_true _⟩
  rw [own, if_pos (by omega)]
  exact Nat.ne_of_gt (hs name h hh)

theorem Owned.unshared_eq (hown : s.Owned name h cell next) (hs : s.Allocated)
    (hh : s.handle? name = some h) : next.unshared = s.unshared := by
  have hself : next.revision? name = some (s.view h) := by
    rw [revision?_of_handle? hown.handle?_eq, view, view, hown.cells_eq]
  rw [unshared_eq_update hself fun other hne => revision?_congr (hown.handle?_other other hne)
    fun h' hh' => hown.cells_old _ (hs other h' hh'), hown.supply_eq]
  exact Session.update_eq_self ((revision?_unshared s name).trans (revision?_of_handle? hh))

/-! ### Changes in place -/

theorem allocated_replace (hs : s.Allocated) : (s.replace cell t).Allocated := hs

theorem unshared_replace (hh : s.handle? name = some h) (halone : s.Alone name h.cell) :
    (s.replace h.cell t).unshared = s.unshared.update name ((s.view h).withTable t) := by
  have hname : (s.replace h.cell t).revision? name = some ((s.view h).withTable t).1 := by
    have hkept : (s.replace h.cell t).handle? name = some h := hh
    rw [revision?_of_handle? hkept, view, replace]
    simp only [if_true]
    rfl
  exact unshared_eq_update hname fun other hne => revision?_congr rfl
    fun h' hh' => if_neg (halone other h' hne hh')

theorem Owned.unshared_replace (hown : s.Owned name h cell next) (hs : s.Allocated)
    (hh : s.handle? name = some h) :
    (next.replace cell t).unshared = s.unshared.update name ((s.view h).withTable t) := by
  have hreplace := SharedSession.unshared_replace (t := t) hown.handle?_eq hown.alone
  rw [hown.unshared_eq hs hh] at hreplace
  exact hreplace

theorem unshared_change (hs : s.Allocated) (hh : s.handle? name = some h)
    (f : Table × Supply → Table × Supply) : (s.change name h f).unshared =
      s.unshared.update name ((s.view h).withTable (f (s.cells h.cell, s.supply))) := by
  have hown := owned_own hs hh 0
  rw [← hown.cells_eq, ← hown.supply_eq]
  exact hown.unshared_replace hs hh

theorem allocated_change (hs : s.Allocated) (hh : s.handle? name = some h)
    (f : Table × Supply → Table × Supply) : (s.change name h f).Allocated :=
  allocated_replace (owned_own hs hh 0).allocated

/-! ### Copies from cell to cell -/

@[simp] theorem replace_self (s : SharedSession) (cell : Nat) :
    s.replace cell (s.cells cell, s.supply) = s := by
  unfold replace
  congr 1
  funext other
  split
  · rename_i h
    rw [h]
  · rfl

@[simp] theorem replace_replace (s : SharedSession) (cell : Nat) (t u : Table × Supply) :
    (s.replace cell t).replace cell u = s.replace cell u := by
  unfold replace
  congr 1
  funext other
  dsimp only
  split <;> rfl

theorem foldl_copyNext (hne : source ≠ cell) (ids : List ObjectId) (s : SharedSession)
    (copies : List (ObjectId × ObjectId)) :
    ids.foldl (copyNext source cell root) (s, copies) =
      let c := ids.foldl (Revision.Copying.next (s.cells source) root)
        ⟨s.cells cell, copies, s.supply⟩
      (s.replace cell (c.table, c.supply), c.copies) := by
  induction ids generalizing s copies with
  | nil => exact congrArg (·, copies) (replace_self s cell).symm
  | cons id ids ih =>
      rw [List.foldl_cons, copyNext]
      dsimp only
      -- The source is in another cell, and is read as before.
      have hsource : ∀ t, (s.replace cell t).cells source = s.cells source := fun t => if_neg hne
      have hcell : ∀ t, (s.replace cell t).cells cell = t.1 := fun t => if_pos rfl
      rw [ih, hsource, hcell]
      exact congrArg (·, _) (replace_replace s cell _ _)

theorem copySubtree_eq (hne : source ≠ cell) (s : SharedSession) (root : ObjectId) :
    s.copySubtree source cell root =
      let copied := Revision.copySubtree (s.cells source) (s.cells cell, s.supply) root
      (copied.1, s.replace cell copied.2) := by
  rw [copySubtree, foldl_copyNext hne]
  rfl

theorem copySubtrees_eq (hne : source ≠ cell) (s : SharedSession) (roots : List ObjectId) :
    s.copySubtrees source cell roots =
      let copied := Revision.copySubtrees (s.cells source) (s.cells cell, s.supply) roots
      (copied.1, s.replace cell copied.2) := by
  induction roots generalizing s with
  | nil => exact congrArg (Prod.mk []) (replace_self s cell).symm
  | cons root roots ih =>
      have hsource : ∀ t, (s.replace cell t).cells source = s.cells source := fun t => if_neg hne
      have hcell : ∀ t, (s.replace cell t).cells cell = t.1 := fun t => if_pos rfl
      rw [copySubtrees, copySubtree_eq hne]
      dsimp only
      rw [ih, hsource, hcell]
      dsimp only
      rw [replace_replace]
      rfl

theorem own_ne_source (hs : s.Allocated) (hh : s.handle? name = some h)
    (hsource : s.handle? other = some h') : h'.cell ≠ (s.own name h (guests name other)).1 := by
  by_cases hname : name = other
  · subst hname
    rw [hh] at hsource
    cases hsource
    rw [guests, if_pos rfl]
    exact (own_ne_of_guests hs hh).symm
  · have hown := owned_own hs hh (guests name other)
    exact hown.alone other h' (Ne.symm hname)
      ((hown.handle?_other other (Ne.symm hname)).trans hsource)

/-! ### Commands -/

theorem allocated_put (hs : s.Allocated) (hcell : h.cell < s.unused) :
    (s.put name h).Allocated := by
  intro other h' hh'
  rw [handle?_put] at hh'
  split at hh'
  · cases hh'
    exact hcell
  · exact hs other h' hh'

theorem unshared_put : (s.put name h).unshared = s.unshared.put name (s.view h) := by
  have hname : (s.put name h).revision? name = some (s.view h) :=
    revision?_of_handle? (handle?_put.trans (if_pos rfl))
  exact unshared_eq_update hname fun other hne =>
    revision?_congr (handle?_put.trans (if_neg (Ne.symm hne))) fun _ _ => rfl

theorem unshared_allocate (hs : s.Allocated) {u : Table} :
    (s.allocate name h u).unshared = s.unshared.put name ⟨u, h.transient⟩ := by
  have hname : (s.allocate name h u).revision? name = some ⟨u, h.transient⟩ := by
    rw [revision?_of_handle? (handle?_allocate.trans (if_pos rfl)), view, cells_allocate,
      if_pos rfl]
  exact unshared_eq_update hname fun other hne =>
    revision?_congr (handle?_allocate.trans (if_neg (Ne.symm hne)))
      fun h' hh' => cells_allocate.trans (if_neg (Nat.ne_of_lt (hs other h' hh')))

theorem unshared_erase : unshared { s with handles := s.handles.erase name } =
    { s.unshared with revisions := s.unshared.revisions.erase name } := by
  refine Session.ext_revision? (fun other => ?_) rfl
  simp only [Session.revision?, unshared, Std.ExtTreeMap.getElem?_map,
    Std.ExtTreeMap.getElem?_erase]
  split <;> rfl

theorem allocated_erase (hs : s.Allocated) :
    Allocated { s with handles := s.handles.erase name } := by
  intro other h' hh'
  simp only [handle?, Std.ExtTreeMap.getElem?_erase] at hh'
  split at hh'
  · cases hh'
  · exact hs other h' hh'

/-- Outcomes of one command on both sides: the same refusal, or the same answer and sessions that
correspond. -/
inductive Agrees :
    Except Refusal (Answer × Session) → Except Refusal (Answer × SharedSession) → Prop
  | error (reason : Refusal) : Agrees (.error reason) (.error reason)
  | ok (answer : Answer) {next : SharedSession} (hnext : next.Allocated) :
      Agrees (.ok (answer, next.unshared)) (.ok (answer, next))

namespace Agrees

theorem done {plain : Session} (answer : Answer) (hnext : next.Allocated)
    (hplain : plain = next.unshared) : Agrees (pure (answer, plain)) (pure (answer, next)) :=
  hplain ▸ .ok answer hnext

theorem bind {α : Type} {x : Except Refusal α} {f : α → Except Refusal (Answer × Session)}
    {g : α → Except Refusal (Answer × SharedSession)}
    (h : ∀ a, x = .ok a → Agrees (f a) (g a)) : Agrees (x >>= f) (x >>= g) := by
  cases x with
  | error reason => exact .error reason
  | ok a => exact h a rfl

theorem handle {f : Revision → Except Refusal (Answer × Session)}
    {g : Handle → Except Refusal (Answer × SharedSession)}
    (h : ∀ h, s.handle? name = some h → Agrees (f (s.view h)) (g h)) :
    Agrees (s.unshared.revision name >>= f) (s.handle name >>= g) := by
  have hrevision := revision?_unshared s name
  unfold Session.revision SharedSession.handle
  rw [hrevision, revision?]
  cases hh : s.handle? name with
  | none => exact .error _
  | some found => exact h found hh

theorem editable {r : Revision} {f : Table → Except Refusal (Answer × Session)}
    {g : Table → Except Refusal (Answer × SharedSession)} (h : Agrees (f r.table) (g r.table)) :
    Agrees (Session.ofStore r.editable >>= f) (Session.ofStore r.editable >>= g) := by
  unfold Revision.editable
  split
  · exact h
  · exact .error _

theorem put {plain : Session} (answer : Answer) (hs : s.Allocated) (hcell : h.cell < s.unused)
    (hplain : plain = s.unshared.put name (s.view h)) :
    Agrees (pure (answer, plain)) (pure (answer, s.put name h)) :=
  .done answer (allocated_put hs hcell) (hplain.trans unshared_put.symm)

theorem unchanged {plain : Session} (answer : Answer) (hs : s.Allocated)
    (hh : s.handle? name = some h) (hplain : plain = s.unshared.update name (s.view h, s.supply)) :
    Agrees (pure (answer, plain)) (pure (answer, s)) := by
  refine .done answer hs (hplain.trans (Session.update_eq_self ?_))
  exact (revision?_unshared s name).trans (revision?_of_handle? hh)

theorem change {plain : Session} (answer : Answer) (hs : s.Allocated)
    (hh : s.handle? name = some h) (f : Table × Supply → Table × Supply)
    (hplain : plain =
      s.unshared.update name ((s.view h).withTable (f (s.cells h.cell, s.supply)))) :
    Agrees (pure (answer, plain)) (pure (answer, s.change name h f)) :=
  .done answer (allocated_change hs hh f) (hplain.trans (unshared_change hs hh f).symm)

end Agrees

theorem ofStore_bind {α β : Type} (x : Except StoreError α) (f : α → Except StoreError β) :
    Session.ofStore (x >>= f) = Session.ofStore x >>= fun a => Session.ofStore (f a) := by
  cases x <;> rfl

theorem ofStore_pure {α : Type} (a : α) : Session.ofStore (pure a) = pure a := rfl

theorem agrees_write (hs : s.Allocated) (hh : s.handle? name = some h)
    (updates : List (ObjectId × Payload)) :
    Agrees (Session.ofStore ((s.view h).write s.supply updates) >>= fun changed =>
      pure (.done, s.unshared.update name changed)) (s.write name h updates) := by
  simp only [Revision.write, write, ofStore_bind, ofStore_pure, bind_assoc, pure_bind]
  refine .editable (.bind fun staged _ => ?_)
  split
  · rename_i hnone
    rw [List.isEmpty_iff.mp hnone]
    exact .unchanged .done hs hh rfl
  · exact .change .done hs hh _ rfl

theorem Owned.agrees {plain : Session} (answer : Answer) (hown : s.Owned name h cell next)
    (hs : s.Allocated) (hh : s.handle? name = some h)
    (hplain : plain = s.unshared.update name ((s.view h).withTable t)) :
    Agrees (pure (answer, plain)) (pure (answer, next.replace cell t)) :=
  .done answer (allocated_replace hown.allocated)
    (hplain.trans (hown.unshared_replace hs hh).symm)

theorem agrees_copySubtree (hs : s.Allocated) (hh : s.handle? name = some h)
    (hh' : s.handle? other = some h') (hown : s.Owned name h cell next) (hne : h'.cell ≠ cell)
    (root : ObjectId) :
    let copied := Revision.copySubtree (s.cells h'.cell) (s.cells h.cell, s.supply) root
    Agrees (pure (.object copied.1, s.unshared.update name ((s.view h).withTable copied.2)))
      (pure (.object (next.copySubtree h'.cell cell root).1,
        (next.copySubtree h'.cell cell root).2)) := by
  rw [copySubtree_eq hne, hown.cells_eq, hown.supply_eq, hown.cells_old _ (hs other h' hh')]
  exact hown.agrees _ hs hh rfl

theorem agrees_copySubtrees (hs : s.Allocated) (hh : s.handle? name = some h)
    (hh' : s.handle? other = some h') (hown : s.Owned name h cell next) (hne : h'.cell ≠ cell)
    (roots : List ObjectId) :
    let copied := Revision.copySubtrees (s.cells h'.cell) (s.cells h.cell, s.supply) roots
    Agrees (pure (.copies (.ofList copied.1),
        s.unshared.update name ((s.view h).withTable copied.2)))
      (pure (.copies (.ofList (next.copySubtrees h'.cell cell roots).1),
        (next.copySubtrees h'.cell cell roots).2)) := by
  rw [copySubtrees_eq hne, hown.cells_eq, hown.supply_eq, hown.cells_old _ (hs other h' hh')]
  exact hown.agrees _ hs hh rfl

/-- Each command checks the same on both sides before it changes anything, and then changes a table
that it has to itself. -/
theorem agrees_perform (hs : s.Allocated) (command : Command) :
    Agrees (s.unshared.perform command) (s.perform command) := by
  cases command with
  | start name =>
      exact .done .done (allocated_allocate hs)
        (unshared_allocate hs (h := { cell := s.unused }) (u := .empty)).symm
  | fork name source => exact .handle fun h hh => .put .done hs (hs source h hh) rfl
  | finalize name => exact .handle fun h hh => .put .done hs (hs name h hh) rfl
  | drop name =>
      have hpresent : (s.unshared.revision? name).isSome = (s.handle? name).isSome := by
        rw [revision?_unshared, revision?, Option.isSome_map]
      rw [Session.perform, hpresent]
      exact .done _ (allocated_erase hs) unshared_erase.symm
  | add name payload place =>
      simp only [Session.perform, perform, Revision.add, ofStore_bind, ofStore_pure, bind_assoc,
        pure_bind]
      exact .handle fun h hh => .editable (.bind fun _ _ => .bind fun kept _ =>
        .change _ hs hh _ rfl)
  | write name updates => exact .handle fun h hh => agrees_write hs hh updates
  | apply name sel change => exact .handle fun h hh => agrees_write hs hh _
  | delete name id =>
      simp only [Session.perform, perform, Revision.delete, ofStore_bind, bind_assoc]
      refine .handle fun h hh => .editable ?_
      split
      · exact .change .done hs hh _ rfl
      · exact .error _
  | deleteSelected name sel =>
      simp only [Session.perform, perform, Revision.deleteSelected, ofStore_bind, ofStore_pure,
        bind_assoc, pure_bind]
      refine .handle fun h hh => .editable ?_
      split
      · -- Nothing is deleted, so that the table stays shared.
        rename_i hnone
        rw [List.isEmpty_iff.mp hnone]
        exact .unchanged .done hs hh rfl
      · exact .change .done hs hh _ rfl
  | relocate name id place =>
      simp only [Session.perform, perform, Revision.relocate, Table.relocate, ofStore_bind,
        ofStore_pure, bind_assoc, pure_bind]
      refine .handle fun h hh => .editable ?_
      cases hplace : place.check (s.view h).table (some id) with
      | error e => exact .error _
      | ok _ => exact .change .done hs hh (fun t => (t.1.move id place, t.2)) rfl
  | copy name source id =>
      simp only [Session.perform, perform, Revision.copy, ofStore_bind, bind_assoc]
      refine .handle fun h hh => .handle fun h' hh' => .editable ?_
      split
      · exact agrees_copySubtree hs hh hh' (owned_own hs hh _) (own_ne_source hs hh hh') id
      · exact .error _
  | copySelected name source sel =>
      simp only [Session.perform, perform, Revision.copySelected, ofStore_bind, ofStore_pure,
        bind_assoc, pure_bind]
      refine .handle fun h hh => .handle fun h' hh' => .editable ?_
      split
      · rename_i hnone
        rw [List.isEmpty_iff.mp hnone]
        exact .unchanged (.copies .none) hs hh rfl
      · exact agrees_copySubtrees hs hh hh' (owned_own hs hh _) (own_ne_source hs hh hh') _

/-! ### Runs -/

theorem unshared_step (hs : s.Allocated) (command : Command) :
    s.unshared.step command = ((s.step command).1, (s.step command).2.unshared) ∧
      (s.step command).2.Allocated := by
  have hperform := agrees_perform hs command
  unfold Session.step step
  generalize s.unshared.perform command = plain at hperform
  generalize s.perform command = outcome at hperform
  cases hperform with
  | error reason => exact ⟨rfl, hs⟩
  | ok answer hnext => exact ⟨rfl, hnext⟩

theorem unshared_run (hs : s.Allocated) (commands : List Command) :
    s.unshared.run commands = ((s.run commands).1, (s.run commands).2.unshared) ∧
      (s.run commands).2.Allocated := by
  induction commands generalizing s with
  | nil => exact ⟨rfl, hs⟩
  | cons command commands ih =>
      obtain ⟨hstep, hnext⟩ := unshared_step hs command
      obtain ⟨hrun, hlast⟩ := ih hnext
      rw [Session.run_cons, hstep, hrun]
      exact ⟨rfl, hlast⟩

structure Sound (s : SharedSession) : Prop where
  allocated : s.Allocated
  reachable : s.unshared.Reachable

theorem Sound.run (hs : s.Sound) (commands : List Command) : (s.run commands).2.Sound := by
  obtain ⟨hrun, hallocated⟩ := unshared_run hs.allocated commands
  have hreachable := hs.reachable.run commands
  rw [hrun] at hreachable
  exact ⟨hallocated, hreachable⟩

theorem unshared_start (supply : Supply) : unshared { supply } = { supply } :=
  Session.ext_revision? (fun name => by rw [revision?_unshared]; rfl) rfl

theorem sound_start (supply : Supply) : Sound { supply } where
  allocated name h hh := by simp [handle?] at hh
  reachable := unshared_start supply ▸ .start supply

theorem run_start (supply : Supply) (commands : List Command) :
    Session.run { supply } commands =
      ((run { supply } commands).1, (run { supply } commands).2.unshared) := by
  rw [← (unshared_run (sound_start supply).allocated commands).1, unshared_start]

theorem Sound.revision?_step_of_ne (hs : s.Sound) {command : Command}
    (hname : command.subject ≠ name) : (s.step command).2.revision? name = s.revision? name := by
  have hplain := Session.revision?_step_of_ne s.unshared hname
  rwa [(unshared_step hs.allocated command).1, revision?_unshared, revision?_unshared] at hplain

theorem Sound.revision?_run_of_final (hs : s.Sound) {r : Revision}
    (hr : s.revision? name = some r) (hfinal : r.transient = false) {commands : List Command}
    (hworks : ∀ command ∈ commands, command.subject = name → command.works = true) :
    (s.run commands).2.revision? name = some r := by
  have hplain := hs.reachable.revision?_run_of_final ((revision?_unshared s name).trans hr) hfinal
    hworks
  rwa [(unshared_run hs.allocated commands).1, revision?_unshared] at hplain

theorem Sound.step_eq_notTransient (hs : s.Sound) {r : Revision} {command : Command}
    (hr : s.revision? command.subject = some r) (hfinal : r.transient = false)
    (hmutates : command.mutates = true)
    (hreads : ∀ name ∈ command.reads, ∃ source, s.revision? name = some source) :
    s.step command = (.error (.store .notTransient), s) := by
  simp only [← revision?_unshared] at hr hreads
  have hplain := hs.reachable.step_eq_notTransient hr hfinal hmutates hreads
  rw [(unshared_step hs.allocated command).1, Prod.mk.injEq] at hplain
  have hanswer := hplain.1
  unfold step at hanswer ⊢
  cases hperform : s.perform command with
  | ok result =>
      rw [hperform] at hanswer
      cases hanswer
  | error reason =>
      rw [hperform] at hanswer
      cases hanswer
      rfl

/-- A session with shared tables answers every run like one without, and holds the same revisions
after it. So no command is seen in a revision that it is not about, whatever the revision shares,
and a revision that is final stays what it is and refuses every change. -/
theorem isolation {supply : Supply} {commands : List Command}
    {answers : List (Except Refusal Answer)} (hrun : run { supply } commands = (answers, s)) :
    (answers = (Session.run { supply } commands).1 ∧
      ∀ name, s.revision? name = (Session.run { supply } commands).2.revision? name) ∧
    (∀ command name, command.subject ≠ name →
      (s.step command).2.revision? name = s.revision? name) ∧
    ∀ name r, s.revision? name = some r → r.transient = false →
      ∀ later : List Command, (∀ command ∈ later, command.subject = name → command.works = true) →
        (s.run later).2.revision? name = some r ∧
        ∀ command, command.subject = name → command.mutates = true →
          (∀ source ∈ command.reads, ∃ r', (s.run later).2.revision? source = some r') →
            (s.run later).2.step command = (.error (.store .notTransient), (s.run later).2) := by
  have hs : s.Sound := by
    have hlast := (sound_start supply).run commands
    rwa [hrun] at hlast
  have hplain := run_start supply commands
  rw [hrun] at hplain
  refine ⟨⟨by rw [hplain], fun name => by rw [hplain, revision?_unshared]⟩,
    fun command name => hs.revision?_step_of_ne, fun name r hr hfinal later hworks => ?_⟩
  have hlast := hs.revision?_run_of_final hr hfinal hworks
  refine ⟨hlast, ?_⟩
  rintro command rfl hmutates hreads
  exact (hs.run later).step_eq_notTransient hlast hfinal hmutates hreads

/-- A final revision whose table is shared by a fork and by the fork of the fork. -/
def drafts : List Command :=
  [.start "a", .add "a" (.blank .component) .top, .finalize "a", .fork "b" "a", .fork "c" "b"]

theorem isolation_drafts :
    ∃ answers s r, run {} drafts = (answers, s) ∧ s.revision? "a" = some r ∧
      r.transient = false ∧ s.holders 0 = 3 ∧
        (s.step (.delete "b" ⟨0⟩)).2.revision? "c" = s.revision? "c" ∧
          (s.run [.delete "b" ⟨0⟩, .copy "c" "a" ⟨0⟩, .drop "b"]).2.revision? "a" = some r := by
  have hrun : run {} drafts = (_, _) := rfl
  obtain ⟨-, hothers, hfinal⟩ := isolation hrun
  refine ⟨_, _, _, hrun, rfl, rfl, rfl, hothers (.delete "b" ⟨0⟩) "c" (by decide), ?_⟩
  refine (hfinal "a" _ rfl rfl _ fun command hcommand hname => ?_).1
  simp only [List.mem_cons, List.not_mem_nil, or_false] at hcommand
  rcases hcommand with rfl | rfl | rfl
  · rfl
  · rfl
  · simp [Command.subject] at hname

end SharedSession

end Schematic
