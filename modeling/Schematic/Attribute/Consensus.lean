import Schematic.SameValue

namespace Schematic

inductive Consensus (α : Type)
  /-- None of the objects has a value. -/
  | notApplicable
  | consistent (value : α)
  | inconsistent
  deriving DecidableEq

namespace Consensus

variable {α : Type}

def merge [SameValue α] : Consensus α → α → Consensus α
  | notApplicable, value => consistent value
  | consistent current, value => if same current value then consistent current else inconsistent
  | inconsistent, _ => inconsistent

def ofList [SameValue α] (values : List α) : Consensus α := values.foldl merge notApplicable

def value? : Consensus α → Option α
  | consistent value => some value
  | _ => none

theorem foldl_merge_inconsistent [SameValue α] (values : List α) :
    values.foldl merge inconsistent = inconsistent := by
  induction values with
  | nil => rfl
  | cons value values ih => exact ih

theorem foldl_merge_consistent [SameValue α] (current : α) (values : List α) :
    values.foldl merge (consistent current) =
      if values.all (same current ·) then consistent current else inconsistent := by
  induction values with
  | nil => rfl
  | cons value values ih =>
      cases h : same current value with
      | true => simp [merge, h, ih]
      | false => simp [merge, h, foldl_merge_inconsistent]

theorem ofList_cons [SameValue α] (first : α) (values : List α) :
    ofList (first :: values) =
      if values.all (same first ·) then consistent first else inconsistent :=
  foldl_merge_consistent first values

end Consensus

end Schematic
