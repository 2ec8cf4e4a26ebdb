import Schematic.Binary64.Basic
import Schematic.Resource

namespace Schematic

/-- Values are compared as a reader of a drawing sees them: a NaN is not the same as itself, and
both zeros are the same. -/
class SameValue (α : Type) where
  same : α → α → Bool

export SameValue (same)

instance : SameValue Binary64 := ⟨Binary64.same⟩

instance : SameValue Int32 := ⟨fun a b => a == b⟩

instance : SameValue Bool := ⟨fun a b => a == b⟩

instance : SameValue String := ⟨fun a b => a == b⟩

instance : SameValue Resource := ⟨fun a b => a == b⟩

end Schematic
