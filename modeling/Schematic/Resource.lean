namespace Schematic

/-- A handle to a resource instance, or the empty handle. Two handles are the same resource
exactly when they carry the same key, or are both empty. -/
structure Resource where
  key? : Option Nat
  deriving DecidableEq

namespace Resource

def empty : Resource := ⟨none⟩

instance : Inhabited Resource := ⟨empty⟩

def isEmpty (r : Resource) : Bool := r.key?.isNone

/-- How many of some handles refer to the instance of `r`; the empty handle refers to none. -/
def refCount (r : Resource) (handles : List Resource) : Nat :=
  if r.isEmpty then 0 else handles.count r

inductive Content
  | text (value : String)
  | number (value : Int32)
  deriving DecidableEq

structure Held where
  handle : Resource
  content? : Option Content
  deriving DecidableEq

structure Pool where
  handles : List (String × Held) := []
  next : Nat := 0

namespace Pool

def get? (pool : Pool) (name : String) : Option Held := pool.handles.lookup name

def put (pool : Pool) (name : String) (held : Held) : Pool :=
  { pool with handles := (name, held) :: pool.handles.filter fun h => h.1 != name }

def create (pool : Pool) (name : String) (content : Content) : Pool :=
  { pool.put name ⟨⟨some pool.next⟩, some content⟩ with next := pool.next + 1 }

def putEmpty (pool : Pool) (name : String) : Pool := pool.put name ⟨empty, none⟩

def share (pool : Pool) (name source : String) : Pool :=
  match pool.get? source with
  | some held => pool.put name held
  | none => pool

def drop (pool : Pool) (name : String) : Pool :=
  { pool with handles := pool.handles.filter fun h => h.1 != name }

def held (pool : Pool) : List Resource := pool.handles.map fun h => h.2.handle

def refCount (pool : Pool) (r : Resource) : Nat := r.refCount pool.held

end Pool

end Resource

end Schematic
