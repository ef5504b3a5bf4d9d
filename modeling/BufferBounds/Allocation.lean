import BufferBounds.Store

/-!
# Allocations

How buffers come into a store. Which arguments of an allocator tell the size is known for the usual
ones; any other takes the size as its first argument.
-/

namespace BufferBounds

/-! ## Sizes -/

/-- Which arguments of a call tell the size of the buffer. -/
inductive SizeLayout where
  /-- the argument at this place -/
  | single (place : Nat)
  /-- the product of the arguments at these places -/
  | product (place₁ place₂ : Nat)
  deriving DecidableEq

namespace SizeLayout

/-- The arguments that tell the size in a call of this allocator. -/
def ofCallee : String → SizeLayout
  | "calloc" => .product 0 1
  | "realloc" => .single 1
  | "aligned_alloc" => .single 1
  | _ => .single 0

/-- The size that a call with these arguments asks for. It is unknown if an argument is missing. -/
def size (layout : SizeLayout) (args : List Interval) : Interval :=
  match layout with
  | .single place => args[place]?.getD .unknown
  | .product place₁ place₂ =>
    match args[place₁]?, args[place₂]? with
    | some count, some each => count.mul each
    | _, _ => .unknown

end SizeLayout

/-! ## Records -/

/-- A buffer that was allocated. -/
structure Allocation where
  /-- where -/
  site : Site
  /-- the variable that points to it -/
  pointer : String
  /-- the size that was asked for -/
  size : Interval
  deriving DecidableEq

/-- Is anything known of the size? -/
def Allocation.isSizeKnown (a : Allocation) : Bool := !a.size.isUnknown

/-! ## Pointers in a store -/

namespace Store

/-- Makes a variable point to a new buffer. -/
def allocate (s : Store) (a : Allocation) : Store :=
  s.bind a.pointer (.pointer (.fresh a.site a.size))

/-- Makes `target` point to what `source` points to. -/
def copyPointer (s : Store) (target source : String) : Store :=
  s.bind target (.pointer ((s.pointer? source).getD .untracked))

/-- Makes a variable point to something of which nothing is known. -/
def invalidate (s : Store) (pointer : String) : Store :=
  s.bind pointer (.pointer .untracked)

end Store

end BufferBounds
