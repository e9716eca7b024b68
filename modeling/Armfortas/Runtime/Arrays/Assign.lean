import Armfortas.Lib.BlockHeap
import Armfortas.Lib.MixedRadix

/-! Array descriptors and `afs_assign_allocatable`. Addresses are integers with `0` for null. The dimensions are a
list whose length is the rank; the scalar type tag, which the runtime keeps in the first dimension of a rank zero
descriptor, is a field of its own. Reading or writing a byte outside of the live blocks, and freeing what is not a
block, is `badAccess`. -/
namespace Armfortas.Runtime.Arrays

open Lib

/-! ## Descriptors -/

structure DimDescriptor where
  lowerBound : Int
  upperBound : Int
  stride : Int
  deriving DecidableEq, Repr

/-- The runtime computes this and the products of extents in `i64`; `ArrayDescriptor.Bounded` says where they fit. -/
def DimDescriptor.extent (d : DimDescriptor) : Int :=
  if d.upperBound < d.lowerBound then 0 else d.upperBound - d.lowerBound + 1

structure ArrayDescriptor where
  baseAddr : Int
  elemSize : Int
  flags : BitVec 32
  dims : List DimDescriptor
  scalarTag : Int
  vtable : Int
  deriving DecidableEq, Repr

def maxRank : Nat := 15

def descAllocated : BitVec 32 := 1

def descContiguous : BitVec 32 := 2

def descPointer : BitVec 32 := 4

def descTypeTagMask : BitVec 32 := 0xffffff00

def i64Max : Int := 9223372036854775807

def saturatingMul (a b : Int) : Int := min (a * b) i64Max

namespace ArrayDescriptor

def zeroed : ArrayDescriptor where
  baseAddr := 0
  elemSize := 0
  flags := 0
  dims := []
  scalarTag := 0
  vtable := 0

def rank (d : ArrayDescriptor) : Nat := d.dims.length

def isAllocated (d : ArrayDescriptor) : Bool := d.flags &&& descAllocated != 0

def totalElements (d : ArrayDescriptor) : Int := d.dims.foldl (fun total dim => total * dim.extent) 1

def totalBytes (d : ArrayDescriptor) : Int := d.totalElements * d.elemSize

def scalarTypeTag (d : ArrayDescriptor) : Int := if d.rank = 0 then d.scalarTag else 0

def setScalarTypeTag (d : ArrayDescriptor) (tag : Int) : ArrayDescriptor :=
  if d.rank = 0 then { d with scalarTag := tag } else d

def setDynamicVtablePtr (d : ArrayDescriptor) (p : Int) : ArrayDescriptor := { d with vtable := p }

def extents (d : ArrayDescriptor) : List Nat := d.dims.map fun dim => dim.extent.toNat

def strides (d : ArrayDescriptor) : List Int := d.dims.map DimDescriptor.stride

end ArrayDescriptor

open ArrayDescriptor

def descriptorIsZeroSizeArray (d : ArrayDescriptor) : Bool :=
  decide (0 < d.rank) && decide (0 < d.elemSize) && d.totalElements == 0

def descriptorLooksSane (d : ArrayDescriptor) : Bool :=
  let knownFlags := descAllocated ||| descContiguous ||| descPointer ||| descTypeTagMask
  if d.flags &&& ~~~knownFlags != 0 then false
  else if maxRank < d.rank then false
  else if d.elemSize < 0 then false
  else if d.isAllocated && d.baseAddr == 0 && !descriptorIsZeroSizeArray d then false
  else if !d.isAllocated && d.baseAddr != 0 then false
  else true

/-! ## Copying a payload -/

inductive Abort where
  | outOfMemory
  | badAccess
  deriving DecidableEq, Repr

def access : Option BlockHeap → Except Abort BlockHeap
  | some heap => .ok heap
  | none => .error .badAccess

/-- Whether a stride is negative or above the canonical column-major one. -/
def strided (canonical : Int) : List DimDescriptor → Bool
  | [] => false
  | d :: ds =>
      if d.stride < 0 ∨ canonical < d.stride then true
      else strided (saturatingMul canonical (max d.extent 1)) ds

/-- The walk over the subscript tuples in array element order, from the `k`-th element on. -/
def copyElements (source : ArrayDescriptor) (destBase : Int) : Nat → Nat → List Nat → BlockHeap → Except Abort BlockHeap
  | 0, _, _, heap => .ok heap
  | n + 1, k, idx, heap => do
      let srcOff := offset source.strides idx * source.elemSize
      let dstOff := k * source.elemSize
      let heap ← access
        (heap.copyNonoverlapping (source.baseAddr + srcOff) (destBase + dstOff) source.elemSize.toNat)
      copyElements source destBase n (k + 1) (advanceDigits source.extents idx) heap

def copySameTypePayloadToContiguous (source : ArrayDescriptor) (destBase : Int) (heap : BlockHeap) :
    Except Abort BlockHeap :=
  let bytes := source.totalBytes
  if bytes ≤ 0 ∨ source.baseAddr = 0 ∨ destBase = 0 then .ok heap
  else if strided 1 source.dims then
    copyElements source destBase source.totalElements.toNat 0 (List.replicate source.rank 0) heap
  else
    access (heap.copy source.baseAddr destBase bytes.toNat)

def sourceBasePointsIntoDestStorage (dest source : ArrayDescriptor) : Bool :=
  if !dest.isAllocated ∨ dest.baseAddr = 0 ∨ source.baseAddr = 0 then false
  else
    let destBytes := dest.totalBytes
    if destBytes ≤ 0 then false
    else
      let destEnd := min (dest.baseAddr + destBytes) BlockHeap.addressLimit
      decide (dest.baseAddr ≤ source.baseAddr) && decide (source.baseAddr < destEnd)

/-! ## The assignment -/

/-- What a `source` pointer shows: another descriptor, or `dest` itself as it is by now. -/
def view (source : Option ArrayDescriptor) (dest : ArrayDescriptor) : ArrayDescriptor := source.getD dest

def freeStorage (heap : BlockHeap) (dest : ArrayDescriptor) : Except Abort BlockHeap :=
  if dest.isAllocated ∧ dest.baseAddr ≠ 0 then access (heap.free dest.baseAddr) else .ok heap

def shapesMatch (dest source : ArrayDescriptor) : Bool :=
  dest.dims.map DimDescriptor.extent == source.dims.map DimDescriptor.extent

/-- The bounds with the strides of a fresh contiguous array. -/
def canonicalDims (runningStride : Int) : List DimDescriptor → List DimDescriptor
  | [] => []
  | d :: ds =>
      { d with stride := runningStride } :: canonicalDims (saturatingMul runningStride (max d.extent 1)) ds

variable (A : Allocator)

/-- The buffer is allocated zeroed and dropped at the end of the call. -/
def takeSnapshot (dest source : ArrayDescriptor) (heap : BlockHeap) : Except Abort (BlockHeap × Option Int) :=
  if sourceBasePointsIntoDestStorage dest source ∧ 0 < source.totalBytes then
    match A.malloc heap source.totalBytes.toNat with
    | none => .error .outOfMemory
    | some (buf, _) => do
        let heap ← copySameTypePayloadToContiguous source buf
          (heap.alloc ⟨buf, source.totalBytes.toNat⟩ fun _ => 0)
        .ok (heap, some buf)
  else
    .ok (heap, none)

/-- The shape of the source with canonical strides, before storage is allocated. -/
def reshaped (dest source : ArrayDescriptor) : ArrayDescriptor :=
  { dest with dims := canonicalDims 1 source.dims, elemSize := source.elemSize }

def released (dest : ArrayDescriptor) : ArrayDescriptor :=
  if dest.isAllocated ∧ dest.baseAddr ≠ 0 then
    { dest with baseAddr := 0, flags := dest.flags &&& ~~~descAllocated }
  else
    dest

def allocateStorage (dest : ArrayDescriptor) (heap : BlockHeap) : Except Abort (BlockHeap × ArrayDescriptor) :=
  let bytes := dest.totalBytes
  let flags := descAllocated ||| descContiguous
  if 0 < bytes then
    match A.malloc heap bytes.toNat with
    | none => .error .outOfMemory
    | some (p, fill) => .ok (heap.alloc ⟨p, bytes.toNat⟩ fill, { dest with baseAddr := p, flags := flags })
  else
    .ok (heap, { dest with flags := flags })

def reallocate (source : Option ArrayDescriptor) (dest : ArrayDescriptor) (heap : BlockHeap) :
    Except Abort (BlockHeap × ArrayDescriptor) := do
  let freed ← freeStorage heap dest
  let dest := released dest
  allocateStorage A (reshaped dest (view source dest)) freed

def copyPayload (snapshot : Option Int) (dest source : ArrayDescriptor) (heap : BlockHeap) : Except Abort BlockHeap :=
  let bytes := source.totalBytes
  if 0 < bytes ∧ source.baseAddr ≠ 0 ∧ dest.baseAddr ≠ 0 then
    match snapshot with
    | some buf => access (heap.copyNonoverlapping buf dest.baseAddr (min bytes dest.totalBytes).toNat)
    | none => copySameTypePayloadToContiguous source dest.baseAddr heap
  else
    .ok heap

def dropSnapshot (snapshot : Option Int) (heap : BlockHeap) : Except Abort BlockHeap :=
  match snapshot with
  | some buf => access (heap.free buf)
  | none => .ok heap

/-- Storage of the source's shape, the old one where it serves. -/
def prepareStorage (source : Option ArrayDescriptor) (dest : ArrayDescriptor) (heap : BlockHeap) :
    Except Abort (BlockHeap × ArrayDescriptor) :=
  if !shapesMatch dest (view source dest) ∨ !dest.isAllocated then reallocate A source dest heap else .ok (heap, dest)

/-- The copy and the dynamic type, once `dest` has its storage. -/
def finishAssign (source : Option ArrayDescriptor) (snapshot : Option Int) (dest : ArrayDescriptor) (heap : BlockHeap) :
    Except Abort (BlockHeap × ArrayDescriptor) := do
  let src := view source dest
  let copied ← copyPayload snapshot dest src heap
  let dropped ← dropSnapshot snapshot copied
  .ok (dropped, (dest.setScalarTypeTag src.scalarTypeTag).setDynamicVtablePtr src.vtable)

/-- `afs_assign_allocatable`; `none` as the source is `dest` itself. -/
def assignAllocatable (heap : BlockHeap) (dest : ArrayDescriptor) (source : Option ArrayDescriptor) :
    Except Abort (BlockHeap × ArrayDescriptor) := do
  let dest := if descriptorLooksSane dest then dest else zeroed
  let src := view source dest
  if !src.isAllocated ∧ src.baseAddr = 0 ∧ !descriptorIsZeroSizeArray src then
    let heap ← freeStorage heap dest
    .ok (heap, zeroed)
  else
    let (heap, snapshot) ← takeSnapshot A dest src heap
    let (heap, dest) ← prepareStorage A source dest heap
    finishAssign source snapshot dest heap

/-! ## What an assignment is for -/

/-- The canonical column-major strides, as far as the integers of the runtime go. -/
def canonicalStrides (running : Int) : List Int → List Int
  | [] => []
  | e :: es => running :: canonicalStrides (saturatingMul running (max e 1)) es

namespace ArrayDescriptor

def elementAddr (d : ArrayDescriptor) (k : Nat) : Int :=
  d.baseAddr + offset d.strides (digits d.extents k) * d.elemSize

/-- The `k`-th element in array element order. -/
def element (d : ArrayDescriptor) (heap : BlockHeap) (k : Nat) : List UInt8 :=
  BlockHeap.window heap.bytes (d.elementAddr k) d.elemSize.toNat

def Canonical (d : ArrayDescriptor) : Prop :=
  d.strides = canonicalStrides 1 (d.dims.map DimDescriptor.extent)

/-- The extents, the products of the first of them and the size in bytes are `i64`. -/
structure Bounded (d : ArrayDescriptor) : Prop where
  extents : ∀ e ∈ d.dims.map DimDescriptor.extent, e ≤ i64Max
  products : ∀ es ∈ (d.dims.map DimDescriptor.extent).inits, es.prod ≤ i64Max
  bytes : d.totalBytes ≤ i64Max

/-- An allocated descriptor owns the block of its elements; without a byte to store it needs none. -/
structure Owns (heap : BlockHeap) (d : ArrayDescriptor) : Prop where
  allocated : d.isAllocated = true
  bounded : d.Bounded
  canonical : d.Canonical
  storage : (⟨d.baseAddr, d.totalBytes.toNat⟩ : HeapBlock) ∈ heap.blocks ∨ d.baseAddr = 0 ∧ d.totalBytes = 0

/-- What an allocatable variable can be. -/
structure Allocatable (heap : BlockHeap) (d : ArrayDescriptor) : Prop where
  extents : ∀ e ∈ d.dims.map DimDescriptor.extent, e ≤ i64Max
  state : d.isAllocated = false ∨ d.Owns heap

/-- An array whose elements are live and lie apart. -/
structure Present (heap : BlockHeap) (d : ArrayDescriptor) : Prop where
  rank : d.rank ≤ maxRank
  elemSize : 0 ≤ d.elemSize
  bounded : d.Bounded
  given : d.isAllocated = true ∨ d.baseAddr ≠ 0 ∨ descriptorIsZeroSizeArray d = true
  stored : 0 < d.totalBytes →
    ∃ b ∈ heap.blocks, ∀ k < d.extents.prod, ∀ i : Nat, i < d.elemSize.toNat → b.Holds (d.elementAddr k + i)
  distinct : ∀ is js, List.Forall₂ (· < ·) is d.extents → List.Forall₂ (· < ·) js d.extents →
    offset d.strides is = offset d.strides js → is = js

/-- `dest` is now the array that `source` was. -/
structure Assigned (before : BlockHeap) (source : ArrayDescriptor) (after : BlockHeap) (dest : ArrayDescriptor) :
    Prop where
  heap : after.Ok
  owns : dest.Owns after
  shape : dest.dims.map DimDescriptor.extent = source.dims.map DimDescriptor.extent
  elemSize : dest.elemSize = source.elemSize
  elements : ∀ k < source.extents.prod, dest.element after k = source.element before k

end ArrayDescriptor

/-- The call asks for memory and gets none: for the snapshot of a source that lies in the storage of `dest`, or, with
that made and the old storage freed, for storage of the source's shape. -/
inductive Refused (heap : BlockHeap) (dest source : ArrayDescriptor) : Prop
  | snapshot (hinto : sourceBasePointsIntoDestStorage dest source = true) (hbytes : 0 < source.totalBytes)
      (hmalloc : A.malloc heap source.totalBytes.toNat = none)
  | storage {mid freed : BlockHeap} {snapshot : Option Int}
      (hsnapshot : takeSnapshot A dest source heap = .ok (mid, snapshot))
      (hshape : shapesMatch dest source = false ∨ dest.isAllocated = false) (hfreed : freeStorage mid dest = .ok freed)
      (hbytes : 0 < source.totalBytes) (hmalloc : A.malloc freed source.totalBytes.toNat = none)

end Armfortas.Runtime.Arrays
