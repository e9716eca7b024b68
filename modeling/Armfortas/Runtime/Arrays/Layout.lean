import Armfortas.Runtime.Arrays.Assign

/-! `checked_allocation_layout`, `afs_allocate_array`, `afs_descriptors_overlap` and `afs_create_section`. A pointer
that may be null is an `Option`. What the source checks for overflow or saturates is checked or saturated here; the
address arithmetic of sections, which it does not check, is exact. -/
namespace Armfortas.Runtime.Arrays
open Lib

/-! ## Allocation -/

def i64Min : Int := -9223372036854775808

def checkedI64 (x : Int) : Option Int := if i64Min ≤ x ∧ x ≤ i64Max then some x else none

def okOr {α : Type} (x : Option α) (message : String) : Except String α := x.elim (.error message) .ok

def checkedDimExtent (dim : DimDescriptor) : Option Int :=
  if dim.upperBound < dim.lowerBound then some 0
  else (checkedI64 (dim.upperBound - dim.lowerBound)).bind fun n => checkedI64 (n + 1)

structure CheckedAllocationLayout where
  dims : List DimDescriptor
  bytes : Int

/-- The loop over the bounds, from an element count and a stride on. -/
def layoutDims : List DimDescriptor → Int → Int → Except String (List DimDescriptor × Int)
  | [], total, _ => .ok ([], total)
  | input :: inputs, total, runningStride => do
      let extent ← okOr (checkedDimExtent input) "dimension extent overflows"
      let total ← okOr (checkedI64 (total * extent)) "element count overflows"
      let next ← okOr (checkedI64 (runningStride * max extent 1)) "contiguous stride overflows"
      let (dims, total) ← layoutDims inputs total next
      .ok ({ input with stride := runningStride } :: dims, total)

/-- `dims` shows the `rank` values behind `dims_ptr`. -/
def checkedAllocationLayout (elemSize rank : Int) (dims : Option (List DimDescriptor)) :
    Except String CheckedAllocationLayout :=
  if rank < 0 ∨ (maxRank : Int) < rank then .error "rank is outside the supported range"
  else if elemSize < 0 then .error "element size is negative"
  else if 0 < rank ∧ dims = none then .error "dimension descriptor is missing"
  else do
    let (dims, total) ← layoutDims ((dims.getD []).take rank.toNat) 1 1
    let bytes ← okOr ((checkedI64 (total * elemSize)).filter (0 ≤ ·)) "allocation byte count overflows"
    .ok ⟨dims, bytes⟩

def ArrayDescriptor.clearDynamicTypeMetadata (d : ArrayDescriptor) : ArrayDescriptor :=
  if d.rank = 0 then { d with scalarTag := 0, vtable := 0 }
  else { d with flags := d.flags &&& ~~~descTypeTagMask, vtable := 0 }

/-- The heap, the descriptor and what is stored through `stat`, or the text printed before the program ends. -/
abbrev AllocateOutcome := Except String (BlockHeap × Option ArrayDescriptor × Option Int)

def reportAllocationFailure (heap : BlockHeap) (desc : Option ArrayDescriptor) (stat : Bool) (code : Int)
    (message : String) : AllocateOutcome :=
  if stat then .ok (heap, desc, some code) else .error ("ALLOCATE: " ++ message)

/-- The storage of a layout, zeroed; null for none. -/
def layoutStorage (A : Allocator) (heap : BlockHeap) (bytes : Nat) : Option (BlockHeap × Int) :=
  if bytes = 0 then some (heap, 0)
  else (A.malloc heap bytes).map fun (p, _) => (heap.alloc ⟨p, bytes⟩ fun _ => 0, p)

def ArrayDescriptor.publish (d : ArrayDescriptor) (elemSize data : Int) (dims : List DimDescriptor) :
    ArrayDescriptor :=
  { ({ d with elemSize := elemSize, dims := dims }).clearDynamicTypeMetadata with
    baseAddr := data
    flags := descAllocated ||| descContiguous }

def afsAllocateArray (A : Allocator) (heap : BlockHeap) (desc : Option ArrayDescriptor) (elemSize rank : Int)
    (dims : Option (List DimDescriptor)) (stat : Bool) : AllocateOutcome :=
  match desc with
  | none => reportAllocationFailure heap desc stat 1 "null array descriptor"
  | some d =>
      if d.isAllocated then reportAllocationFailure heap desc stat 2 "array is already allocated"
      else
        match checkedAllocationLayout elemSize rank dims with
        | .error message => reportAllocationFailure heap desc stat 4 message
        | .ok layout =>
            match layoutStorage A heap layout.bytes.toNat with
            | none => reportAllocationFailure heap desc stat 3 "out of memory"
            | some (heap, data) =>
                .ok (heap, some (d.publish elemSize data layout.dims), if stat then some 0 else none)

/-! ## Overlap -/

def i128Min : Int := -170141183460469231731687303715884105728

def i128Max : Int := 170141183460469231731687303715884105727

def saturateI128 (x : Int) : Int := max i128Min (min i128Max x)

/-- The loop over the dimensions, from the least and the greatest element offset on. -/
def offsetRange : List DimDescriptor → Int → Int → Option (Int × Int)
  | [], least, greatest => some (least, greatest)
  | dim :: dims, least, greatest =>
      if dim.extent ≤ 0 then none
      else
        let lastOffset := saturateI128 ((dim.extent - 1) * dim.stride)
        if lastOffset < 0 then offsetRange dims (saturateI128 (least + lastOffset)) greatest
        else offsetRange dims least (saturateI128 (greatest + lastOffset))

def descriptorByteSpan (d : ArrayDescriptor) : Option (Int × Int) :=
  if d.baseAddr = 0 ∨ d.elemSize ≤ 0 ∨ maxRank < d.rank then none
  else
    (offsetRange d.dims 0 0).map fun (least, greatest) =>
      let low := saturateI128 (d.baseAddr + saturateI128 (least * d.elemSize))
      let high := saturateI128 (saturateI128 (d.baseAddr + saturateI128 (greatest * d.elemSize)) + d.elemSize)
      (min low high, max low high)

def afsDescriptorsOverlap (left right : Option ArrayDescriptor) : Int :=
  match left.bind descriptorByteSpan, right.bind descriptorByteSpan with
  | some (leftLow, leftHigh), some (rightLow, rightHigh) => if leftLow < rightHigh ∧ rightLow < leftHigh then 1 else 0
  | _, _ => 0

/-! ## Sections -/

structure SectionSpec where
  start : Int
  stop : Int
  stride : Int
  deriving DecidableEq, Repr

def SectionSpec.extent (spec : SectionSpec) : Int :=
  if 0 < spec.stride ∧ spec.stop < spec.start ∨ spec.stride < 0 ∧ spec.start < spec.stop then 0
  else (spec.stop - spec.start).tdiv spec.stride + 1

/-- The byte offset of the section and its dimensions. A stride of zero selects one subscript and drops the
dimension. -/
def sectionDims (elemSize : Int) : List DimDescriptor → List SectionSpec → Int × List DimDescriptor
  | dim :: dims, spec :: specs =>
      let (byteOffset, kept) := sectionDims elemSize dims specs
      ((spec.start - dim.lowerBound) * dim.stride * elemSize + byteOffset,
        if spec.stride = 0 then kept else ⟨1, spec.extent, dim.stride * spec.stride⟩ :: kept)
  | _, _ => (0, [])

/-- The type tag of the source, and whether the section counts as contiguous. -/
def sectionFlags (tag : BitVec 32) (dims : List DimDescriptor) : BitVec 32 :=
  let flags := descContiguous ||| tag
  if dims.all fun dim => dim.stride == 1 then flags else flags &&& ~~~descContiguous

/-- The dimensions of `result` behind its new rank stay; of these only the tag of a scalar can be read. -/
def createSection (source result : ArrayDescriptor) (specs : List SectionSpec) : ArrayDescriptor :=
  let (byteOffset, dims) := sectionDims source.elemSize source.dims specs
  { result with
    elemSize := source.elemSize
    vtable := source.vtable
    dims := dims
    baseAddr := if source.baseAddr = 0 then 0 else source.baseAddr + byteOffset
    flags := sectionFlags (source.flags &&& descTypeTagMask) dims }

def ArrayDescriptor.isContiguous (d : ArrayDescriptor) : Bool := d.flags &&& descContiguous != 0

/-! ## Subscripts -/

def InBounds : List DimDescriptor → List Int → Prop :=
  List.Forall₂ fun dim s => dim.lowerBound ≤ s ∧ s ≤ dim.upperBound

def subscriptOffset : List DimDescriptor → List Int → Int
  | dim :: dims, s :: ss => (s - dim.lowerBound) * dim.stride + subscriptOffset dims ss
  | _, _ => 0

def ArrayDescriptor.subscriptAddr (d : ArrayDescriptor) (subs : List Int) : Int :=
  d.baseAddr + subscriptOffset d.dims subs * d.elemSize

/-- A descriptor with storage: its base is a pointer, its extents are `i64`. -/
structure ArrayDescriptor.Addressable (d : ArrayDescriptor) : Prop where
  base_pos : 0 < d.baseAddr
  base_lt : d.baseAddr < 2 ^ 64
  rank_le : d.rank ≤ maxRank
  extent_le : ∀ dim ∈ d.dims, dim.extent ≤ i64Max

/-- Some element of the array takes up the byte at `a`. -/
def ArrayDescriptor.HoldsByte (d : ArrayDescriptor) (a : Int) : Prop :=
  ∃ subs, InBounds d.dims subs ∧ d.subscriptAddr subs ≤ a ∧ a < d.subscriptAddr subs + d.elemSize

/-- The subscripts of the source that the subscripts `js` of a section select. -/
def selected : List SectionSpec → List Int → List Int
  | [], _ => []
  | spec :: specs, js =>
      if spec.stride = 0 then spec.start :: selected specs js
      else
        match js with
        | [] => []
        | j :: js => (spec.start + (j - 1) * spec.stride) :: selected specs js

/-- The triplets that select at once what `inner` selects of what `outer` selects. -/
def composed : List SectionSpec → List SectionSpec → List SectionSpec
  | [], _ => []
  | outer :: outers, inners =>
      if outer.stride = 0 then outer :: composed outers inners
      else
        match inners with
        | [] => []
        | inner :: inners =>
            ⟨outer.start + (inner.start - 1) * outer.stride, outer.start + (inner.stop - 1) * outer.stride,
              outer.stride * inner.stride⟩ :: composed outers inners

end Armfortas.Runtime.Arrays
