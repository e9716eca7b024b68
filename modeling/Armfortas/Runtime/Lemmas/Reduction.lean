import Mathlib.Data.List.Zip
import Armfortas.Runtime.Openmp.Reduction

/-! What each section of a call does to the slots and to the result. -/
namespace Armfortas.Runtime.Openmp
open Lib List Option ReductionCall

@[simp] theorem ReductionOperator.ofCode_code (op : ReductionOperator) : ofCode op.code = some op := by
  cases op <;> decide

/-! ## Arrays as bytes -/

section Arrays

variable {kind : ReductionKind} {op : ReductionOperator}

theorem ReductionKind.bytes_pos (kind : ReductionKind) : 0 < kind.bytes := by cases kind <;> decide

theorem length_arrayBytes (xs : List kind.Element) : (arrayBytes xs).length = xs.length * kind.bytes := by
  rw [arrayBytes, length_flatMap]
  simp only [length_natBytes, map_const', sum_replicate_nat]

theorem read_middle (before after : List (BitVec 8)) (x : kind.Element) :
    readReductionElement kind (before ++ natBytes kind.bytes x.toNat ++ after) before.length = x := by
  have hlt : x.toNat < 256 ^ kind.bytes := by
    have := x.isLt
    rwa [Nat.pow_mul] at this
  rw [readReductionElement, append_assoc, drop_left, take_left' (length_natBytes _ _), bytesNat_natBytes,
    Nat.mod_eq_of_lt hlt, BitVec.ofNat_toNat, BitVec.setWidth_eq]

theorem write_middle (before old after : List (BitVec 8)) (x : kind.Element) (h : old.length = kind.bytes) :
    writeReductionElement kind (before ++ old ++ after) before.length x =
      before ++ natBytes kind.bytes x.toNat ++ after := by
  have htake : (before ++ old ++ after).take before.length = before := by rw [append_assoc, take_left]
  rw [writeReductionElement, htake, drop_left' (by rw [length_append, h])]

theorem arrayBytes_append (xs ys : List kind.Element) : arrayBytes (xs ++ ys) = arrayBytes xs ++ arrayBytes ys :=
  flatMap_append

theorem arrayBytes_cons (x : kind.Element) (xs : List kind.Element) :
    arrayBytes (x :: xs) = natBytes kind.bytes x.toNat ++ arrayBytes xs := flatMap_cons

theorem arrayBytes_split {xs : List kind.Element} {i} (h : i < xs.length) : arrayBytes xs =
    arrayBytes (xs.take i) ++ natBytes kind.bytes (xs.get ⟨i, h⟩).toNat ++ arrayBytes (xs.drop (i + 1)) := by
  rw [append_assoc, ← arrayBytes_cons, ← arrayBytes_append, get_eq_getElem, getElem_cons_drop,
    take_append_drop]

theorem elementOffsets_mul (len) {width} (h : 0 < width) :
    elementOffsets (len * width) width = (List.range len).map (· * width) := by
  have hdiv : (len * width + width - 1) / width = len := by
    rw [Nat.add_sub_assoc h, Nat.mul_comm, Nat.mul_add_div h, Nat.div_eq_of_lt (by omega), Nat.add_zero]
  rw [elementOffsets, hdiv]

theorem combine_loop {xs ys : List kind.Element} (hlen : ys.length = xs.length) {c} (hc : c ≤ xs.length) :
    ((List.range c).map (· * kind.bytes)).foldl (fun left offset => writeReductionElement kind left offset
        (op.combine (readReductionElement kind left offset) (readReductionElement kind (arrayBytes ys) offset)))
      (arrayBytes xs) = arrayBytes (List.zipWith (fun a b => op.combine a b) (xs.take c) (ys.take c) ++ xs.drop c) := by
  induction c with
  | zero => simp
  | succ c ih =>
    have hx : c < xs.length := hc
    have hy : c < ys.length := by omega
    have htaken : (List.zipWith (fun a b => op.combine a b) (xs.take c) (ys.take c)).length = c := by
      rw [length_zipWith, length_take, length_take]
      omega
    have hleft : arrayBytes (List.zipWith (fun a b => op.combine a b) (xs.take c) (ys.take c) ++ xs.drop c) =
        arrayBytes (List.zipWith (fun a b => op.combine a b) (xs.take c) (ys.take c)) ++
          natBytes kind.bytes (xs.get ⟨c, hx⟩).toNat ++ arrayBytes (xs.drop (c + 1)) := by
      rw [append_assoc, ← arrayBytes_cons, ← arrayBytes_append, get_eq_getElem, getElem_cons_drop]
    have hoffset : c * kind.bytes =
        (arrayBytes (List.zipWith (fun a b => op.combine a b) (xs.take c) (ys.take c))).length := by
      rw [length_arrayBytes, htaken]
    have hoffset' : c * kind.bytes = (arrayBytes (ys.take c)).length := by
      rw [length_arrayBytes, length_take, Nat.min_eq_left hy.le]
    have hread : readReductionElement kind (arrayBytes ys) (c * kind.bytes) = ys.get ⟨c, hy⟩ := by
      rw [arrayBytes_split hy, hoffset', read_middle]
    rw [range_succ, map_append, foldl_append, ih (by omega), map_singleton, foldl_cons,
      foldl_nil, hread, hleft, hoffset, read_middle, write_middle _ _ _ _ (length_natBytes _ _), append_assoc,
      ← arrayBytes_cons, ← arrayBytes_append, take_add_one, take_add_one, getElem?_eq_getElem hx,
      getElem?_eq_getElem hy, toList_some, toList_some,
      zipWith_append (by rw [length_take, length_take]; omega), append_assoc]
    rfl

theorem combineIntegerArray_arrayBytes {xs ys : List kind.Element} (hlen : ys.length = xs.length) :
    combineIntegerArray op kind (arrayBytes xs) (arrayBytes ys) =
      arrayBytes (List.zipWith (fun a b => op.combine a b) xs ys) := by
  rw [combineIntegerArray, length_arrayBytes, elementOffsets_mul _ kind.bytes_pos, combine_loop hlen le_rfl,
    drop_length, append_nil, take_length, ← hlen, take_length]

theorem combineSlots_arrayBytes {xs : List kind.Element} {slots : List (List kind.Element)}
    (hlen : ∀ ys ∈ slots, ys.length = xs.length) : combineSlots op.code kind (arrayBytes xs) (slots.map arrayBytes) =
      (arrayBytes (slots.foldl (List.zipWith fun a b => op.combine a b) xs), .success) := by
  induction slots generalizing xs with
  | nil => rfl
  | cons ys slots ih =>
    have hys := hlen ys mem_cons_self
    have hstep : combineReductionArrays op.code kind (arrayBytes xs) (arrayBytes ys) =
        some (arrayBytes (List.zipWith (fun a b => op.combine a b) xs ys)) := by
      rw [combineReductionArrays, if_neg (by rw [length_arrayBytes, length_arrayBytes, hys]; exact fun h => h rfl),
        ReductionOperator.ofCode_code, map_some, combineIntegerArray_arrayBytes hys]
    rw [map_cons, combineSlots, hstep, foldl_cons]
    refine ih fun zs hzs => ?_
    rw [length_zipWith, hys, Nat.min_self]
    exact hlen zs (.tail _ hzs)

end Arrays

theorem length_foldl_zipWith {α : Type} {f : α → α → α} {xs : List α} {slots : List (List α)}
    (hlen : ∀ ys ∈ slots, ys.length = xs.length) : (slots.foldl (List.zipWith f) xs).length = xs.length := by
  induction slots generalizing xs with
  | nil => rfl
  | cons ys slots ih =>
    have hzip : (List.zipWith f xs ys).length = xs.length := by
      rw [length_zipWith, hlen ys mem_cons_self, Nat.min_self]
    rw [foldl_cons, ih fun zs hzs => by rw [hzip, hlen zs (.tail _ hzs)], hzip]

/-! ## The sections of a call -/

/-- The array is neither empty nor longer than an allocation can be. -/
def Reduction.Valid {n : Nat} : Reduction n → Prop
  | .i64 .. => True
  | .array _ kind original .. => 0 < original.length ∧ original.length * kind.bytes ≤ 2 ^ 63 - 1

instance {n : Nat} (r : Reduction n) : Decidable r.Valid := by
  cases r <;> unfold Reduction.Valid <;> infer_instance

theorem reductionArrayByteLen_eq {kind : ReductionKind} {len} (hpos : 0 < len)
    (hle : len * kind.bytes ≤ 2 ^ 63 - 1) : reductionArrayByteLen kind (.ofNat len) = some (len * kind.bytes) := by
  have hlen : len ≤ len * kind.bytes := Nat.le_mul_of_pos_right len kind.bytes_pos
  have hcount : (Int64.ofNat len).toInt = len := Int64.toInt_ofNat_of_lt (by omega)
  rw [reductionArrayByteLen, hcount, if_pos (by omega)]
  rw [Int.toNat_natCast, if_pos ⟨by omega, hle⟩]

namespace Reduction

variable {n : Nat} {r r' : Reduction n} {m m' : Fin n} {w : ReductionWorkspace}

theorem check_eq (h : r.Valid) (m : Fin n) : (r.call m).check = .success := by
  cases r with
  | i64 operator original privates => simp [call, check, combineI64Reduction]
  | array operator kind original privates lengths =>
    rw [call, check, reductionArrayByteLen_eq h.1 h.2]
    simp [validReductionArrayOperator]

def Written (r : Reduction n) (m : Fin n) (w : ReductionWorkspace) : Prop :=
  match r with
  | .i64 _ _ privates => w.slots.length = n ∧ w.slots[m.val]? = some (privates m)
  | .array _ _ _ privates _ => w.arraySlots.length = n ∧ w.arraySlots[m.val]? = some (arrayBytes (privates m))

def Result (r : Reduction n) (w : ReductionWorkspace) : Prop := ∀ m, (r.call m).read w = r.expected

theorem length_resize {α : Type} (xs : List α) (len) (value : α) : (resize xs len value).length = len := by
  rw [resize, length_append, length_take, length_replicate]
  omega

theorem resize_of_length {α : Type} {xs : List α} {len} (h : xs.length = len) (value : α) :
    resize xs len value = xs := by
  rw [resize, h, Nat.sub_self, replicate_zero, append_nil, ← h, take_length]

theorem written_write (h : r.Valid) (m : Fin n) (w) : r.Written m ((r.call m).write m.val n w) := by
  cases r with
  | i64 operator original privates =>
    have hlen : (if w.slots.length ≠ n then resize w.slots n 0 else w.slots).length = n := by
      split
      · exact length_resize ..
      · exact Classical.not_not.mp ‹_›
    rw [call, write]
    exact ⟨by rw [length_set, hlen], getElem?_set_self (by rw [hlen]; exact m.isLt)⟩
  | array operator kind original privates lengths =>
    have htake : (arrayBytes (privates m)).take (original.length * kind.bytes) = arrayBytes (privates m) :=
      take_of_length_le (by rw [length_arrayBytes, lengths])
    rw [call, write, reductionArrayByteLen_eq h.1 h.2, getD_some, htake]
    exact ⟨by rw [length_set, length_resize], getElem?_set_self (by rw [length_resize]; exact m.isLt)⟩

theorem Written.write (h : r'.Written m' w) (hne : m' ≠ m) : r'.Written m' ((r.call m).write m.val n w) := by
  have hval : m.val ≠ m'.val := fun he => hne (Fin.ext he.symm)
  cases r' with
  | i64 operator original privates =>
    obtain ⟨hlen, hslot⟩ := h
    cases r with
    | i64 operator' original' privates' =>
      rw [call, write, if_neg (fun hn => hn hlen)]
      exact ⟨by rw [length_set, hlen], by rw [getElem?_set_ne hval, hslot]⟩
    | array => exact ⟨hlen, hslot⟩
  | array operator kind original privates lengths =>
    obtain ⟨hlen, hslot⟩ := h
    cases r with
    | i64 => exact ⟨hlen, hslot⟩
    | array operator' kind' original' privates' lengths' =>
      rw [call, write, resize_of_length hlen]
      exact ⟨by rw [length_set, hlen], by rw [getElem?_set_ne hval, hslot]⟩

theorem Result.write (h : r'.Result w) : r'.Result ((r.call m).write m.val n w) := by
  intro m'
  rw [← h m']
  cases r <;> cases r' <;> rfl

theorem eq_ofFn {α β : Type} {slots : List α} {f : β → α} {privates : Fin n → β} (hlen : slots.length = n)
    (h : ∀ m : Fin n, slots[m.val]? = some (f (privates m))) : slots = (List.ofFn privates).map f := by
  refine ext_getElem (by simp [hlen]) fun i hi hi' => ?_
  have hm := h ⟨i, hlen ▸ hi⟩
  rw [getElem?_eq_getElem hi, some.injEq] at hm
  rw [hm]
  simp

theorem foldlM_combine (op : ReductionOperator) (values : List (BitVec 64)) (start : BitVec 64) :
    values.foldlM (combineI64Reduction op.code) start = some (values.foldl (fun a b => op.combine a b) start) := by
  induction values generalizing start with
  | nil => rfl
  | cons v values ih =>
    rw [foldlM_cons, combineI64Reduction, ReductionOperator.ofCode_code]
    exact ih _

theorem fold_written (hvalid : r.Valid) (h : ∀ m, r.Written m w) (m : Fin n) :
    ∃ w', (r.call m).fold w = some w' ∧ r.Result w' ∧
      ∀ (r' : Reduction n) (m' : Fin n), r'.Written m' w → r'.Written m' w' := by
  cases r with
  | i64 operator original privates =>
    have hslots : w.slots = (List.ofFn privates).map id := eq_ofFn (h m).1 fun m' => (h m').2
    rw [List.map_id] at hslots
    refine ⟨{ w with result := (List.ofFn privates).foldl (fun a b => operator.combine a b) original }, ?_, fun _ => rfl,
      fun r' m' hw => ?_⟩
    · rw [call, ReductionCall.fold, hslots, foldlM_combine, map_some]
    · cases r' <;> exact hw
  | array operator kind original privates lengths =>
    have hslots : w.arraySlots = (List.ofFn privates).map arrayBytes := eq_ofFn (h m).1 fun m' => (h m').2
    have hlen : ∀ ys ∈ List.ofFn privates, ys.length = original.length := by
      intro ys hys
      obtain ⟨m', rfl⟩ := (mem_ofFn' _ _).mp hys
      exact lengths m'
    have htake : (arrayBytes original).take (original.length * kind.bytes) = arrayBytes original :=
      take_of_length_le (length_arrayBytes original).le
    have hcombined := @combineSlots_arrayBytes kind operator _ _ hlen
    refine ⟨{ w with
      arrayResult := arrayBytes ((List.ofFn privates).foldl (List.zipWith fun a b => operator.combine a b) original)
      arrayStatus := .success }, ?_, fun m' => ?_, fun r' m' hw => ?_⟩
    · rw [call, ReductionCall.fold, reductionArrayByteLen_eq hvalid.1 hvalid.2, getD_some, htake, hslots, hcombined]
    · rw [call, ReductionCall.read, reductionArrayByteLen_eq hvalid.1 hvalid.2, getD_some, expected]
      rw [if_neg (fun hn => hn rfl), take_of_length_le (by rw [length_arrayBytes, length_foldl_zipWith hlen])]
    · cases r' <;> exact hw

end Reduction

end Armfortas.Runtime.Openmp
