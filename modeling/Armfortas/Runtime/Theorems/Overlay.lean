import Armfortas.Runtime.Format.Overlay

/-! The buffer, the cursor and the high-water mark keep the texts of the fields, the newest on top, but not their
padding blanks. -/
namespace Armfortas.Runtime.Format
open List Option Sheet OutputOp

variable {fields : List Field} {o : FormatOutput} {s : Sheet} {p : Nat}

/-- The text over a position as the code keeps it: padding is transparent. -/
def ink (fields : List Field) (p : Nat) : UInt8 := (fields.findSome? (Field.textAt p)).getD 32

def inked (fields : List Field) : List UInt8 := (List.range (recordLength fields)).map (ink fields)

theorem ink_cons (f : Field) (fields : List Field) (p : Nat) :
    ink (f :: fields) p = (f.textAt p).getD (ink fields p) := by
  rw [ink, findSome?_cons]
  cases f.textAt p <;> rfl

theorem stop_le_recordLength {f} (h : f ∈ fields) : f.stop ≤ recordLength fields := by
  induction fields with
  | nil => cases h
  | cons g fields ih =>
    rcases mem_cons.mp h with rfl | h
    · exact le_max_right _ _
    · exact (ih h).trans (le_max_left _ _)

theorem Field.textAt_of_stop_le {f : Field} (h : f.stop ≤ p) : f.textAt p = none := by
  unfold Field.stop at h
  rw [Field.textAt, if_neg (by omega), getElem?_eq_none (by omega)]

theorem Field.charAt_of_stop_le {f : Field} (h : f.stop ≤ p) : f.charAt p = none := by
  rw [Field.charAt, if_neg, f.textAt_of_stop_le h]
  unfold Field.stop at h
  omega

theorem ink_of_le (h : recordLength fields ≤ p) : ink fields p = 32 := by
  rw [ink, findSome?_eq_none_iff.mpr fun f hf => f.textAt_of_stop_le ((stop_le_recordLength hf).trans h)]
  rfl

theorem Sheet.fits_iff : s.Fits ↔ (∀ fields ∈ s.done, recordLength fields ≤ isizeMax) ∧
    recordLength s.fields ≤ isizeMax := by
  rw [Sheet.Fits, records, forall_mem_append, forall_mem_singleton]

theorem fits_of_put {pad text} (h : (s.put pad text).Fits) : s.Fits := by
  unfold put at h
  split at h
  · exact h
  · obtain ⟨hdone, hlast⟩ := fits_iff.mp h
    exact fits_iff.mpr ⟨hdone, (max_le_iff.mp hlast).1⟩

theorem fits_of_place {op : OutputOp} (h : (op.place s).Fits) : s.Fits := by
  cases op with
  | write bytes => exact fits_of_put h
  | writeFitted bytes width =>
    rw [OutputOp.place] at h
    split at h <;> exact fits_of_put h
  | newRecord => exact fun fields hfields => h fields (mem_append_left _ hfields)
  | _ => exact h

structure Matches (o : FormatOutput) (s : Sheet) : Prop where
  fits : s.Fits
  records : o.records = s.done.map inked
  record : o.record = inked s.fields
  pos : o.pos = s.pos
  highWater : o.highWater = recordLength s.fields

/-- The code has come as far as the sheet, or it has panicked and a record of the sheet is too long. -/
inductive Tracks : Except FormatFailure FormatOutput → Sheet → Prop
  | ok {o : FormatOutput} {s : Sheet} (h : Matches o s) : Tracks (.ok o) s
  | panics {s : Sheet} (h : ¬s.Fits) : Tracks (.error .panics) s

theorem Tracks.bind {r f s'} (h : Tracks r s) (hf : ∀ o, Matches o s → Tracks (f o) s') (hfits : s'.Fits → s.Fits) :
    Tracks (r.bind f) s' := by
  cases h with
  | ok h => exact hf _ h
  | panics h => exact .panics (mt hfits h)

/-- A record grows by blanks, as far as a `Vec` can. -/
theorem Matches.grown (h : Matches o s) (stop : Nat) :
    o.grown stop = if stop ≤ isizeMax then .ok ((List.range (max (recordLength s.fields) stop)).map (ink s.fields))
      else .error .panics := by
  have hlength : (inked s.fields).length = recordLength s.fields := by rw [inked, length_map, length_range]
  have hle := (fits_iff.mp h.fits).2
  rw [FormatOutput.grown, h.record, hlength]
  split
  · next hstop => rw [if_neg (by omega)]
  · next hstop =>
    rw [if_pos (by omega)]
    have hmax : max (recordLength s.fields) stop = recordLength s.fields + (stop - recordLength s.fields) := by omega
    rw [hmax, range_add, map_append, List.map_map]
    refine congrArg (fun blanks => Except.ok (_ ++ blanks)) (eq_replicate_iff.mpr ⟨by simp, ?_⟩).symm
    intro c hc
    obtain ⟨i, -, rfl⟩ := List.mem_map.mp hc
    exact ink_of_le (Nat.le_add_right _ _)

theorem getElem?_map_range (g : Nat → UInt8) (n p : Nat) :
    ((List.range n).map g)[p]? = if p < n then some (g p) else none := by
  rw [getElem?_map]
  split
  · next h => rw [getElem?_range h]; rfl
  · next h => rw [getElem?_eq_none (by simpa using h)]; rfl

theorem splice_eq {g : Nat → UInt8} {bytes : List UInt8} {start length} (hle : start + bytes.length ≤ length) :
    ((List.range length).map g).take start ++ bytes ++ ((List.range length).map g).drop (start + bytes.length) =
      (List.range length).map fun p => ((Field.mk start 0 bytes).textAt p).getD (g p) := by
  refine ext_getElem? fun p => ?_
  have hstart : (((List.range length).map g).take start).length = start := by simp; omega
  rw [append_assoc, getElem?_append, getElem?_append, hstart, getElem?_take, getElem?_drop,
    getElem?_map_range, getElem?_map_range, getElem?_map_range, Field.textAt, Nat.add_zero]
  dsimp only
  by_cases hlt : p < start
  · simp only [if_pos hlt, if_pos (show p < length by omega), getD_none]
  · rw [if_neg hlt, if_neg hlt]
    by_cases hin : p - start < bytes.length
    · rw [if_pos hin, if_pos (by omega), getElem?_eq_getElem hin, getD_some]
    · rw [if_neg hin, getElem?_eq_none (by omega), getD_none]
      rw [show start + bytes.length + (p - start - bytes.length) = p by omega]

theorem saturatingAdd_le_iff {a b : Nat} : saturatingAdd a b ≤ isizeMax ↔ a + b ≤ isizeMax := by
  unfold saturatingAdd isizeMax
  omega

theorem saturatingAdd_eq {a b : Nat} (h : a + b ≤ isizeMax) : saturatingAdd a b = a + b := by
  unfold isizeMax at h
  exact min_eq_left (by omega)

/-- A field that is written at the cursor, where `new` is the record with it on top. -/
theorem Matches.put (h : Matches o s) {pad text count} (hcount : pad + text.length = count) (hpos : count ≠ 0)
    (new : List UInt8 → Nat → List UInt8)
    (hnew : new ((List.range (max (recordLength s.fields) (s.pos + count))).map (ink s.fields)) (s.pos + count) =
      inked (⟨s.pos, pad, text⟩ :: s.fields)) :
    Tracks ((o.grown (saturatingAdd o.pos count)).map fun record =>
      { o with
        record := new record (saturatingAdd o.pos count)
        pos := saturatingAdd o.pos count
        highWater := max o.highWater (saturatingAdd o.pos count) }) (s.put pad text) := by
  subst hcount
  rw [h.grown, h.pos, Sheet.put, if_neg hpos]
  split
  · next hle =>
    have hfit := saturatingAdd_le_iff.mp hle
    rw [saturatingAdd_eq hfit]
    have hlength : recordLength (⟨s.pos, pad, text⟩ :: s.fields) = max (recordLength s.fields) (s.pos + (pad + text.length)) :=
      congrArg (max _) (Nat.add_assoc _ _ _)
    refine .ok ⟨?_, h.records, hnew, (Nat.add_assoc _ _ _).symm, ?_⟩
    · refine fits_iff.mpr ⟨(fits_iff.mp h.fits).1, ?_⟩
      rw [hlength]
      exact max_le (fits_iff.mp h.fits).2 hfit
    · rw [hlength, h.highWater]
  · next hlt =>
    refine .panics fun hfits => hlt (saturatingAdd_le_iff.mpr ?_)
    rw [← Nat.add_assoc]
    exact (max_le_iff.mp (fits_iff.mp hfits).2).2

theorem Matches.write (h : Matches o s) (bytes) : Tracks (o.write bytes) (s.put 0 bytes) := by
  unfold FormatOutput.write
  split
  · next hempty =>
    rw [List.isEmpty_iff.mp hempty]
    exact .ok h
  · next hempty =>
    refine h.put (Nat.zero_add _) (by simpa using hempty) (fun record stop =>
      record.take o.pos ++ bytes ++ record.drop stop) ?_
    rw [h.pos, splice_eq (le_max_right _ _)]
    exact map_congr_left fun p _ => (ink_cons _ _ p).symm

theorem Matches.writeSpaces (h : Matches o s) (count) : Tracks (o.writeSpaces count) (s.put count []) := by
  unfold FormatOutput.writeSpaces
  split
  · next hzero =>
    rw [hzero]
    exact .ok h
  · next hzero =>
    refine h.put (Nat.add_zero count) hzero (fun record _ => record) (map_congr_left fun p _ => ?_)
    simp only [ink_cons, Field.textAt, getElem?_nil, ite_self, getD_none]

theorem put_split (s : Sheet) (pad : Nat) (text : List UInt8) :
    ((s.put pad []).put 0 text).done = (s.put pad text).done ∧ ((s.put pad []).put 0 text).pos = (s.put pad text).pos ∧
      recordLength ((s.put pad []).put 0 text).fields = recordLength (s.put pad text).fields ∧
      ink ((s.put pad []).put 0 text).fields = ink (s.put pad text).fields := by
  by_cases htext : text = []
  · subst htext
    exact ⟨rfl, rfl, rfl, rfl⟩
  by_cases hpad : pad = 0
  · subst hpad
    exact ⟨rfl, rfl, rfl, rfl⟩
  have hlen : 0 + text.length ≠ 0 := by simpa using htext
  rw [put, if_neg hlen, put, if_neg (by simpa using hpad), put, if_neg (by omega)]
  refine ⟨rfl, rfl, ?_, funext fun p => ?_⟩
  · simp only [recordLength, Field.stop, length_nil]
    omega
  · simp only [ink_cons, Field.textAt, length_nil, getElem?_nil, ite_self, getD_none, Nat.add_zero]

theorem Matches.field (h : Matches o s) (pad text) :
    Tracks ((o.writeSpaces pad).bind (FormatOutput.write · text)) (s.put pad text) := by
  obtain ⟨hdone, hpos, hlength, hink⟩ := put_split s pad text
  have hfits : ((s.put pad []).put 0 text).Fits ↔ (s.put pad text).Fits := by rw [fits_iff, fits_iff, hdone, hlength]
  have htracks : Tracks ((o.writeSpaces pad).bind (FormatOutput.write · text)) ((s.put pad []).put 0 text) :=
    (h.writeSpaces pad).bind (fun o h => h.write text) fits_of_put
  generalize (o.writeSpaces pad).bind (FormatOutput.write · text) = r at htracks ⊢
  cases htracks with
  | ok h =>
    refine .ok ⟨hfits.mp h.fits, hdone ▸ h.records, h.record.trans ?_, h.pos.trans hpos, h.highWater.trans hlength⟩
    rw [inked, inked, hlength, hink]
  | panics h => exact .panics (mt hfits.mpr h)

theorem Matches.apply (h : Matches o s) (op : OutputOp) : Tracks (op.apply o) (op.place s) := by
  cases op with
  | write bytes => exact h.write bytes
  | writeFitted bytes width =>
    rw [OutputOp.place, OutputOp.apply, FormatOutput.writeFitted]
    split
    · exact h.write bytes
    · split
      · next hlt =>
        rw [take_of_length_le hlt.le]
        exact h.field _ bytes
      · next hge =>
        rw [Nat.sub_eq_zero_of_le (by omega)]
        exact h.write _
  | advance count => exact .ok ⟨h.fits, h.records, h.record, congrArg (saturatingAdd · count) h.pos, h.highWater⟩
  | tabTo position => exact .ok ⟨h.fits, h.records, h.record, rfl, h.highWater⟩
  | tabLeft count => exact .ok ⟨h.fits, h.records, h.record, congrArg (· - count) h.pos, h.highWater⟩
  | newRecord =>
    refine .ok ⟨fits_iff.mpr ⟨h.fits, Nat.zero_le _⟩, ?_, rfl, rfl, rfl⟩
    change o.records ++ [o.record.take o.highWater] = (s.done ++ [s.fields]).map inked
    rw [h.records, h.record, h.highWater, take_of_length_le (by simp [inked]), map_append]
    rfl

theorem run_tracks {r} (ops : List OutputOp) (h : Tracks r s) :
    Tracks (r.bind fun o => ops.foldlM OutputOp.apply o) (ops.foldl OutputOp.place s) := by
  induction ops generalizing r s with
  | nil => cases h <;> constructor <;> assumption
  | cons op ops ih =>
    have hstep := ih (h.bind (fun o h => h.apply op) fits_of_place)
    cases r <;> exact hstep

/-! ## The blanks of a field -/

theorem ink_eq_iff : ink fields p = (fields.findSome? (Field.charAt p)).getD 32 ↔
      ∀ f, fields.find? (fun f => (f.charAt p).isSome) = some f → p < f.start + f.pad → ink fields p = 32 := by
  induction fields with
  | nil => simp [ink]
  | cons f fields ih =>
    rw [ink_cons, findSome?_cons, find?_cons]
    by_cases hpad : f.start ≤ p ∧ p < f.start + f.pad
    · have htext : f.textAt p = none := if_pos hpad.2
      rw [Field.charAt, if_pos hpad, htext]
      exact ⟨fun h _ _ _ => h, fun h => h f rfl hpad.2⟩
    · have hchar : f.charAt p = f.textAt p := if_neg hpad
      rw [hchar]
      cases htext : f.textAt p with
      | none => exact ih
      | some c =>
        have hge : ¬p < f.start + f.pad := fun hlt => by
          rw [Field.textAt, if_pos hlt] at htext
          cases htext
        exact ⟨fun _ g hg hlt => absurd (some.inj hg ▸ hlt) hge, fun _ => rfl⟩

theorem ink_eq_blank_iff : ink fields p = 32 ↔ ∀ c, fields.findSome? (Field.textAt p) = some c → c = 32 := by
  rw [ink]
  cases fields.findSome? (Field.textAt p) <;> simp

theorem inked_eq_overlay_iff : inked fields = overlay fields ↔ PaddingOnBlank fields := by
  simp only [PaddingOnBlank, ← ink_eq_blank_iff, ← ink_eq_iff]
  rw [inked, overlay, map_inj_left]
  refine ⟨fun h p => ?_, fun h p _ => h p⟩
  rcases lt_or_ge p (recordLength fields) with hlt | hge
  · exact h p (mem_range.mpr hlt)
  · rw [ink_of_le hge,
      findSome?_eq_none_iff.mpr fun f hf => f.charAt_of_stop_le ((stop_le_recordLength hf).trans hge)]
    rfl

/-! ## Whole runs -/

/-- A run ends, and its records are the fields laid over each other, exactly if a `Vec` can hold them and no padding
blank covers a text. -/
theorem formatOutput_records_iff (ops : List OutputOp) :
    (ops.foldlM OutputOp.apply {}).map FormatOutput.finishRecords =
        .ok ((ops.foldl OutputOp.place {}).records.map overlay) ↔
      (ops.foldl OutputOp.place {}).Fits ∧
        ∀ fields ∈ (ops.foldl OutputOp.place {}).records, PaddingOnBlank fields := by
  have hstart : Matches {} {} := ⟨fits_iff.mpr ⟨by simp, Nat.zero_le _⟩, rfl, rfl, rfl, rfl⟩
  have htracks := run_tracks ops (.ok hstart)
  change Tracks (ops.foldlM OutputOp.apply {}) _ at htracks
  generalize ops.foldlM OutputOp.apply {} = r at htracks ⊢
  generalize ops.foldl OutputOp.place {} = s at htracks ⊢
  cases htracks with
  | panics h => exact ⟨nofun, fun hs => absurd hs.1 h⟩
  | @ok o _ h =>
    have hrecords : o.finishRecords = s.records.map inked := by
      cases h.apply .newRecord with
      | ok hlast => exact hlast.records
    rw [and_iff_right h.fits]
    simp only [← inked_eq_overlay_iff, Except.map, Except.ok.injEq, hrecords]
    exact map_inj_left

/-- `write("ABC")`, `T1`, `A3` with `X`: the blanks of the last field leave `A` and `B` on the record. -/
theorem formatOutput_padding_transparent :
    ([write [65, 66, 67], .tabTo 1, .writeFitted [88] 3].foldlM OutputOp.apply {}).map FormatOutput.finishRecords =
        .ok [[65, 66, 88]] ∧
      ([write [65, 66, 67], .tabTo 1, .writeFitted [88] 3].foldl OutputOp.place {}).records.map overlay =
        [[32, 32, 88]] := by
  decide

end Armfortas.Runtime.Format
