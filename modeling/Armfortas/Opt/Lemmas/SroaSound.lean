import Armfortas.Opt.Lemmas.Sroa

/-! After the new slots are in place, redirecting the accesses keeps the two runs in step: the bytes of an element are
in its own slot instead of its place in the array. -/
namespace Armfortas.Opt.Sroa
open Lib Ir List Option Function InstKind

variable {f : Function} {cand : SroaCandidate} {size : Nat} {L : Launch} {x : Int}

abbrev redirected (f : Function) (cand : SroaCandidate) (first : ValueId) : Function :=
  retargetFunction (gepToField f cand first) f

abbrev elementAt (frame : Nat) (cand : SroaCandidate) (size : Nat) (x : Int) : Ptr :=
  ⟨.slot frame cand.allocaId, x * size⟩

abbrev fieldAt (frame first k : Nat) : Ptr := ⟨.slot frame (first + k), 0⟩

structure Ready (f : Function) (cand : SroaCandidate) (size : Nat) (first : ValueId) : Prop where
  numbered : f.Numbered
  split : Splittable f cand size
  nextValue : f.nextValue = first + cand.count
  fields : ∃ blk, f.tryBlock cand.allocaBlock = some blk ∧
    cand.allocaInstIdx + 1 + cand.count ≤ blk.insts.length ∧
    ∀ k < cand.count, blk.insts[cand.allocaInstIdx + 1 + k]? = some (fieldInst cand first k)
  insts : ∀ i ∈ f.allInsts, i.id < first ∨ ∃ k < cand.count, i = fieldInst cand first k
  uses : ∀ i ∈ f.allInsts, ∀ v ∈ i.kind.operands, v < first
  terms : ∀ b ∈ f.blocks, ∀ t ∈ b.terminator, ∀ v ∈ t.uses, v < first
  slot : cand.allocaId < first

theorem Prepared.ready {g : Function} (h : f.Numbered) {cand size}
    (hs : Splittable f cand size) (hp : Prepared f cand cand.count g) : Ready g cand size f.nextValue where
  numbered := hp.numbered
  split := hp.splits cand size hs
  nextValue := hp.nextValue
  fields := hp.fields
  insts i hi := by
    rcases (hp.insts i).mp hi with hi | hk
    · exact .inl (h.inst_lt hi)
    · exact .inr hk
  uses i hi := by
    rcases (hp.insts i).mp hi with hi | ⟨k, -, rfl⟩
    · exact h.instUses i hi
    · simp [fieldInst, operands]
  terms := hp.terms
  slot := hs.allocaId_lt h

theorem not_field_lt (first k : ValueId) : ¬ first + k < first := Nat.not_lt.mpr (Nat.le_add_right first k)

section Ready

variable {first : ValueId} (h : Ready f cand size first)
include h

theorem Ready.field_mem {k} (hk : k < cand.count) : fieldInst cand first k ∈ f.allInsts := by
  obtain ⟨blk, hblk, -, hget⟩ := h.fields
  exact mem_flatMap.mpr ⟨blk, (mem_blocks_of_tryBlock hblk).1, mem_of_getElem? (hget k hk)⟩

theorem Ready.gepsOf_lt {s u} (hu : u ∈ f.gepsOf s) : u < first := by
  obtain ⟨i, hi, rfl, idxs, hk⟩ := mem_gepsOf.mp hu
  rcases h.insts i hi with hlt | ⟨k, -, rfl⟩
  · exact hlt
  · cases hk

theorem Ready.gepsOf_field {k u} : u ∉ f.gepsOf (first + k) := by
  intro hu
  obtain ⟨i, hi, rfl, idxs, hk⟩ := mem_gepsOf.mp hu
  exact not_field_lt first k (h.uses i hi (first + k) (by simp [hk, operands]))

theorem Ready.element_field {k u} (he : f.Element (first + k) u) : u = first + k := by
  induction he with
  | refl => rfl
  | tail _ hgep ih => exact absurd (ih ▸ hgep) h.gepsOf_field

theorem Ready.private_field (k) : f.Private (first + k) where
  insts i hi u hu he := absurd (h.element_field he ▸ h.uses i hi u hu) (not_field_lt first k)
  terms b hb t ht u hu he := absurd (h.element_field he ▸ h.terms b hb t ht u hu) (not_field_lt first k)

/-! ## Values -/

def GepsPoint (f : Function) (cand : SroaCandidate) (size : Nat) (frame : Nat) (env : Env) : Prop :=
  ∀ i ∈ f.allInsts, ∀ x, ElementPtr f cand.allocaId size i x → ∀ v, env i.id = some v →
    v = .ptr (elementAt frame cand size x)

theorem Ready.gep_value {T W} {σ : State} (hleaf : f.LeafEnv T W σ.env) {i x}
    (hp : ElementPtr f cand.allocaId size i x) {σ'} (hexec : i.exec T W σ = .ok σ') :
    σ'.env i.id = some (.ptr (elementAt W.frame cand size x)) := by
  obtain ⟨j, hj, w, hjk, hw, hk⟩ := hp.kind
  obtain ⟨ty, ha⟩ := h.split.alloca_mem
  obtain ⟨vals, v, hvals, hperf, hres⟩ := exec_ok hexec
  obtain ⟨-, y, rfl, hy⟩ := perform_compute (by rw [hk]; rfl) hperf
  simp only [hk, operands, mapM_eq_some_iff] at hvals
  cases hvals with
  | cons hbase hrest =>
    cases hrest with
    | cons hidx hnil =>
      cases hnil
      have h1 := hleaf _ ha rfl _ hbase
      have h2 := hleaf _ hj (by rw [hjk]; rfl) _ hidx
      simp only [compute, Computed.value.injEq] at h1
      simp only [compute, hjk, Computed.value.injEq] at h2
      subst h1 h2
      simp only [compute, hk, Target.evalGep, Val.asInt, hp.step, Computed.value.injEq, Ptr.advance, zero_add,
        IntWidth.wrap_of_fits hw, IntWidth.wrap_of_fits hp.offset] at hy
      rcases hres with ⟨hn, -⟩ | ⟨z, hz, -, henv⟩
      · cases hn
      · cases hz
        rw [henv, Env.set_self, hy]

theorem Ready.gepsPoint {b k σ} (hat : L.At f b k σ) :
    GepsPoint f cand size L.world.frame σ.env := by
  have hn := h.numbered
  refine hat.induction (P := fun _ _ σ => GepsPoint f cand size L.world.frame σ.env) ?_ ?_ ?_
  · intro σ hs i hi x _ v hv
    rw [Launch.start_env_inst hn.valuesNodup hi hs] at hv
    cases hv
  · intro blk hblk k j σ σ' hat hj ih hexec _ i hi x hp v hv
    have hjm : j ∈ f.allInsts :=
      mem_flatMap.mpr ⟨blk, (mem_blocks_of_tryBlock hblk).1, mem_of_getElem? hj⟩
    by_cases hij : i.id = j.id
    · obtain rfl := hn.inst_unique hi hjm hij
      rw [h.gep_value (hat.leaf hn.valuesNodup hn.blocksNodup) hp hexec] at hv
      exact (some.inj hv).symm
    · exact ih i hi x hp v (by rwa [exec_env_ne hexec hij] at hv)
  · intro blk hblk t c args σ σ' _ ht htk henter _ ih i hi x hp v hv
    exact ih i hi x hp v (by rwa [enter_env_inst hn.valuesNodup hi hn.blocksNodup henter] at hv)

def FieldSet (first k frame : Nat) (env : Env) : Prop := env (first + k) = some (.ptr (fieldAt frame first k))

/-- The slot of element `k` has its address when an element pointer has a value: the array is set up at position `m`,
and between it and the slot there are only other slots. -/
structure FieldPresent (f : Function) (cand : SroaCandidate) (first k m : Nat) (frame : Nat) (b : BlockId) (j : Nat)
    (env : Env) : Prop where
  passed : b = cand.allocaBlock → cand.allocaInstIdx + 1 + k < j → FieldSet first k frame env
  slot : env cand.allocaId ≠ none → FieldSet first k frame env ∨
    b = cand.allocaBlock ∧ m < j ∧ j ≤ cand.allocaInstIdx + 1 + k
  geps : ∀ u ∈ f.gepsOf cand.allocaId, env u ≠ none → FieldSet first k frame env

section Fields

variable {k m j : Nat} (hk : k < cand.count) {c : BasicBlock} (hc : f.tryBlock c.id = some c) {i : Inst} {σ σ' : State}
include hk

section

include hc

theorem Ready.field_at (hcb : c.id = cand.allocaBlock) :
    c.insts[cand.allocaInstIdx + 1 + k]? = some (fieldInst cand first k) := by
  obtain ⟨blk, hblk, -, hget⟩ := h.fields
  rw [hcb, hblk] at hc
  cases hc
  exact hget k hk

theorem Ready.slot_ne_field (hcb : c.id = cand.allocaBlock) (hi : c.insts[m]? = some i) (hid : i.id = cand.allocaId) :
    m ≠ cand.allocaInstIdx + 1 + k := by
  rintro rfl
  cases (h.field_at hk hc hcb).symm.trans hi
  exact not_field_lt first k (lt_of_eq_of_lt hid h.slot)

end

theorem Ready.fieldSet_exec (hi : i ∈ f.allInsts) (hexec : i.exec L.target L.world σ = .ok σ')
    (hset : i = fieldInst cand first k ∨ FieldSet first k L.world.frame σ.env) :
    FieldSet first k L.world.frame σ'.env := by
  by_cases hik : first + k = i.id
  · obtain rfl := h.numbered.inst_unique hi (h.field_mem hk) hik.symm
    cases hexec
    exact Env.set_self _ _ _
  · rw [FieldSet, exec_env_ne hexec hik]
    refine hset.resolve_left ?_
    rintro rfl
    exact hik rfl

theorem Ready.fieldPresent_exec {blk ty} (hblk : f.tryBlock cand.allocaBlock = some blk) (hm : cand.allocaInstIdx ≤ m)
    (hslot : blk.insts[m]? = some ⟨cand.allocaId, .alloca (.array cand.elemTy cand.count), ty⟩)
    (hc : f.tryBlock c.id = some c) (hi : c.insts[j]? = some i) (hexec : i.exec L.target L.world σ = .ok σ')
    (ih : FieldPresent f cand first k m L.world.frame c.id j σ.env) :
    FieldPresent f cand first k m L.world.frame c.id (j + 1) σ'.env := by
  have hcm := (mem_blocks_of_tryBlock hc).1
  have him : i ∈ f.allInsts := mem_flatMap.mpr ⟨c, hcm, mem_of_getElem? hi⟩
  have hset := h.fieldSet_exec hk him hexec
  have hkeep := fun hold => hset (.inr hold)
  have hfield : c.id = cand.allocaBlock → j = cand.allocaInstIdx + 1 + k → i = fieldInst cand first k := by
    rintro hcb rfl
    exact some.inj (hi.symm.trans (h.field_at hk hc hcb))
  refine ⟨fun hcb hlt => ?_, fun hne => ?_, fun u hu hne => ?_⟩
  · rcases Nat.lt_or_ge (cand.allocaInstIdx + 1 + k) j with hlt' | hge
    · exact hkeep (ih.passed hcb hlt')
    · exact hset (.inl (hfield hcb (by omega)))
  · by_cases his : cand.allocaId = i.id
    · obtain ⟨hmem, hid⟩ := mem_blocks_of_tryBlock hblk
      obtain ⟨rfl, rfl, -⟩ := h.numbered.inst_pos hmem hcm hslot hi his
      have hne := h.slot_ne_field hk hc hid hi his.symm
      rcases Nat.lt_or_ge (cand.allocaInstIdx + 1 + k) m with hlt | hge
      · exact .inl (hkeep (ih.passed hid hlt))
      · exact .inr ⟨hid, by omega, by omega⟩
    · rw [exec_env_ne hexec his] at hne
      rcases ih.slot hne with hold | ⟨hcb, hlt, hle⟩
      · exact .inl (hkeep hold)
      · rcases Nat.lt_or_ge j (cand.allocaInstIdx + 1 + k) with hlt' | hge
        · exact .inr ⟨hcb, by omega, by omega⟩
        · exact .inl (hset (.inl (hfield hcb (by omega))))
  · by_cases hiu : u = i.id
    · -- the element pointer reads the array's address, and it is none of the slots behind the array
      obtain ⟨i', hi', hid', idxs, hkind⟩ := mem_gepsOf.mp hu
      obtain rfl := h.numbered.inst_unique him hi' (hiu.symm.trans hid'.symm)
      obtain ⟨vals, v, hvals, -⟩ := exec_ok hexec
      have hs : σ.env cand.allocaId ≠ none := by
        rw [hkind, operands, mapM_eq_some_iff] at hvals
        cases hvals with
        | cons hbase _ => simp [hbase]
      refine hkeep ((ih.slot hs).resolve_right fun hbetween => ?_)
      obtain ⟨hcb, hlt, hle⟩ := hbetween
      obtain ⟨k', rfl⟩ : ∃ k', j = cand.allocaInstIdx + 1 + k' := ⟨j - cand.allocaInstIdx - 1, by omega⟩
      cases hi.symm.trans (h.field_at (by omega) hc hcb)
      cases hkind
    · rw [exec_env_ne hexec hiu] at hne
      exact hkeep (ih.geps u hu hne)

theorem Ready.fieldPresent {b} (hat : L.At f b j σ) : ∃ m, FieldPresent f cand first k m L.world.frame b j σ.env := by
  have hn := h.numbered
  obtain ⟨blk, m, ty, hblk, hm, hslot⟩ := h.split.alloca
  obtain ⟨_, hslotMem⟩ := h.split.alloca_mem
  have hgep : ∀ u ∈ f.gepsOf cand.allocaId, ∃ i ∈ f.allInsts, i.id = u := fun u hu => by
    obtain ⟨i, hi, hiu, -⟩ := mem_gepsOf.mp hu
    exact ⟨i, hi, hiu⟩
  refine ⟨m, hat.induction (P := fun b j σ => FieldPresent f cand first k m L.world.frame b j σ.env) (fun σ hs => ?_)
    (fun c hc j i σ σ' _ hi ih hexec _ => h.fieldPresent_exec hk hblk hm hslot hc hi hexec ih) ?_⟩
  · refine ⟨fun _ hlt => absurd hlt (Nat.not_lt_zero _), fun hne => ?_, fun u hu hne => ?_⟩
    · exact absurd (Launch.start_env_inst hn.valuesNodup hslotMem hs) hne
    · obtain ⟨i, hi, rfl⟩ := hgep u hu
      exact absurd (Launch.start_env_inst hn.valuesNodup hi hs) hne
  · intro c hc t d args σ σ' _ ht htk henter _ ih
    have henv : ∀ i ∈ f.allInsts, σ'.env i.id = σ.env i.id := fun i hi =>
      enter_env_inst hn.valuesNodup hi hn.blocksNodup henter
    have hfe : σ'.env (first + k) = σ.env (first + k) := henv _ (h.field_mem hk)
    refine ⟨fun _ hlt => absurd hlt (Nat.not_lt_zero _), fun hne => ?_, fun u hu hne => ?_⟩
    · rw [henv _ hslotMem] at hne
      refine .inl (hfe.trans ((ih.slot hne).resolve_right fun ⟨hcb, _, hle⟩ => ?_))
      exact absurd (List.getElem?_eq_some_iff.mp (h.field_at hk hc hcb)).1 (Nat.not_lt.mpr hle)
    · obtain ⟨i, hi, rfl⟩ := hgep u hu
      rw [henv i hi] at hne
      exact hfe.trans (ih.geps _ hu hne)

end Fields

/-! ## Privacy after redirecting -/

theorem Ready.numbered_retarget : (redirected f cand first).Numbered := by
  have hn := h.numbered
  have hdef := definitions_retarget (gepToField f cand first) f
  have hvals : (redirected f cand first).collectDefinedValues = f.collectDefinedValues :=
    congrArg (List.map Prod.fst) hdef
  constructor
  case blocksNodup =>
    have : (redirected f cand first).blocks.map (·.id) = f.blocks.map (·.id) := by
      simp [retargetFunction, comp_def]
    rw [this]
    exact hn.blocksNodup
  case terminated =>
    intro b hb
    obtain ⟨b₀, hb₀, rfl⟩ := List.mem_map.mp hb
    exact hn.terminated b₀ hb₀
  case valuesNodup => rw [hvals]; exact hn.valuesNodup
  case fresh => rw [hvals]; exact hn.fresh
  case instUses =>
    intro i hi v hv
    obtain ⟨j, hj, hr⟩ := exists_retargeted hi
    have hold := hn.instUses j hj
    have hfld : ∀ {a fld}, (gepToField f cand first).get? a = some fld → fld < f.nextValue := fun hm => by
      obtain ⟨-, k, hk, rfl⟩ := mem_gepsOf_of_gepToField hm
      rw [h.nextValue]
      exact Nat.add_lt_add_left hk first
    change v < f.nextValue
    cases hr with
    | same => exact hold v hv
    | load hm =>
      rw [mem_singleton.mp hv]
      exact hfld hm
    | store hm =>
      simp only [operands, mem_cons, not_mem_nil, or_false] at hv hold
      rcases hv with rfl | rfl
      · exact hold _ (.inl rfl)
      · exact hfld hm
  case termUses =>
    intro b hb t ht
    obtain ⟨b₀, hb₀, rfl⟩ := List.mem_map.mp hb
    exact hn.termUses b₀ hb₀ t ht

omit h in
theorem element_retarget {m s u} :
    (retargetFunction m f).Element s u ↔ f.Element s u := by
  unfold Function.Element
  simp only [mem_gepsOf_retarget]

omit h in
theorem field_not_lt {u fld} (hm : (gepToField f cand first).get? u = some fld) : ¬ fld < first := by
  obtain ⟨-, k, -, rfl⟩ := mem_gepsOf_of_gepToField hm
  exact not_field_lt first k

theorem Ready.element_lt {u} (he : f.Element cand.allocaId u) : u < first := by
  rcases h.split.element he with rfl | hu
  · exact h.slot
  · exact h.gepsOf_lt hu

theorem Ready.private_slot_retarget : (redirected f cand first).Private cand.allocaId where
  insts i hi u hu he := by
    have hp := h.split.private h.numbered
    rw [element_retarget] at he
    obtain ⟨j, hj, hr⟩ := exists_retargeted hi
    cases hr with
    | same => exact hp.insts i hj u hu he
    | load hm => exact absurd (mem_singleton.mp hu ▸ h.element_lt he) (field_not_lt hm)
    | store hm =>
      simp only [operands, mem_cons, not_mem_nil, or_false] at hu
      rcases hu with rfl | rfl
      · -- a pointer into the array is not stored
        have := hp.insts _ hj u (by simp [operands]) he
        simp [usesAsAddress] at this
      · exact absurd (h.element_lt he) (field_not_lt hm)
  terms b hb t ht u hu he := by
    obtain ⟨b₀, hb₀, rfl⟩ := List.mem_map.mp hb
    exact (h.split.private h.numbered).terms b₀ hb₀ t ht u hu (element_retarget.mp he)

theorem Ready.private_field_retarget (k) :
    (redirected f cand first).Private (first + k) where
  insts i hi u hu he := by
    obtain rfl := h.element_field (element_retarget.mp he)
    have hge := not_field_lt first k
    obtain ⟨j, hj, hr⟩ := exists_retargeted hi
    cases hr with
    | same => exact absurd (h.uses i hj _ hu) hge
    | load hm => simp [usesAsAddress, mem_singleton.mp hu]
    | @store _ _ v _ fld hm =>
      have hv : v < first := h.uses _ hj v (by simp [operands])
      simp only [operands, mem_cons, not_mem_nil, or_false] at hu
      rcases hu with hu | hu
      · exact absurd (hu ▸ hv) hge
      · have hne : v ≠ fld := fun e => hge (hu ▸ e ▸ hv)
        simp [usesAsAddress, hu, hne]
  terms b hb t ht u hu he := by
    obtain ⟨b₀, hb₀, rfl⟩ := List.mem_map.mp hb
    exact absurd (h.element_field (element_retarget.mp he) ▸ h.terms b₀ hb₀ t ht u hu)
      (not_field_lt first k)

end Ready

/-! ## One step -/

/-- The storage that splitting the slot rearranges. -/
def hiddenBases (frame : Nat) (cand : SroaCandidate) (first : Nat) : List Base :=
  .slot frame cand.allocaId :: (List.range cand.count).map fun k => .slot frame (first + k)

theorem mem_hiddenBases {frame cand first b} :
    b ∈ hiddenBases frame cand first ↔ b = .slot frame cand.allocaId ∨ ∃ k < cand.count, b = .slot frame (first + k) := by
  simp [hiddenBases, eq_comm]

/-- The bytes of element `k` are in slot `first + k`. -/
structure SplitRel (frame : Nat) (cand : SroaCandidate) (size first : Nat) (h h' : Heap) : Prop where
  rel : HeapRel (hiddenBases frame cand first) h h'
  extent : ∀ o, (h.mem (.slot frame cand.allocaId) o).isSome = true ↔ 0 ≤ o ∧ o < size * cand.count
  extent' : ∀ o, (h'.mem (.slot frame cand.allocaId) o).isSome = true ↔ 0 ≤ o ∧ o < size * cand.count
  split : ∀ k < cand.count, ∀ o : Int, 0 ≤ o → o < size →
    h'.mem (.slot frame (first + k)) o = h.mem (.slot frame cand.allocaId) (k * size + o)

section Memory

variable {frame : Nat} {first : Nat} {h h' : Heap} (hr : SplitRel frame cand size first h h')
include hr

theorem SplitRel.read {k} (hk : k < cand.count) {n} (hn : n ≤ size) :
    h'.mem.read (fieldAt frame first k) n = h.mem.read (elementAt frame cand size k) n := by
  refine mapM_congr fun j hj => ?_
  have := mem_range.mp hj
  simp only [zero_add]
  exact hr.split k hk j (by omega) (by omega)

theorem SplitRel.outside (hx : ¬ (0 ≤ x ∧ x < cand.count)) {n : Nat} (hn : n ≤ size) (hpos : 0 < n) :
    h.mem.read (elementAt frame cand size x) n = none ∧
      h'.mem.read (elementAt frame cand size x) n = none := by
  have hout : ¬ (0 ≤ x * size ∧ x * size < size * cand.count) := by
    have hsize : (0 : Int) < size := by omega
    rintro ⟨h1, h2⟩
    refine hx ⟨?_, ?_⟩
    · by_contra hneg
      have := mul_neg_of_neg_of_pos (not_le.mp hneg) hsize
      omega
    · rw [mul_comm (size : Int)] at h2
      exact lt_of_mul_lt_mul_right h2 hsize.le
  have hnone : ∀ m : Mem, (∀ o, (m (.slot frame cand.allocaId) o).isSome = true ↔ 0 ≤ o ∧ o < size * cand.count) →
      m.read (elementAt frame cand size x) n = none := by
    intro m hm
    cases hread : m.read (elementAt frame cand size x) n with
    | none => rfl
    | some bs =>
      have := Mem.read_isSome_iff.mp (by rw [hread]; rfl) 0 hpos
      simp only [Nat.cast_zero, add_zero] at this
      exact absurd ((hm _).mp this) hout
  exact ⟨hnone _ hr.extent, hnone _ hr.extent'⟩

theorem SplitRel.read_outside (hx : ¬ (0 ≤ x ∧ x < cand.count)) {n : Nat} (hn : n ≤ size) :
    h'.mem.read (elementAt frame cand size x) n = h.mem.read (elementAt frame cand size x) n := by
  rcases Nat.eq_zero_or_pos n with rfl | hpos
  · rfl
  · obtain ⟨h1, h2⟩ := hr.outside hx hn hpos
    rw [h1, h2]

theorem SplitRel.put_outside (hx : ¬ (0 ≤ x ∧ x < cand.count)) {bs : List MByte} (hn : bs.length ≤ size)
    (hroom : (h.mem.read (elementAt frame cand size x) bs.length).isSome = true) :
    SplitRel frame cand size first
      (h.put (elementAt frame cand size x) bs) (h'.put (elementAt frame cand size x) bs) := by
  obtain rfl : bs = [] := by
    rcases Nat.eq_zero_or_pos bs.length with h0 | hpos
    · exact eq_nil_of_length_eq_zero h0
    · rw [(hr.outside hx hn hpos).1] at hroom
      cases hroom
  have hput : ∀ (m : Mem) (p : Ptr), m.put p [] = m := by
    intro m p
    funext b o
    refine Mem.put_of_not_covers fun hc => ?_
    obtain ⟨-, h1, h2⟩ := hc
    simp only [length_nil, Nat.cast_zero, add_zero] at h2
    omega
  rw [Heap.put, Heap.put, hput, hput]
  exact ⟨⟨hr.rel.mem, hr.rel.known, hr.rel.clock, visible_cons_congr hr.rel.trace _⟩, hr.extent, hr.extent', hr.split⟩

theorem SplitRel.put {k} (hk : k < cand.count) (hslot : cand.allocaId < first) {bs : List MByte}
    (hn : bs.length ≤ size) (hroom : (h.mem.read (elementAt frame cand size k) bs.length).isSome = true) :
    SplitRel frame cand size first
      (h.put (elementAt frame cand size k) bs) (h'.put (fieldAt frame first k) bs) := by
  have hold : Base.slot frame cand.allocaId ∈ hiddenBases frame cand first := mem_hiddenBases.mpr (.inl rfl)
  have hnew : Base.slot frame (first + k) ∈ hiddenBases frame cand first := mem_hiddenBases.mpr (.inr ⟨k, hk, rfl⟩)
  have hne : Base.slot frame cand.allocaId ≠ .slot frame (first + k) := fun e => by
    simp only [Base.slot.injEq, true_and] at e
    exact absurd (e ▸ hslot) (not_field_lt first k)
  constructor
  case rel =>
    refine ⟨fun b hb => ?_, hr.rel.known, hr.rel.clock, ?_⟩
    · funext o
      have hb' : b ≠ .slot frame (first + k) := fun e => hb (e ▸ hnew)
      have hb'' : b ≠ .slot frame cand.allocaId := fun e => hb (e ▸ hold)
      change h'.mem.put _ bs b o = h.mem.put _ bs b o
      rw [Mem.put_of_not_covers fun hc => hb' hc.1, Mem.put_of_not_covers fun hc => hb'' hc.1, hr.rel.mem b hb]
    · rw [visible_cons_hidden hnew, visible_cons_hidden hold, hr.rel.trace]
  case extent =>
    intro o
    change (h.mem.put _ bs _ o).isSome = true ↔ _
    rw [Mem.put_isSome hroom, hr.extent]
  case extent' =>
    intro o
    change (h'.mem.put _ bs _ o).isSome = true ↔ _
    rw [Mem.put_of_not_covers fun hc => hne hc.1, hr.extent']
  case split =>
    intro j hj o h0 hlt
    change h'.mem.put _ bs _ o = h.mem.put _ bs _ (j * size + o)
    by_cases hjk : j = k
    · subst hjk
      by_cases ho : o < bs.length
      · rw [Mem.put_of_covers ⟨rfl, h0, by simpa using ho⟩,
          Mem.put_of_covers ⟨rfl, by dsimp only; omega, by dsimp only; omega⟩]
        congr 1
        dsimp only
        omega
      · rw [Mem.put_of_not_covers fun hc => ho (by simpa using hc.2.2),
          Mem.put_of_not_covers fun hc => ho (by have := hc.2.2; dsimp only at this; omega), hr.split j hj o h0 hlt]
    · have hother : Base.slot frame (first + j) ≠ .slot frame (first + k) := fun e => by
        simp only [Base.slot.injEq, true_and] at e
        exact hjk (Nat.add_left_cancel e)
      rw [Mem.put_of_not_covers fun hc => hother hc.1, hr.split j hj o h0 hlt, Mem.put_of_not_covers]
      -- different elements do not overlap
      rintro ⟨-, h1, h2⟩
      dsimp only at h1 h2
      rcases Nat.lt_or_gt_of_ne hjk with hlt' | hgt
      · have := Nat.mul_le_mul_right size (Nat.succ_le_of_lt hlt')
        rw [Nat.succ_mul] at this
        omega
      · have := Nat.mul_le_mul_right size (Nat.succ_le_of_lt hgt)
        rw [Nat.succ_mul] at this
        omega

end Memory

section Step

variable {first : ValueId} (h : Ready f cand size first)
  {m : Mem} (hL : L.Discreet) (hL' : (L.withMem m).Discreet) {b : BlockId} {k : Nat} {σ σ' : State}
  (hat : L.At f b k σ) (hat' : (L.withMem m).At (redirected f cand first) b k σ')

include h hat in
theorem Ready.target (henv : σ'.env = σ.env) {u} (hu : u ∈ f.gepsOf cand.allocaId) {v} (hv : σ.env u = some v) :
    ∃ x : Int, v = .ptr (elementAt L.world.frame cand size x) ∧
      ((0 ≤ x ∧ x < cand.count ∧ (gepToField f cand first).get? u = some (first + x.toNat) ∧
          σ'.env (first + x.toNat) = some (.ptr (fieldAt L.world.frame first x.toNat))) ∨
        (¬ (0 ≤ x ∧ x < cand.count) ∧ (gepToField f cand first).get? u = none)) := by
  obtain ⟨i, hi, rfl, idxs, hk⟩ := mem_gepsOf.mp hu
  obtain ⟨x, hp⟩ := h.split.geps i hi (by simp [hk, operands])
  have hget : (gepToField f cand first).get? i.id = _ := gepToField_get? h.numbered hi
  rw [fieldIndex_eq h.numbered hp] at hget
  refine ⟨x, h.gepsPoint hat i hi x hp v hv, ?_⟩
  by_cases hx : 0 ≤ x ∧ x < cand.count
  · rw [if_pos hx] at hget
    obtain ⟨j, hpresent⟩ := h.fieldPresent (k := x.toNat) (by omega) hat
    exact .inl ⟨hx.1, hx.2, hget, by rw [henv]; exact hpresent.geps _ hu (by simp [hv])⟩
  · rw [if_neg hx] at hget
    exact .inr ⟨hx, hget⟩

include h hL hL' hat hat'

theorem Ready.quiet : Quiet (hiddenBases L.world.frame cand first) σ.toHeap ∧
    Quiet (hiddenBases L.world.frame cand first) σ'.toHeap := by
  have hs := hat.secluded hL (h.split.private h.numbered)
  have hs' := hat'.secluded hL' h.private_slot_retarget
  have hf := fun k => hat.secluded hL (h.private_field k)
  have hf' := fun k => hat'.secluded hL' (h.private_field_retarget k)
  refine ⟨⟨fun b hb => ?_, fun b hb => ?_⟩, ⟨fun b hb => ?_, fun b hb => ?_⟩⟩ <;>
    rcases mem_hiddenBases.mp hb with rfl | ⟨k, -, rfl⟩
  · exact hs.mem
  · exact (hf k).mem
  · exact hs.known
  · exact (hf k).known
  · exact hs'.mem
  · exact (hf' k).mem
  · exact hs'.known
  · exact (hf' k).known

variable (henv : σ'.env = σ.env) (hr : SplitRel L.world.frame cand size first σ.toHeap σ'.toHeap)
include henv hr

theorem Ready.exec_other {i} (hi : i ∈ f.allInsts) (hno : ∀ u ∈ i.kind.operands, ¬ f.Element cand.allocaId u) :
    Result.Pair (hiddenBases L.world.frame cand first) (SplitRel L.world.frame cand size first)
      (i.exec L.target L.world σ) ((retargetInst (gepToField f cand first) i).exec L.target L.world σ') := by
  have hs := hat.secluded hL (h.split.private h.numbered)
  have hs' := hat'.secluded hL' h.private_slot_retarget
  have hf := fun k => hat.secluded hL (h.private_field k)
  have hf' := fun k => hat'.secluded hL' (h.private_field_retarget k)
  obtain ⟨hq, hq'⟩ := h.quiet hL hL' hat hat'
  have hsame : retargetInst (gepToField f cand first) i = i := by
    have hrt := retargeted (gepToField f cand first) i
    generalize retargetInst (gepToField f cand first) i = i' at hrt
    cases hrt with
    | same => rfl
    | load hm | store hm => exact absurd (.single (mem_gepsOf_of_gepToField hm).1) (hno _ (by simp [operands]))
  have hi' : i ∈ (redirected f cand first).allInsts :=
    mem_allInsts_retarget.mpr ⟨i, hi, hsame.symm⟩
  have haddr : ∀ val addr, i.kind.stored = some (val, addr) → addr ∈ i.kind.operands := fun val addr hst => by
    simp [operands_of_stored hst]
  rw [hsame]
  refine exec_pair hr.rel ?_ hq hq' henv ?_ ?_
  · intro b hb
    rcases mem_hiddenBases.mp hb with rfl | ⟨k, -, rfl⟩ <;> exact isLocal_slot _ _
  · intro u hu x hx b hb hbx
    rcases mem_hiddenBases.mp hb with rfl | ⟨k, -, rfl⟩
    · exact hno u hu (hs.env u x hx hbx)
    · have := h.element_field ((hf k).env u x hx hbx)
      exact absurd (this ▸ h.uses i hi u hu) (not_field_lt first k)
  · intro σ₁ σ₁' he he' hrel
    -- the rearranged storage stays as it is
    have hslot := hs.slot_eq (h.split.private h.numbered) hi he fun val addr hst => hno addr (haddr val addr hst)
    have hslot' := hs'.slot_eq h.private_slot_retarget hi' he' fun val addr hst hel =>
      hno addr (haddr val addr hst) (element_retarget.mp hel)
    refine ⟨hrel, fun o => ?_, fun o => ?_, fun k hk o h0 hlt => ?_⟩
    · exact (congrArg (·.isSome = true) (hslot o)).to_iff.trans (hr.extent o)
    · exact (congrArg (·.isSome = true) (hslot' o)).to_iff.trans (hr.extent' o)
    · have hfield := (hf' k).slot_eq (h.private_field_retarget k) hi' he' (fun val addr hst hel => by
        have := h.element_field (element_retarget.mp hel)
        exact absurd (this ▸ h.uses i hi addr (haddr val addr hst)) (not_field_lt first k)) o
      exact hfield.trans ((hr.split k hk o h0 hlt).trans (hslot _).symm)

omit hL hL' hat' in
theorem Ready.exec_load {u id : ValueId} (hu : u ∈ f.gepsOf cand.allocaId) {ty : IrType}
    (hn : ∀ n, byteSize ty = some n → n ≤ size) :
    Result.Pair (hiddenBases L.world.frame cand first) (SplitRel L.world.frame cand size first)
      ((⟨id, .load u, ty⟩ : Inst).exec L.target L.world σ)
      ((retargetInst (gepToField f cand first) ⟨id, .load u, ty⟩).exec L.target L.world σ') := by
  cases hv : σ.env u with
  | none =>
    simp only [Inst.exec, operands, mapM_cons, hv, bind_eq_bind, bind_none]
    exact .stuck
  | some v =>
    obtain ⟨x, rfl, ⟨h0, hlt, hget, hfld⟩ | ⟨hout, hget⟩⟩ := h.target hat henv hu hv
    · simp only [retargetInst, retarget, AssocMap.getD, hget, getD_some]
      refine exec_pair_load hv hfld henv (fun n hsz => ?_) hr hr.rel.trace
      have := hr.read (k := x.toNat) (by omega) (hn n hsz)
      rwa [Int.toNat_of_nonneg h0] at this
    · simp only [retargetInst, retarget, AssocMap.getD, hget, getD_none]
      exact exec_pair_load hv (henv ▸ hv) henv (fun n hsz => hr.read_outside hout (hn n hsz)) hr hr.rel.trace

omit hL hL' hat' in
theorem Ready.exec_store {u id v : ValueId} (hu : u ∈ f.gepsOf cand.allocaId) {ty : IrType}
    (hn : ∀ vt n, f.valueType v = some vt → byteSize vt = some n → n ≤ size) :
    Result.Pair (hiddenBases L.world.frame cand first) (SplitRel L.world.frame cand size first)
      ((⟨id, .store v u, ty⟩ : Inst).exec L.target L.world σ)
      ((retargetInst (gepToField f cand first) ⟨id, .store v u, ty⟩).exec L.target L.world σ') := by
  cases hy : σ.env v with
  | none =>
    simp only [Inst.exec, operands, mapM_cons, hy, bind_eq_bind, bind_none]
    exact .stuck
  | some y =>
  cases hv : σ.env u with
  | none =>
    simp only [Inst.exec, operands, mapM_cons, hy, hv, bind_eq_bind, bind_some, bind_none]
    exact .stuck
  | some w =>
    obtain ⟨vt, hvt, hyt⟩ := hat.typed h.numbered.valuesNodup v y hy
    have hlen : y.encode.length ≤ size := hn vt _ hvt (length_encode hyt)
    obtain ⟨x, rfl, ⟨h0, hlt, hget, hfld⟩ | ⟨hout, hget⟩⟩ := h.target hat henv hu hv
    · simp only [retargetInst, retarget, AssocMap.getD, hget, getD_some]
      have hread := hr.read (k := x.toNat) (by omega) hlen
      rw [Int.toNat_of_nonneg h0] at hread
      refine exec_pair_store hy hv hfld henv (by rw [hread]) (fun hroom => ?_) hr.rel.trace
      have hput := hr.put (k := x.toNat) (by omega) h.slot hlen
      rw [Int.toNat_of_nonneg h0] at hput
      exact hput hroom
    · simp only [retargetInst, retarget, AssocMap.getD, hget, getD_none]
      have hread := hr.read_outside hout hlen
      exact exec_pair_store hy hv (henv ▸ hv) henv (by rw [hread]) (hr.put_outside hout hlen) hr.rel.trace

theorem Ready.exec_step {i} (hi : i ∈ f.allInsts) :
    Result.Pair (hiddenBases L.world.frame cand first) (SplitRel L.world.frame cand size first)
      (i.exec L.target L.world σ) ((retargetInst (gepToField f cand first) i).exec L.target L.world σ') := by
  by_cases hno : ∀ u ∈ i.kind.operands, ¬ f.Element cand.allocaId u
  · exact h.exec_other hL hL' hat hat' henv hr hi hno
  · push Not at hno
    obtain ⟨u, hu, he⟩ := hno
    rcases h.split.element he with rfl | hgep
    · obtain ⟨x, ⟨j, -, w, -, -, hk⟩, -⟩ := h.split.geps i hi hu
      have hsame : retargetInst (gepToField f cand first) i = i := by
        obtain ⟨id, kind, ty⟩ := i
        cases hk
        rfl
      rw [hsame]
      exact exec_pair_compute (by rw [hk]; rfl) henv hr hr.rel.trace
    · cases h.split.accesses i hi u hu hgep with
      | load hn => exact h.exec_load hat henv hr hgep hn
      | store _ _ hn => exact h.exec_store hat henv hr hgep hn

end Step

/-! ## Whole runs -/

theorem Ready.similar {f cand size first}
    (h : Ready f cand size first) {m} (hL : L.Discreet) (hL' : (L.withMem m).Discreet)
    (hstart : SplitRel L.world.frame cand size first (.initial L.mem) (.initial m)) (n) :
    (L.run f n).Similar (hiddenBases L.world.frame cand first)
      ((L.withMem m).run (redirected f cand first) n) := by
  have htry := tryBlock_retarget (gepToField f cand first) f
  have hR : ∀ h h', SplitRel L.world.frame cand size first h h' → HeapRel (hiddenBases L.world.frame cand first) h h' :=
    fun _ _ hr => hr.rel
  refine (Launch.run_pair (f := f) (g := redirected f cand first) hR rfl rfl (fun d => ?_) hstart
    (fun blk σ σ' hblk hent hent' henv hr => ?_) n).similar hR
  · rw [KeepsParams, htry, Option.map_map]
    rfl
  · have hg : (redirected f cand first).tryBlock blk.id =
        some (retargetBlock (gepToField f cand first) blk) := by rw [htry, hblk]; rfl
    refine ⟨_, hg, rfl, execInsts_pair hblk hg (length_map _) (fun k i i' σ σ' hat hat' hi hi' henv hr => ?_) hent
      hent' henv hr⟩
    have hmem : i ∈ f.allInsts :=
      mem_flatMap.mpr ⟨blk, (mem_blocks_of_tryBlock hblk).1, mem_of_getElem? hi⟩
    have hi'' : i' = retargetInst (gepToField f cand first) i := by
      simpa [retargetBlock, hi] using hi'.symm
    rw [hi'']
    exact h.exec_step hL hL' hat hat' henv hr hmem

/-! ## The other slots -/

theorem Ready.splittable_other {f cand size first}
    (h : Ready f cand size first) {c sz} (hc : Splittable f c sz) (hlt : c.allocaId < first) :
    Splittable (redirected f cand first) c sz := by
  have htry := tryBlock_retarget (gepToField f cand first) f
  have hsame : ∀ j ∈ f.allInsts, j.kind.isLeaf = true → retargetInst (gepToField f cand first) j = j := by
    rintro ⟨id, kind, ty⟩ - hleaf
    cases kind <;> first | rfl | cases hleaf
  refine hc.extends ?_ ?_
  · constructor
    case geps => exact fun u => mem_gepsOf_retarget
    case leaves => exact fun i hi hleaf => mem_allInsts_retarget.mpr ⟨i, hi, (hsame i hi hleaf).symm⟩
    case users =>
      intro i hi u hu hel
      have hult : u < first := by
        rcases hel with rfl | hg
        · exact hlt
        · exact h.gepsOf_lt hg
      obtain ⟨j, hj, hr⟩ := exists_retargeted hi
      cases hr with
      | same => exact hj
      | load hm => exact absurd (mem_singleton.mp hu ▸ hult) (field_not_lt hm)
      | store hm =>
        simp only [operands, mem_cons, not_mem_nil, or_false] at hu
        rcases hu with rfl | rfl
        · -- neither the other slot nor a pointer into it is stored
          rcases hel with rfl | hg
          · obtain ⟨x, ⟨_, _, _, _, _, hgep⟩, -⟩ := hc.geps _ hj (by simp [operands])
            cases hgep
          · cases hc.accesses _ hj u (by simp [operands]) hg with
            | store _ hv => exact absurd hg hv
        · exact absurd hult (field_not_lt hm)
    case types =>
      intro i hi v hv
      simp only [valueType, definitions_retarget]
    case terms =>
      intro b hb t ht
      obtain ⟨b₀, hb₀, rfl⟩ := List.mem_map.mp hb
      exact ⟨b₀, hb₀, ht⟩
  · obtain ⟨blk, m, ty, hblk, hm, hget⟩ := hc.alloca
    refine ⟨retargetBlock (gepToField f cand first) blk, m, ty, by rw [htry, hblk]; rfl, hm, ?_⟩
    simp only [retargetBlock, getElem?_map, hget, map_some]
    rfl

/-! ## One candidate -/

theorem retargetFunction_nil (f) : retargetFunction [] f = f := by
  have hk : ∀ k, retarget [] k = k := fun k => by cases k <;> rfl
  simp [retargetFunction, hk]

theorem decomposeAlloca_fst (f cand) : (decomposeAlloca f cand).1 =
    retargetFunction (gepToField (insertFields f cand cand.count) cand f.nextValue)
      (insertFields f cand cand.count) := by
  unfold decomposeAlloca
  dsimp only
  split
  · next hempty => rw [List.isEmpty_iff.mp hempty, retargetFunction_nil]
  · rfl

section Decompose

variable (hn : f.Numbered) (hs : Splittable f cand size)
include hn hs

theorem numbered_decomposeAlloca : (decomposeAlloca f cand).1.Numbered := by
  rw [decomposeAlloca_fst]
  exact ((prepared_insertFields hn hs cand.count).ready hn hs).numbered_retarget

theorem nextValue_decomposeAlloca : (decomposeAlloca f cand).1.nextValue = f.nextValue + cand.count := by
  rw [decomposeAlloca_fst]
  exact (prepared_insertFields hn hs cand.count).nextValue

theorem splittable_decomposeAlloca {c sz} (hc : Splittable f c sz) :
    Splittable (decomposeAlloca f cand).1 c sz := by
  rw [decomposeAlloca_fst]
  have hp := prepared_insertFields hn hs cand.count
  exact (hp.ready hn hs).splittable_other (hp.splits c sz hc) (hc.allocaId_lt hn)

theorem similar_decomposeAlloca {m} (hL : L.Discreet) (hL' : (L.withMem m).Discreet)
    (hstart : SplitRel L.world.frame cand size f.nextValue (.initial L.mem) (.initial m)) (n) :
    (L.run f n).Similar (hiddenBases L.world.frame cand f.nextValue) ((L.withMem m).run (decomposeAlloca f cand).1 n) := by
  rw [decomposeAlloca_fst]
  have hp := prepared_insertFields hn hs cand.count
  exact (hp.similar L n).trans ((hp.ready hn hs).similar hL hL' hstart n)

end Decompose

end Armfortas.Opt.Sroa
