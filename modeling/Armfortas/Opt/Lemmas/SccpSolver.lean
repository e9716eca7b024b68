import Armfortas.Ir.Lemmas.Run
import Armfortas.Opt.Sccp

/-! Marking edges only adds to the reachable sets, recomputing a parameter only lowers it, and both put what they
changed on a worklist. So the number of entries still to come goes down with every entry taken, and what is not up to
date is always on a worklist. -/
namespace Armfortas.Opt.Sccp
open Ir Lib List Option AssocMap

/-! ## The lattice -/

def Lattice.Le (a b : Lattice) : Prop := a = .bottom ∨ b = .top ∨ a = b

def Lattice.height : Lattice → Nat
  | .top => 2
  | .const _ => 1
  | .bottom => 0

theorem Lattice.bottom_le (a) : Lattice.Le .bottom a := .inl rfl

theorem Lattice.le_refl (a : Lattice) : a.Le a := .inr (.inr rfl)

theorem Lattice.Le.trans {a b c : Lattice} (hab : a.Le b) (hbc : b.Le c) : a.Le c := by
  grind [Lattice.Le]

theorem Lattice.meet_le_left (a b) : (meet a b).Le a := by
  cases a <;> cases b <;> grind [Lattice.Le, meet]

theorem Lattice.meet_le_right (a b) : (meet a b).Le b := by
  cases a <;> cases b <;> grind [Lattice.Le, meet]

theorem Lattice.height_meet_lt {a b} (h : meet a b ≠ a) : (meet a b).height < a.height := by
  cases a <;> cases b <;> grind [Lattice.height, meet]

/-! ## Edges of a well-formed function -/

theorem armsOf_nodup (t) : ((armsOf t).map Prod.fst).Nodup := by
  cases t with
  | switch s cases default =>
    simp only [armsOf, map_cons, List.map_map, nodup_cons]
    refine ⟨by simp, ?_⟩
    have hfst : (Prod.fst ∘ fun x : (Int × BlockId) × Nat => (EdgeArm.switchCase x.2, (⟨x.1.2, []⟩ : EdgeData)))
        = EdgeArm.switchCase ∘ Prod.snd := rfl
    rw [hfst, ← List.map_map, zipIdx_map_snd]
    exact (nodup_range'  (s := 0) (n := cases.length)).map fun a b h => by simpa using h
  | _ => simp [armsOf]

theorem mem_edgesFrom {b e d} : (e, d) ∈ edgesFrom b ↔
    ∃ t, b.terminator = some t ∧ b.id = e.source ∧ (e.arm, d) ∈ armsOf t := by
  unfold edgesFrom
  cases b.terminator with
  | none => simp
  | some t =>
    constructor
    · intro h
      obtain ⟨⟨arm, data⟩, hmem, heq⟩ := List.mem_map.mp h
      obtain ⟨rfl, rfl⟩ := heq
      exact ⟨t, rfl, rfl, hmem⟩
    · rintro ⟨t, ht, hid, hmem⟩
      simp only [some.injEq] at ht
      subst ht
      exact List.mem_map.mpr ⟨(e.arm, d), hmem, by simp [hid]⟩

section Edges

variable {f : Function} (wf : f.WellFormed)
include wf

theorem edges_nodup : ((edges f).map Prod.fst).Nodup := by
  simp only [edges, map_flatMap]
  rw [nodup_flatMap]
  constructor
  · intro b _
    cases hbt : b.terminator with
    | none => simp [edgesFrom, hbt]
    | some t =>
      have := (armsOf_nodup t).map (f := fun arm => (⟨b.id, arm⟩ : EdgeId)) fun a c h => by simpa using h
      simpa [edgesFrom, hbt, List.map_map, Function.comp_def] using this
  · refine (pairwise_map.mp wf.blocksNodup).imp fun {b c} hbc => ?_
    intro e hb hc
    obtain ⟨x, hx, rfl⟩ := List.mem_map.mp hb
    obtain ⟨y, hy, hxy⟩ := List.mem_map.mp hc
    obtain ⟨-, -, hxb, -⟩ := mem_edgesFrom.mp hx
    obtain ⟨-, -, hyc, -⟩ := mem_edgesFrom.mp hy
    exact hbc (hxb.trans (hyc.trans (congrArg EdgeId.source hxy)).symm)

theorem edgeData_eq_some_iff {e d} : edgeData f e = some d ↔ (e, d) ∈ edges f := by
  have hnd : ((edges f).reverse.map Prod.fst).Nodup := by
    rw [map_reverse, nodup_reverse]
    exact edges_nodup wf
  rw [edgeData, AssocMap.get?, AssocMap.lookup_eq_some_iff hnd, mem_reverse]

omit wf in
theorem mem_edges {e d} : (e, d) ∈ edges f ↔
    ∃ b ∈ f.blocks, ∃ t, b.terminator = some t ∧ b.id = e.source ∧ (e.arm, d) ∈ armsOf t := by
  simp only [edges, mem_flatMap, mem_edgesFrom]

theorem edgeData_of_arm {b} (hb : b ∈ f.blocks) {t} (ht : b.terminator = some t)
    {arm d} (h : (arm, d) ∈ armsOf t) : edgeData f ⟨b.id, arm⟩ = some d :=
  (edgeData_eq_some_iff wf).mpr (mem_edges.mpr ⟨b, hb, t, ht, rfl, h⟩)

theorem mem_incomingEdges {e b} :
    e ∈ incomingEdges f b ↔ ∃ d, edgeData f e = some d ∧ d.dest = b := by
  simp only [incomingEdges, List.mem_map, mem_filter, beq_iff_eq]
  constructor
  · rintro ⟨⟨e, d⟩, ⟨hmem, hd⟩, rfl⟩
    exact ⟨d, (edgeData_eq_some_iff wf).mpr hmem, hd⟩
  · rintro ⟨d, hd, rfl⟩
    exact ⟨(e, d), ⟨(edgeData_eq_some_iff wf).mp hd, rfl⟩, rfl⟩

theorem allBlockParams_nodup : (allBlockParams f).Nodup := by
  have hnd := wf.valuesNodup
  rw [Function.collectDefinedValues_eq] at hnd
  obtain ⟨hin, hout⟩ := nodup_flatMap.mp (nodup_append.mp hnd).2.1
  refine nodup_flatMap.mpr ⟨fun b hb => (nodup_append.mp (hin b hb)).1, hout.imp fun {b c} h => ?_⟩
  exact fun v hv hv' => h (mem_append_left _ hv) (mem_append_left _ hv')

theorem paramInputs_eq {b} (hb : b ∈ f.blocks) {k p} (hp : b.params[k]? = some p) :
    paramInputs f p.id = some (b.id, k) := by
  rw [paramInputs, AssocMap.get?, AssocMap.lookup_eq_some_iff]
  · simp only [mem_reverse, mem_flatMap, List.mem_map, paramSites]
    exact ⟨b, hb, (p, k), mem_zipIdx_iff_getElem?.mpr hp, rfl⟩
  · rw [map_reverse, nodup_reverse]
    have hkeys : (f.blocks.flatMap paramSites).map Prod.fst = allBlockParams f := by
      simp only [map_flatMap, List.map_map, allBlockParams, paramSites]
      congr 1
      funext b
      conv_rhs => rw [← zipIdx_map_fst 0 b.params, List.map_map]
      rfl
    rw [hkeys]
    exact allBlockParams_nodup wf

omit wf in
theorem mem_allBlockParams_of_paramInputs {v x} (h : paramInputs f v = some x) :
    v ∈ allBlockParams f := by
  have hmem := mem_of_get? h
  simp only [mem_reverse, mem_flatMap, List.mem_map, paramSites] at hmem
  obtain ⟨b, hb, ⟨p, i⟩, hpi, heq⟩ := hmem
  simp only [Prod.mk.injEq] at heq
  obtain ⟨rfl, -⟩ := heq
  exact mem_flatMap.mpr ⟨b, hb, List.mem_map.mpr ⟨p, (mem_zipIdx' hpi).2 ▸ getElem_mem _, rfl⟩⟩

/-- The edge passes the value to the parameter. -/
inductive Passes (f : Function) (e : EdgeId) : ValueId → ValueId → Prop
  | arg {d b} {k : Nat} {p a} (hd : edgeData f e = some d) (hb : b ∈ f.blocks) (hid : b.id = d.dest)
      (hp : b.params[k]? = some p) (ha : d.args[k]? = some a) : Passes f e p.id a

theorem Passes.mem_valueUsers {e p a} (h : Passes f e p a) : .blockParam p ∈ valueUsers f a := by
  obtain ⟨hd, hb, hid, hp, ha⟩ := h
  refine mem_flatMap.mpr ⟨_, hb, mem_append_left _ (mem_flatMap.mpr
    ⟨(_, _), mem_zipIdx_iff_getElem?.mpr hp, mem_filterMap.mpr ⟨e, ?_, ?_⟩⟩)⟩
  · exact (mem_incomingEdges wf).mpr ⟨_, hd, hid.symm⟩
  · simp [hd, ha]

end Edges

variable {f : Function} {s s' : Solver}

def termValue (f : Function) (b : BlockId) : Option ValueId :=
  match (f.tryBlock b).bind (·.terminator) with
  | some (.condBranch cond _ _ _ _) => some cond
  | some (.switch selector _ _) => some selector
  | _ => none

theorem terminator_mem_valueUsers {b v} (h : termValue f b = some v) :
    .terminator b ∈ valueUsers f v := by
  unfold termValue at h
  cases hb : f.tryBlock b with
  | none => simp [hb] at h
  | some blk =>
    obtain ⟨hmem, rfl⟩ := Function.mem_blocks_of_tryBlock hb
    refine mem_flatMap.mpr ⟨blk, hmem, mem_append_right _ ?_⟩
    split at h <;> simp_all

theorem liveArms_congr {b}
    (h : ∀ v, termValue f b = some v → s.lat v = s'.lat v) : liveArms f s b = liveArms f s' b := by
  unfold termValue at h
  unfold liveArms
  split <;> simp_all

/-! ## Marking edges -/

def unmarked (f : Function) (s : Solver) : Nat := ((edges f).map Prod.fst).countP (· ∉ s.reachableEdges)

def ArmsMarked (f : Function) (s : Solver) (b : BlockId) : Prop :=
  ∀ arm ∈ liveArms f s b, ∀ d, edgeData f ⟨b, arm⟩ = some d → ⟨b, arm⟩ ∈ s.reachableEdges

/-- What marking does: it adds edges and blocks, puts the new edges on their worklist, and finishes the
terminators of the new blocks. -/
structure Extends (f : Function) (s s' : Solver) : Prop where
  lattice : s'.lattice = s.lattice
  ssa : s'.ssaWorklist = s.ssaWorklist
  blocks : ∀ b ∈ s.reachableBlocks, b ∈ s'.reachableBlocks
  edges : ∀ e ∈ s.reachableEdges, e ∈ s'.reachableEdges
  cfg : ∀ e ∈ s.cfgWorklist, e ∈ s'.cfgWorklist
  newEdge : ∀ e ∈ s'.reachableEdges, e ∈ s.reachableEdges ∨
    (e ∈ s'.cfgWorklist ∧ ∃ d, edgeData f e = some d ∧ d.dest ∈ s'.reachableBlocks)
  newBlock : ∀ b ∈ s'.reachableBlocks, b ∈ s.reachableBlocks ∨ ArmsMarked f s' b
  shrinks : unmarked f s' ≤ unmarked f s
  size : s'.cfgWorklist.length + unmarked f s' ≤ s.cfgWorklist.length + unmarked f s

theorem Extends.refl (f s) : Extends f s s :=
  ⟨rfl, rfl, fun _ h => h, fun _ h => h, fun _ h => h, fun _ h => .inl h, fun _ h => .inl h, Nat.le_refl _, Nat.le_refl _⟩

theorem Extends.liveArms (h : Extends f s s') (b) :
    liveArms f s' b = liveArms f s b :=
  liveArms_congr fun v _ => by simp [Solver.lat, h.lattice]

theorem Extends.armsMarked (h : Extends f s s') {b}
    (hb : ArmsMarked f s b) : ArmsMarked f s' b :=
  fun arm harm d hd => h.edges _ (hb arm (h.liveArms b ▸ harm) d hd)

theorem Extends.trans {s''} (h : Extends f s s') (h' : Extends f s' s'') :
    Extends f s s'' where
  lattice := h'.lattice.trans h.lattice
  ssa := h'.ssa.trans h.ssa
  blocks := fun b hb => h'.blocks b (h.blocks b hb)
  edges := fun e he => h'.edges e (h.edges e he)
  cfg := fun e he => h'.cfg e (h.cfg e he)
  newEdge := by
    intro e he
    rcases h'.newEdge e he with he | he
    · rcases h.newEdge e he with he | ⟨hc, d, hd, hb⟩
      · exact .inl he
      · exact .inr ⟨h'.cfg e hc, d, hd, h'.blocks _ hb⟩
    · exact .inr he
  newBlock := by
    intro b hb
    rcases h'.newBlock b hb with hb | hb
    · exact (h.newBlock b hb).imp_right h'.armsMarked
    · exact .inr hb
  shrinks := Nat.le_trans h'.shrinks h.shrinks
  size := Nat.le_trans h'.size h.size

/-- A marking function does its work on every state with fewer than `n` unmarked edges. -/
def MarkSpec (f : Function) (mark : Solver → EdgeId → Solver) (n : Nat) : Prop :=
  ∀ s e, unmarked f s < n → Extends f s (mark s e) ∧ ∀ d, edgeData f e = some d → e ∈ (mark s e).reachableEdges

theorem processTerminator_spec {mark : Solver → EdgeId → Solver} {n} (hmark : MarkSpec f mark n)
    (hs : unmarked f s < n) (b) :
    Extends f s (processTerminator f mark s b) ∧ ArmsMarked f (processTerminator f mark s b) b := by
  have key : ∀ (arms : List EdgeArm) (s : Solver), unmarked f s < n →
      Extends f s (arms.foldl (fun s arm => mark s ⟨b, arm⟩) s) ∧
      ∀ arm ∈ arms, ∀ d, edgeData f ⟨b, arm⟩ = some d →
        ⟨b, arm⟩ ∈ (arms.foldl (fun s arm => mark s ⟨b, arm⟩) s).reachableEdges := by
    intro arms
    induction arms with
    | nil => exact fun s _ => ⟨Extends.refl f s, by simp⟩
    | cons arm arms ih =>
      intro s hs
      obtain ⟨hext, hmk⟩ := hmark s ⟨b, arm⟩ hs
      obtain ⟨hext', hrest⟩ := ih (mark s ⟨b, arm⟩) (Nat.lt_of_le_of_lt hext.shrinks hs)
      refine ⟨hext.trans hext', fun a ha d hd => ?_⟩
      rcases mem_cons.mp ha with rfl | ha
      · exact hext'.edges _ (hmk d hd)
      · exact hrest a ha d hd
  obtain ⟨hext, harms⟩ := key (liveArms f s b) s hs
  exact ⟨hext, fun arm harm d hd => harms arm (hext.liveArms b ▸ harm) d hd⟩

theorem markBlockReachable_spec {mark : Solver → EdgeId → Solver} {n}
    (hmark : MarkSpec f mark n) (hs : unmarked f s < n) (b) :
    Extends f s (markBlockReachable f mark s b) ∧ b ∈ (markBlockReachable f mark s b).reachableBlocks := by
  unfold markBlockReachable
  split
  · next hb => exact ⟨Extends.refl f s, hb⟩
  · obtain ⟨hext, harms⟩ := processTerminator_spec hmark
      (s := { s with reachableBlocks := b :: s.reachableBlocks }) hs b
    refine ⟨⟨hext.lattice, hext.ssa, fun c hc => hext.blocks c (.tail _ hc), hext.edges, hext.cfg,
      hext.newEdge, fun c hc => ?_, hext.shrinks, hext.size⟩, hext.blocks b mem_cons_self⟩
    rcases hext.newBlock c hc with hc | hc
    · rcases mem_cons.mp hc with rfl | hc
      · exact .inr harms
      · exact .inl hc
    · exact .inr hc

theorem unmarked_cons_lt (wf : f.WellFormed) {e d}
    (hd : edgeData f e = some d) (he : e ∉ s.reachableEdges) (cfg) :
    unmarked f { s with reachableEdges := e :: s.reachableEdges, cfgWorklist := cfg } < unmarked f s := by
  have hmem : e ∈ (edges f).map Prod.fst := List.mem_map.mpr ⟨(e, d), (edgeData_eq_some_iff wf).mp hd, rfl⟩
  obtain ⟨l₁, l₂, hl⟩ := append_of_mem hmem
  have hle : ∀ l : List EdgeId, l.countP (· ∉ e :: s.reachableEdges) ≤ l.countP (· ∉ s.reachableEdges) :=
    fun l => countP_mono_left fun x _ hx => by simp_all
  have hin : decide (e ∉ e :: s.reachableEdges) = false := by simp
  have hout : decide (e ∉ s.reachableEdges) = true := by simp [he]
  have h₁ := hle l₁
  have h₂ := hle l₂
  simp only [unmarked, hl, countP_append, countP_cons, hin, hout, Bool.false_eq_true, if_false, if_true]
  omega

theorem markEdge_spec (wf : f.WellFormed) (n) : MarkSpec f (markEdge f n) n := by
  induction n with
  | zero => exact fun s e hs => absurd hs (Nat.not_lt_zero _)
  | succ n ih =>
    intro s e hs
    simp only [markEdge]
    split
    · next hd => exact ⟨Extends.refl f s, fun d hd' => by rw [hd] at hd'; cases hd'⟩
    · next d hd =>
      by_cases he : e ∈ s.reachableEdges
      · rw [if_pos he]
        exact ⟨Extends.refl f s, fun _ _ => he⟩
      · rw [if_neg he]
        have hlt := unmarked_cons_lt wf hd he (s.cfgWorklist ++ [e])
        obtain ⟨hext, hdest⟩ := markBlockReachable_spec ih
          (s := { s with reachableEdges := e :: s.reachableEdges, cfgWorklist := s.cfgWorklist ++ [e] })
          (by omega) d.dest
        refine ⟨⟨hext.lattice, hext.ssa, hext.blocks, fun x hx => hext.edges x (.tail _ hx),
          fun x hx => hext.cfg x (mem_append_left _ hx), fun x hx => ?_, hext.newBlock, ?_, ?_⟩,
          fun _ _ => hext.edges e mem_cons_self⟩
        · rcases hext.newEdge x hx with hx | hx
          · rcases mem_cons.mp hx with rfl | hx
            · exact .inr ⟨hext.cfg x (by simp), d, hd, hdest⟩
            · exact .inl hx
          · exact .inr hx
        · exact Nat.le_trans hext.shrinks (Nat.le_of_lt hlt)
        · have hsize := hext.size
          simp only [length_append, length_cons, length_nil] at hsize
          omega

theorem mark_spec (wf : f.WellFormed) : ∀ n, MarkSpec f (mark f) n := by
  intro n s e _
  refine markEdge_spec wf ((edges f).length + 1) s e (Nat.lt_succ_of_le ?_)
  exact Nat.le_trans countP_le_length (by simp)

/-! ## Recomputing a parameter -/

theorem meetInputs_le (f s param pi es) :
    ∀ acc : Lattice, (meetInputs f s param pi es acc).Le acc ∧
      ∀ e ∈ es, e ∈ s.reachableEdges → ∀ arg, (edgeData f e).bind (·.args[pi]?) = some arg → arg ≠ param →
        (meetInputs f s param pi es acc).Le (s.lat arg) := by
  induction es with
  | nil => exact fun acc => ⟨acc.le_refl, by simp⟩
  | cons e es ih =>
    intro acc
    simp only [meetInputs]
    -- the cases that skip the edge leave nothing to show for it
    have hskip : (∀ arg, (edgeData f e).bind (·.args[pi]?) = some arg → e ∈ s.reachableEdges → arg = param) →
        (meetInputs f s param pi es acc).Le acc ∧ ∀ e' ∈ e :: es, e' ∈ s.reachableEdges → ∀ arg,
          (edgeData f e').bind (·.args[pi]?) = some arg → arg ≠ param →
            (meetInputs f s param pi es acc).Le (s.lat arg) := by
      intro hno
      refine ⟨(ih acc).1, fun e' he' hr arg harg hne => ?_⟩
      rcases mem_cons.mp he' with rfl | he'
      · exact absurd (hno arg harg hr) hne
      · exact (ih acc).2 e' he' hr arg harg hne
    split
    · next hr =>
      split
      · next arg harg =>
        split
        · next hself => exact hskip fun a ha _ => by rw [harg] at ha; exact (some.inj ha).symm.trans hself
        · split
          · exact ⟨acc.bottom_le, fun _ _ _ arg _ _ => (s.lat arg).bottom_le⟩
          · obtain ⟨h1, h2⟩ := ih (meet acc (s.lat arg))
            refine ⟨h1.trans (Lattice.meet_le_left _ _), fun e' he' hr' arg' harg' hne => ?_⟩
            rcases mem_cons.mp he' with rfl | he'
            · rw [harg] at harg'
              rw [← some.inj harg']
              exact h1.trans (Lattice.meet_le_right _ _)
            · exact h2 e' he' hr' arg' harg' hne
      · next hnone => exact hskip fun a ha _ => by rw [hnone] at ha; cases ha
    · next hr => exact hskip fun _ _ h => absurd h hr

theorem meet_eq_const {a b c} (h : meet a b = .const c) : a = .const c ∨ b = .const c := by
  cases a <;> cases b <;> grind [meet]

theorem meetInputs_eq_const {param pi c} (es) :
    ∀ acc, meetInputs f s param pi es acc = .const c → acc = .const c ∨ ∃ v, s.lat v = .const c := by
  induction es with
  | nil => exact fun acc h => .inl h
  | cons e es ih =>
    intro acc h
    simp only [meetInputs] at h
    split at h
    · split at h
      · next arg harg =>
        split at h
        · exact ih acc h
        · split at h
          · cases h
          · rcases ih _ h with h | h
            · exact (meet_eq_const h).imp_right fun h => ⟨arg, h⟩
            · exact .inr h
      · exact ih acc h
    · exact ih acc h

theorem lat_insert (s : Solver) (v u x ssa) :
    Solver.lat { s with lattice := insert s.lattice v x, ssaWorklist := ssa } u =
      if u = v then x else s.lat u := by
  by_cases h : u = v
  · subst h; simp [Solver.lat]
  · simp [Solver.lat, h]

/-- The worklist entries there are and those still to come. -/
def potential (f : Function) (s : Solver) : Nat :=
  s.cfgWorklist.length + s.ssaWorklist.length + unmarked f s + ((allBlockParams f).map fun v => (s.lat v).height).sum

theorem potential_extends (h : Extends f s s') : potential f s' ≤ potential f s := by
  have hsize := h.size
  simp only [potential, Solver.lat, h.lattice, h.ssa]
  omega

theorem potential_insert {p x} (hp : p ∈ allBlockParams f) (hx : x.height < (s.lat p).height) :
    potential f { s with lattice := insert s.lattice p x, ssaWorklist := s.ssaWorklist ++ [p] } ≤ potential f s := by
  have hlt : ((allBlockParams f).map fun v => (Solver.lat { s with
      lattice := insert s.lattice p x, ssaWorklist := s.ssaWorklist ++ [p] } v).height).sum <
      ((allBlockParams f).map fun v => (s.lat v).height).sum := by
    refine sum_lt_sum _ _ (fun v _ => ?_) ⟨p, hp, ?_⟩
    · rw [lat_insert]
      split
      · next h => exact h ▸ Nat.le_of_lt hx
      · exact Nat.le_refl _
    · rw [lat_insert, if_pos rfl]
      exact hx
  simp only [potential, unmarked, length_append, length_cons, length_nil] at hlt ⊢
  omega

/-- What recomputing a parameter does: nothing, or it lowers the parameter and puts it on its worklist.
Afterwards the parameter is below its inputs. -/
structure Lowers (f : Function) (s s' : Solver) (p : ValueId) : Prop where
  blocks : s'.reachableBlocks = s.reachableBlocks
  edges : s'.reachableEdges = s.reachableEdges
  cfg : s'.cfgWorklist = s.cfgWorklist
  ssa : ∀ v ∈ s.ssaWorklist, v ∈ s'.ssaWorklist
  lat : ∀ v, s'.lat v = s.lat v ∨ v = p ∧ p ∈ s'.ssaWorklist ∧ p ∈ allBlockParams f
  const : ∀ v c, s'.lat v = .const c → ∃ u, s.lat u = .const c
  below : ∀ e ∈ s.reachableEdges, ∀ a, Passes f e p a → a = p ∨ (s'.lat p).Le (s'.lat a)
  potential : potential f s' ≤ potential f s

theorem recomputeParam_lowers (wf : f.WellFormed) (s p) : Lowers f s (recomputeParam f s p) p := by
  have hbelow : ∀ e ∈ s.reachableEdges, ∀ a, Passes f e p a → a ≠ p → ∃ block k, paramInputs f p = some (block, k) ∧
      (meetInputs f s p k (incomingEdges f block) .top).Le (s.lat a) := by
    rintro e he a ⟨hd, hb, hid, hp, ha⟩ hne
    refine ⟨_, _, paramInputs_eq wf hb hp, (meetInputs_le f s _ _ _ .top).2 e ?_ he a (by simp [hd, ha]) hne⟩
    exact (mem_incomingEdges wf).mpr ⟨_, hd, hid.symm⟩
  have hsame (hle : ∀ e ∈ s.reachableEdges, ∀ a, Passes f e p a → a ≠ p → (s.lat p).Le (s.lat a)) : Lowers f s s p :=
    ⟨rfl, rfl, rfl, fun _ h => h, fun _ => .inl rfl, fun v _ h => ⟨v, h⟩,
      fun e he a h => (em _).imp_right (hle e he a h), le_rfl⟩
  unfold recomputeParam
  split
  · next hin =>
    refine hsame fun e he a h hne => ?_
    obtain ⟨_, _, hin', -⟩ := hbelow e he a h hne
    cases hin.symm.trans hin'
  · next block pi hin =>
    have hle : ∀ e ∈ s.reachableEdges, ∀ a, Passes f e p a → a ≠ p →
        (meet (s.lat p) (meetInputs f s p pi (incomingEdges f block) .top)).Le (s.lat a) := by
      intro e he a h hne
      obtain ⟨_, _, hin', hle⟩ := hbelow e he a h hne
      cases hin.symm.trans hin'
      exact (Lattice.meet_le_right _ _).trans hle
    dsimp only
    split
    · next hm => exact hsame (hm ▸ hle)
    · next hm =>
      have hp := mem_allBlockParams_of_paramInputs hin
      have hlat := lat_insert s p
      refine ⟨rfl, rfl, rfl, fun v => mem_append_left _, fun v => ?_, fun v c hv => ?_, fun e he a h => ?_,
        potential_insert hp (Lattice.height_meet_lt hm)⟩
      · rw [hlat]
        split
        · next h => exact .inr ⟨h, by simp, hp⟩
        · exact .inl rfl
      · rw [hlat] at hv
        split at hv
        · rcases meet_eq_const hv with h | h
          · exact ⟨p, h⟩
          · exact (meetInputs_eq_const _ _ h).resolve_left (by simp)
        · exact ⟨v, hv⟩
      · by_cases hne : a = p
        · exact .inl hne
        · rw [hlat, hlat, if_pos rfl, if_neg hne]
          exact .inr (hle e he a h hne)

/-! ## The invariant of the worklists -/

/-- What is a normal form of its width: the solver only ever holds such constants. -/
def ConstVal.Normal : ConstVal → Prop
  | .int v w => w ≠ .i128 → w.Fits v
  | _ => True

structure Started (f : Function) (s : Solver) : Prop where
  entry : f.entry ∈ s.reachableBlocks
  targets : ∀ e ∈ s.reachableEdges, ∃ d, edgeData f e = some d ∧ d.dest ∈ s.reachableBlocks
  seeds : ∀ v, v ∉ allBlockParams f → s.lat v = AssocMap.getD (seedLattice f) v .top
  normal : ∀ v c, s.lat v = .const c → c.Normal

/-- What is not on a worklist is up to date, up to the users still to be visited. -/
structure Inv (f : Function) (s : Solver) (users : List ValueUser) : Prop extends Started f s where
  arms : ∀ b ∈ s.reachableBlocks,
    ArmsMarked f s b ∨ (∃ v ∈ s.ssaWorklist, termValue f b = some v) ∨ .terminator b ∈ users
  params : ∀ e ∈ s.reachableEdges, ∀ p a, Passes f e p a →
    (a = p ∨ (s.lat p).Le (s.lat a)) ∨ e ∈ s.cfgWorklist ∨ a ∈ s.ssaWorklist ∨ .blockParam p ∈ users

variable {u : ValueUser} {us : List ValueUser}

theorem Inv.settle (h : Inv f s (u :: us)) (harms : ∀ b ∈ s.reachableBlocks, u = .terminator b → ArmsMarked f s b)
    (hparams : ∀ e ∈ s.reachableEdges, ∀ p a, u = .blockParam p → Passes f e p a → a = p ∨ (s.lat p).Le (s.lat a)) :
    Inv f s us where
  toStarted := h.toStarted
  arms b hb := by
    have := harms b hb
    have := h.arms b hb
    grind
  params e he p a hpa := by
    have := fun hu => hparams e he p a hu hpa
    have := h.params e he p a hpa
    grind

theorem Inv.extend (h : Inv f s us) (hext : Extends f s s') : Inv f s' us := by
  have hlat : ∀ v, s'.lat v = s.lat v := fun v => by simp [Solver.lat, hext.lattice]
  refine ⟨⟨hext.blocks _ h.entry, fun e he => ?_, fun v hv => hlat v ▸ h.seeds v hv,
    fun v c hv => h.normal v c (hlat v ▸ hv)⟩, fun b hb => ?_, fun e he p a hpa => ?_⟩
  · rcases hext.newEdge e he with he | ⟨-, he⟩
    · obtain ⟨d, hd, hb⟩ := h.targets e he
      exact ⟨d, hd, hext.blocks _ hb⟩
    · exact he
  · rcases hext.newBlock b hb with hb | hb
    · rw [hext.ssa]
      exact (h.arms b hb).imp_left hext.armsMarked
    · exact .inl hb
  · rcases hext.newEdge e he with he | ⟨hc, -⟩
    · rw [hlat, hlat, hext.ssa]
      exact (h.params e he p a hpa).imp_right (.imp_left (hext.cfg e))
    · exact .inr (.inl hc)

theorem Inv.lower {p} (h : Inv f s (.blockParam p :: us)) (hlow : Lowers f s s' p) : Inv f s' us := by
  refine ⟨⟨hlow.blocks ▸ h.entry, ?_, fun v hv => ?_, fun v c hv => ?_⟩, fun b hb => ?_, fun e he q a hqa => ?_⟩
  · rw [hlow.edges, hlow.blocks]
    exact h.targets
  · rcases hlow.lat v with hv' | ⟨rfl, -, hp⟩
    · exact hv' ▸ h.seeds v hv
    · exact absurd hp hv
  · obtain ⟨u, hu⟩ := hlow.const v c hv
    exact h.normal u c hu
  · by_cases hsame : ∀ v, termValue f b = some v → s'.lat v = s.lat v
    · rcases h.arms b (hlow.blocks ▸ hb) with hm | ⟨v, hv, hv'⟩ | hm
      · exact .inl fun arm harm d hd => hlow.edges ▸ hm arm (liveArms_congr hsame ▸ harm) d hd
      · exact .inr (.inl ⟨v, hlow.ssa v hv, hv'⟩)
      · exact .inr (.inr ((mem_cons.mp hm).resolve_left (by simp)))
    · push Not at hsame
      obtain ⟨v, hv, hne⟩ := hsame
      obtain ⟨rfl, hp, -⟩ := (hlow.lat v).resolve_left hne
      exact .inr (.inl ⟨v, hp, hv⟩)
  · rw [hlow.edges] at he
    by_cases hq : q = p
    · subst hq
      exact .inl (hlow.below e he a hqa)
    · have hlq := (hlow.lat q).resolve_right (hq ·.1)
      rcases hlow.lat a with hla | ⟨rfl, ha, -⟩
      · rw [hlq, hla, hlow.cfg]
        refine (h.params e he q a hqa).imp_right (.imp_right (.imp (hlow.ssa a) fun hm => ?_))
        exact (mem_cons.mp hm).resolve_left (by simpa using hq)
      · exact .inr (.inr (.inl ha))

theorem Inv.visit (wf : f.WellFormed) (h : Inv f s (u :: us)) :
    Inv f (visitUser f s u) us ∧ potential f (visitUser f s u) ≤ potential f s := by
  cases u with
  | terminator b =>
    simp only [visitUser]
    split
    · obtain ⟨hext, harms⟩ := processTerminator_spec (mark_spec wf (unmarked f s + 1)) (Nat.lt_succ_self _) b
      refine ⟨(h.extend hext).settle (fun c _ e => ?_) (fun _ _ _ _ e => nomatch e), potential_extends hext⟩
      cases e
      exact harms
    · next hb =>
      refine ⟨h.settle (fun c hc e => ?_) (fun _ _ _ _ e => nomatch e), le_rfl⟩
      cases e
      exact absurd hc hb
  | blockParam p =>
    have hlow := recomputeParam_lowers wf s p
    exact ⟨h.lower hlow, hlow.potential⟩

theorem Inv.visitAll (wf : f.WellFormed) (us : List ValueUser) {s} (h : Inv f s us) :
    Inv f (us.foldl (visitUser f) s) [] ∧ potential f (us.foldl (visitUser f) s) ≤ potential f s := by
  induction us generalizing s with
  | nil => exact ⟨h, le_rfl⟩
  | cons u us ih =>
    obtain ⟨hu, hpot⟩ := h.visit wf
    exact ⟨(ih hu).1, (ih hu).2.trans hpot⟩

/-! ## Termination -/

abbrev Settled (f : Function) (s : Solver) : Prop := Inv f s []

theorem Settled.popEdge (wf : f.WellFormed) {s} (h : Settled f s) {e rest} (hcfg : s.cfgWorklist = e :: rest) :
    ∃ s', Settled f s' ∧ potential f s' < potential f s ∧
      ∀ fuel, drainCfg f (fuel + 1) s = drainCfg f fuel s' := by
  have hpop {users} (hin : ∀ p a, Passes f e p a → .blockParam p ∈ users) : Inv f { s with cfgWorklist := rest } users := by
    refine ⟨⟨h.entry, h.targets, h.seeds, h.normal⟩, fun b hb => (h.arms b hb).imp_right (.imp_right (nomatch ·)), ?_⟩
    intro e' he' p a hpa
    rcases h.params e' he' p a hpa with h | h | h | h
    · exact .inl h
    · rcases mem_cons.mp (hcfg ▸ h) with rfl | h
      · exact .inr (.inr (.inr (hin p a hpa)))
      · exact .inr (.inl h)
    · exact .inr (.inr (.inl h))
    · cases h
  have hlt : potential f { s with cfgWorklist := rest } < potential f s := by
    simp only [potential, hcfg, length_cons, unmarked, Solver.lat]
    omega
  cases hd : edgeData f e with
  | none =>
    refine ⟨_, hpop ?_, hlt, fun fuel => by simp [drainCfg, hcfg, hd]⟩
    rintro p a ⟨hd', -⟩
    cases hd.symm.trans hd'
  | some data =>
    let params := ((f.tryBlock data.dest).map fun b => b.params.map (·.id)).getD []
    have hin : ∀ p a, Passes f e p a → .blockParam p ∈ params.map ValueUser.blockParam := by
      rintro p a ⟨hd', hb, hid, hp, -⟩
      cases hd.symm.trans hd'
      simp only [params, ← hid, Function.tryBlock_id wf.blocksNodup hb]
      exact List.mem_map_of_mem (List.mem_map_of_mem (mem_of_getElem? hp))
    obtain ⟨hinv, hpot⟩ := (hpop hin).visitAll wf
    refine ⟨_, hinv, Nat.lt_of_le_of_lt hpot hlt, fun fuel => ?_⟩
    simp [drainCfg, hcfg, hd, foldl_map, visitUser, params]

theorem Settled.popValue (wf : f.WellFormed) {s : Solver} (h : Settled f s) {v : ValueId}
    {rest : List ValueId} (hssa : s.ssaWorklist = v :: rest) :
    ∃ s', Settled f s' ∧ potential f s' < potential f s ∧
      ∀ fuel, drainSsa f (fuel + 1) s = drainSsa f fuel s' := by
  have hpop : Inv f { s with ssaWorklist := rest } (valueUsers f v) := by
    refine ⟨⟨h.entry, h.targets, h.seeds, h.normal⟩, fun b hb => ?_, fun e he p a hpa => ?_⟩
    · rcases h.arms b hb with h | ⟨u, hu, hu'⟩ | h
      · exact .inl h
      · rcases mem_cons.mp (hssa ▸ hu) with rfl | hu
        · exact .inr (.inr (terminator_mem_valueUsers hu'))
        · exact .inr (.inl ⟨u, hu, hu'⟩)
      · cases h
    · rcases h.params e he p a hpa with h | h | h | h
      · exact .inl h
      · exact .inr (.inl h)
      · rcases mem_cons.mp (hssa ▸ h) with rfl | h
        · exact .inr (.inr (.inr (hpa.mem_valueUsers wf)))
        · exact .inr (.inr (.inl h))
      · cases h
  have hlt : potential f { s with ssaWorklist := rest } < potential f s := by
    simp only [potential, hssa, length_cons, unmarked, Solver.lat]
    omega
  obtain ⟨hinv, hpot⟩ := hpop.visitAll wf
  exact ⟨_, hinv, Nat.lt_of_le_of_lt hpot hlt, fun fuel => by simp [drainSsa, hssa]⟩

theorem drain_spec {γ : Type} {todo : Solver → List γ} {drain : Nat → Solver → Solver}
    (hnil : ∀ fuel s, todo s = [] → drain fuel s = s) (hbound : ∀ s, (todo s).length ≤ potential f s)
    (hpop : ∀ s x rest, Settled f s → todo s = x :: rest →
      ∃ s', Settled f s' ∧ potential f s' < potential f s ∧ ∀ fuel, drain (fuel + 1) s = drain fuel s')
    (fuel) (h : Settled f s) (hf : potential f s ≤ fuel) :
    Settled f (drain fuel s) ∧ todo (drain fuel s) = [] ∧ potential f (drain fuel s) ≤ potential f s ∧
      (todo s ≠ [] → potential f (drain fuel s) < potential f s) := by
  induction fuel generalizing s with
  | zero =>
    have hempty : todo s = [] := eq_nil_of_length_eq_zero (by have := hbound s; omega)
    rw [hnil 0 s hempty]
    exact ⟨h, hempty, Nat.le_refl _, fun hne => absurd hempty hne⟩
  | succ fuel ih =>
    cases hs : todo s with
    | nil =>
      rw [hnil _ s hs]
      exact ⟨h, hs, Nat.le_refl _, fun hne => absurd rfl hne⟩
    | cons x rest =>
      obtain ⟨s', h', hlt, heq⟩ := hpop s x rest h hs
      rw [heq]
      obtain ⟨h1, h2, h3, -⟩ := ih h' (by omega)
      exact ⟨h1, h2, by omega, fun _ => by omega⟩

theorem drainCfg_of_nil (fuel) (s : Solver) (h : s.cfgWorklist = []) : drainCfg f fuel s = s := by
  cases fuel <;> simp [drainCfg, h]

theorem drainCfg_spec (wf : f.WellFormed) (fuel) (h : Settled f s) (hf : potential f s ≤ fuel) :
    Settled f (drainCfg f fuel s) ∧ (drainCfg f fuel s).cfgWorklist = [] ∧
      potential f (drainCfg f fuel s) ≤ potential f s ∧
      (s.cfgWorklist ≠ [] → potential f (drainCfg f fuel s) < potential f s) :=
  drain_spec drainCfg_of_nil (fun s => by rw [potential]; omega) (fun _ _ _ h => h.popEdge wf) fuel h hf

theorem drainSsa_spec (wf : f.WellFormed) (fuel) (h : Settled f s) (hf : potential f s ≤ fuel) :
    Settled f (drainSsa f fuel s) ∧ (drainSsa f fuel s).ssaWorklist = [] ∧
      potential f (drainSsa f fuel s) ≤ potential f s ∧
      (s.ssaWorklist ≠ [] → potential f (drainSsa f fuel s) < potential f s) :=
  drain_spec (fun fuel s h => by cases fuel <;> simp [drainSsa, h]) (fun s => by rw [potential]; omega)
    (fun _ _ _ h => h.popValue wf) fuel h hf

theorem solveLoop_spec (wf : f.WellFormed) (budget fuel) : ∀ {s : Solver}, Settled f s →
    potential f s ≤ fuel → potential f s ≤ budget →
    Settled f (solveLoop f budget fuel s) ∧ (solveLoop f budget fuel s).cfgWorklist = [] ∧
      (solveLoop f budget fuel s).ssaWorklist = [] := by
  induction fuel with
  | zero =>
    intro s h hf _
    refine ⟨h, eq_nil_of_length_eq_zero ?_, eq_nil_of_length_eq_zero ?_⟩ <;>
      · simp only [potential, solveLoop] at hf ⊢; omega
  | succ fuel ih =>
    intro s h hf hb
    simp only [solveLoop]
    split
    · next hempty =>
      simp only [Bool.and_eq_true, List.isEmpty_iff] at hempty
      exact ⟨h, hempty.1, hempty.2⟩
    · next hne =>
      obtain ⟨h1, -, hle1, hlt1⟩ := drainCfg_spec wf budget h hb
      obtain ⟨h2, -, hle2, hlt2⟩ := drainSsa_spec wf budget h1 (by omega)
      have hlt : potential f (drainSsa f budget (drainCfg f budget s)) < potential f s := by
        by_cases hcfg : s.cfgWorklist = []
        · rw [drainCfg_of_nil budget s hcfg] at hlt2 ⊢
          refine hlt2 fun hssa => hne (by simp [hcfg, hssa])
        · exact Nat.lt_of_le_of_lt hle2 (hlt1 hcfg)
      exact ih h2 (by omega) (by omega)

/-! ## The solution -/

theorem sext_normal (v) (w : IntWidth) : (ConstVal.int (sext v w.bits) w).Normal := by
  intro hw
  have hbits : ¬ 128 ≤ w.bits := by cases w <;> simp_all [IntWidth.bits]
  rw [sext, if_neg hbits]
  exact w.fits_wrap v

theorem fromInst_normal {k c} (h : ConstVal.fromInst k = some c) : c.Normal := by
  cases k <;> simp only [ConstVal.fromInst, some.injEq, reduceCtorEq] at h <;> subst h
  · exact sext_normal _ _
  · trivial
  · trivial

def seedOf (i : Inst) : Lattice :=
  match ConstVal.fromInst i.kind with
  | some c => .const c
  | none => .bottom

theorem get?_foldl_insert {β : Type} {key : β → ValueId} {val : β → Lattice} {l : List β} {m v x}
    (h : AssocMap.get? (l.foldl (fun m b => insert m (key b) (val b)) m) v = some x) :
    (∃ b ∈ l, key b = v ∧ x = val b) ∨ AssocMap.get? m v = some x := by
  induction l generalizing m with
  | nil => exact .inr h
  | cons b l ih =>
    rcases ih h with ⟨c, hc, h'⟩ | h'
    · exact .inl ⟨c, .tail _ hc, h'⟩
    · rw [get?_insert] at h'
      split at h'
      · next hv => exact .inl ⟨b, mem_cons_self, hv.symm, (some.inj h').symm⟩
      · exact .inr h'

theorem seedLattice_get? {v x} (h : AssocMap.get? (seedLattice f) v = some x) :
    (∃ p ∈ f.params, p.id = v ∧ x = .bottom) ∨ ∃ i ∈ f.allInsts, i.id = v ∧ x = seedOf i := by
  rcases get?_foldl_insert h with h | h
  · exact .inl h
  · exact .inr ((get?_foldl_insert h).resolve_right (by simp))

structure Solution (f : Function) (s : Solver) : Prop extends Started f s where
  arms : ∀ b ∈ s.reachableBlocks, ArmsMarked f s b
  params : ∀ e ∈ s.reachableEdges, ∀ p a, Passes f e p a → a = p ∨ (s.lat p).Le (s.lat a)

theorem potential_init_le (hcfg : s.cfgWorklist = []) (hssa : s.ssaWorklist = []) :
    potential f s ≤ budget f := by
  have hheights : ((allBlockParams f).map fun v => (s.lat v).height).sum ≤ 2 * (allBlockParams f).length := by
    have := sum_le_card_nsmul ((allBlockParams f).map fun v => (s.lat v).height) 2 (by
      intro n hn
      obtain ⟨v, -, rfl⟩ := List.mem_map.mp hn
      cases s.lat v <;> simp [Lattice.height])
    simpa [Nat.mul_comm] using this
  have hunmarked : unmarked f s ≤ (edges f).length := Nat.le_trans countP_le_length (by simp)
  simp only [potential, hcfg, hssa, budget, length_nil]
  omega

theorem run_spec (wf : f.WellFormed) :
    (run f).cfgWorklist = [] ∧ (run f).ssaWorklist = [] ∧ Solution f (run f) := by
  let s₀ : Solver :=
    { lattice := seedLattice f, reachableBlocks := [], reachableEdges := [], cfgWorklist := [], ssaWorklist := [] }
  obtain ⟨hext, hentry⟩ := markBlockReachable_spec (mark_spec wf (unmarked f s₀ + 1)) (Nat.lt_succ_self _) f.entry
  have hlat : ∀ v, (markBlockReachable f (mark f) s₀ f.entry).lat v = AssocMap.getD (seedLattice f) v .top :=
    fun v => by rw [Solver.lat, hext.lattice]
  have hsettled : Settled f (markBlockReachable f (mark f) s₀ f.entry) := by
    refine ⟨⟨hentry, fun e he => ?_, fun v _ => hlat v, fun v c hv => ?_⟩,
      fun b hb => .inl ((hext.newBlock b hb).resolve_left (by simp [s₀])), fun e he _ _ _ => ?_⟩
    · exact ((hext.newEdge e he).resolve_left (by simp [s₀])).2
    rotate_left
    · exact .inr (.inl ((hext.newEdge e he).resolve_left (by simp [s₀])).1)
    · rw [hlat, AssocMap.getD] at hv
      cases hg : AssocMap.get? (seedLattice f) v with
      | none => rw [hg] at hv; cases hv
      | some x =>
        rw [hg, getD_some] at hv
        subst hv
        rcases seedLattice_get? hg with ⟨_, -, -, h⟩ | ⟨i, -, -, h⟩
        · cases h
        · unfold seedOf at h
          split at h
          · next c' hc' =>
            cases h
            exact fromInst_normal hc'
          · cases h
  have hpot : potential f (markBlockReachable f (mark f) s₀ f.entry) ≤ budget f :=
    Nat.le_trans (potential_extends hext) (potential_init_le rfl rfl)
  obtain ⟨hinv, hcfg, hssa⟩ : Settled f (run f) ∧ _ ∧ _ := solveLoop_spec wf (budget f) (budget f) hsettled hpot hpot
  refine ⟨hcfg, hssa, hinv.toStarted, fun b hb => ?_, fun e he p a hpa => ?_⟩
  · rcases hinv.arms b hb with h | ⟨v, hv, -⟩ | h
    · exact h
    · cases hssa ▸ hv
    · cases h
  · rcases hinv.params e he p a hpa with h | h | h | h
    · exact h
    · cases hcfg ▸ h
    · cases hssa ▸ h
    · cases h

end Armfortas.Opt.Sccp
