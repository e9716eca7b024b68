import Armfortas.Ir.Lemmas.NaturalLoops

/-! Loops are nested or disjoint as long as no unreachable block sits in two of them that are not nested; parents,
depths and the innermost loop of a block follow from that. -/
namespace Armfortas.Ir
open Lib List Option AssocMap

variable {lp lq : NaturalLoop} {i : Nat}

namespace NaturalLoop

def Inside (lp lq : NaturalLoop) : Prop := lp.body ⊆ lq.body ∧ ¬ lq.body ⊆ lp.body

def Apart (lp lq : NaturalLoop) : Prop := ∀ b ∈ lp.body, b ∉ lq.body

theorem inside_iff (hp : lp.body.Nodup) (hq : lq.body.Nodup) :
    lp.Inside lq ↔ lp.body.length < lq.body.length ∧ lp.body ⊆ lq.body := by
  constructor
  · rintro ⟨hsub, hnot⟩
    have hle := (subperm_of_subset hp hsub).length_le
    refine ⟨Nat.lt_of_le_of_ne hle fun e => hnot ?_, hsub⟩
    exact ((subperm_of_subset hp hsub).perm_of_length_le (Nat.le_of_eq e.symm)).symm.subset
  · rintro ⟨hlt, hsub⟩
    refine ⟨hsub, fun h => ?_⟩
    have hle := (subperm_of_subset hq h).length_le
    omega

end NaturalLoop

/-! ## Parents -/

def isEnclosing (li lj : NaturalLoop) (i j : Nat) : Bool :=
  i != j && decide (li.body.length < lj.body.length) && li.body.all (· ∈ lj.body)

def scanParent (li : NaturalLoop) (i : Nat) (best : Option (Nat × Nat)) (e : NaturalLoop × Nat) : Option (Nat × Nat) :=
  match best with
  | none => if isEnclosing li e.1 i e.2 then some (e.2, e.1.body.length) else none
  | some (_, size) =>
      if isEnclosing li e.1 i e.2 && decide (e.1.body.length < size) then some (e.2, e.1.body.length) else best

theorem loopParent_eq_scan {loops : List NaturalLoop} {li} (hi : loops[i]? = some li) :
    loopParent loops i = (loops.zipIdx.foldl (scanParent li i) none).map (·.1) := by
  rw [loopParent, hi]
  rfl

theorem scanParent_spec (li i) (l : List (NaturalLoop × Nat)) (best : Option (Nat × Nat)) :
    match l.foldl (scanParent li i) best with
    | none => best = none ∧ ∀ e ∈ l, isEnclosing li e.1 i e.2 = false
    | some (j, n) =>
      (best = some (j, n) ∨ ∃ e ∈ l, isEnclosing li e.1 i e.2 = true ∧ e.2 = j ∧ e.1.body.length = n) ∧
      (∀ b, best = some b → n ≤ b.2) ∧ ∀ e ∈ l, isEnclosing li e.1 i e.2 = true → n ≤ e.1.body.length := by
  induction l generalizing best with
  | nil =>
    cases best with
    | none => exact ⟨rfl, by simp⟩
    | some b => exact ⟨.inl rfl, fun c hc => by rw [some.inj hc], by simp⟩
  | cons e l ih =>
    have h := ih (scanParent li i best e)
    rw [foldl_cons]
    have hstep : scanParent li i best e = best ∧
          (isEnclosing li e.1 i e.2 = true → ∃ b, best = some b ∧ b.2 ≤ e.1.body.length) ∨
        scanParent li i best e = some (e.2, e.1.body.length) ∧ isEnclosing li e.1 i e.2 = true ∧
          ∀ b, best = some b → e.1.body.length ≤ b.2 := by
      cases best with
      | none =>
        by_cases he : isEnclosing li e.1 i e.2 = true
        · exact .inr ⟨by simp [scanParent, he], he, by simp⟩
        · exact .inl ⟨by simp [scanParent, he], fun h => absurd h he⟩
      | some b =>
        by_cases he : isEnclosing li e.1 i e.2 = true
        · by_cases hlt : e.1.body.length < b.2
          · refine .inr ⟨by simp [scanParent, he, hlt], he, fun c hc => ?_⟩
            rw [← some.inj hc]
            exact Nat.le_of_lt hlt
          · exact .inl ⟨by simp [scanParent, he, hlt], fun _ => ⟨b, rfl, Nat.le_of_not_lt hlt⟩⟩
        · exact .inl ⟨by simp [scanParent, he], fun h => absurd h he⟩
    generalize l.foldl (scanParent li i) (scanParent li i best e) = r at h ⊢
    rcases hstep with ⟨hkeep, hlarge⟩ | ⟨htake, he, hsmall⟩
    · rw [hkeep] at h
      cases r with
      | none =>
        refine ⟨h.1, forall_mem_cons.mpr ⟨?_, h.2⟩⟩
        by_contra hc
        obtain ⟨b, hb, -⟩ := hlarge (by simpa using hc)
        rw [h.1] at hb
        cases hb
      | some r =>
        obtain ⟨horigin, hbest, hall⟩ := h
        refine ⟨horigin.imp_right fun ⟨e', he', h'⟩ => ⟨e', .tail _ he', h'⟩, hbest,
          forall_mem_cons.mpr ⟨fun he => ?_, hall⟩⟩
        obtain ⟨b, hb, hle⟩ := hlarge he
        exact Nat.le_trans (hbest b hb) hle
    · rw [htake] at h
      cases r with
      | none => exact absurd h.1 (by simp)
      | some r =>
        obtain ⟨horigin, hbest, hall⟩ := h
        have hle := hbest _ rfl
        refine ⟨.inr ?_, fun b hb => Nat.le_trans hle (hsmall b hb),
          forall_mem_cons.mpr ⟨fun _ => hle, hall⟩⟩
        rcases horigin with hr | ⟨e', he', h'⟩
        · obtain ⟨h1, h2⟩ := Prod.mk.inj (some.inj hr)
          exact ⟨e, mem_cons_self, he, h1, h2⟩
        · exact ⟨e', .tail _ he', h'⟩

namespace Function

variable {f : Function} {loops : List NaturalLoop}

namespace LoopsFound

variable (F : f.LoopsFound loops)
include F

theorem isEnclosing_iff {i j li lj} (hi : loops[i]? = some li) (hj : loops[j]? = some lj) :
    isEnclosing li lj i j = true ↔ li.Inside lj := by
  rw [NaturalLoop.inside_iff (F.bodyNodup li (mem_of_getElem? hi)) (F.bodyNodup lj (mem_of_getElem? hj))]
  simp only [isEnclosing, Bool.and_eq_true, bne_iff_ne, decide_eq_true_eq, List.all_eq_true]
  constructor
  · exact fun h => ⟨h.1.2, h.2⟩
  · rintro ⟨hlt, hsub⟩
    refine ⟨⟨?_, hlt⟩, hsub⟩
    rintro rfl
    rw [hi] at hj
    rw [some.inj hj] at hlt
    exact absurd hlt (Nat.lt_irrefl _)

theorem loopParent_spec {li} (hi : loops[i]? = some li) : (loopParent loops i = none → ∀ lj ∈ loops, ¬ li.Inside lj) ∧
    ∀ j, loopParent loops i = some j → ∃ lj, loops[j]? = some lj ∧ li.Inside lj ∧
      ∀ lk ∈ loops, li.Inside lk → lj.body.length ≤ lk.body.length := by
  have hmem : ∀ e ∈ loops.zipIdx, loops[e.2]? = some e.1 := by
    intro e he
    exact mk_mem_zipIdx_iff_getElem?.mp he
  have hindex : ∀ lj ∈ loops, ∃ e ∈ loops.zipIdx, e.1 = lj := by
    intro lj hlj
    obtain ⟨j, hj⟩ := mem_iff_getElem?.mp hlj
    exact ⟨(lj, j), mk_mem_zipIdx_iff_getElem?.mpr hj, rfl⟩
  have hscan := scanParent_spec li i loops.zipIdx none
  rw [loopParent_eq_scan hi]
  generalize loops.zipIdx.foldl (scanParent li i) none = r at hscan ⊢
  refine ⟨fun hnone lj hlj hin => ?_, fun j hj => ?_⟩
  · obtain rfl := map_eq_none_iff.mp hnone
    obtain ⟨e, he, rfl⟩ := hindex lj hlj
    have hfalse := hscan.2 e he
    rw [(F.isEnclosing_iff hi (hmem e he)).mpr hin] at hfalse
    cases hfalse
  · obtain ⟨⟨j', n⟩, rfl, rfl⟩ := map_eq_some_iff.mp hj
    obtain ⟨horigin, -, hall⟩ := hscan
    obtain ⟨e, he, hencl, rfl, rfl⟩ := horigin.resolve_left (by simp)
    refine ⟨e.1, hmem e he, (F.isEnclosing_iff hi (hmem e he)).mp hencl, fun lk hlk hin => ?_⟩
    obtain ⟨e', he', rfl⟩ := hindex lk hlk
    exact hall e' he' ((F.isEnclosing_iff hi (hmem e' he')).mpr hin)

/-! ## Nesting -/

theorem mem_body_iff {lp} (hlp : lp ∈ loops) {b} : b ∈ lp.body ↔ InLoop f.Flow f.entry lp.header b := by
  obtain ⟨l, hl⟩ := (F.headers lp.header).mp ⟨lp, hlp, rfl⟩
  rw [F.body lp hlp, InLoop]
  simp only [backEdgeBlocks_iff hl.1.1]

theorem header_reached {lp} (hlp : lp ∈ loops) : f.ReachedBlock lp.header := by
  obtain ⟨l, hl⟩ := (F.headers lp.header).mp ⟨lp, hlp, rfl⟩
  exact hl.1.flow hl.2.1

theorem header_mem {lp} (hlp : lp ∈ loops) : lp.header ∈ lp.body :=
  (F.body lp hlp _).mpr (.inl rfl)

theorem eq_of_header (hlp : lp ∈ loops) (hlq : lq ∈ loops) (h : lp.header = lq.header) : lp = lq :=
  inj_on_of_nodup_map F.headersNodup hlp hlq h

theorem subset_of_header_mem (hlp : lp ∈ loops) (hlq : lq ∈ loops) (h : lp.header ∈ lq.body) : lp.body ⊆ lq.body := by
  by_cases he : lp.header = lq.header
  · rw [F.eq_of_header hlp hlq he]
    exact fun _ h => h
  · intro b hb
    rw [F.mem_body_iff hlq] at h ⊢
    exact h.subset (F.header_reached hlq).2 he ((F.mem_body_iff hlp).mp hb)

theorem eq_of_subset (hlp : lp ∈ loops) (hlq : lq ∈ loops) (h : lp.body ⊆ lq.body)
    (h' : lq.body ⊆ lp.body) : lp = lq := by
  refine F.eq_of_header hlp hlq ?_
  have hp := ((F.mem_body_iff hlp).mp (h' (F.header_mem hlq))).dominates
  have hq := ((F.mem_body_iff hlq).mp (h (F.header_mem hlp))).dominates
  exact hp.antisymm hq (F.header_reached hlp).2

theorem nested_of_shared (hlp : lp ∈ loops) (hlq : lq ∈ loops) {b}
    (hb : f.ReachedBlock b) (hp : b ∈ lp.body) (hq : b ∈ lq.body) : lp.body ⊆ lq.body ∨ lq.body ⊆ lp.body := by
  by_cases he : lp.header = lq.header
  · rw [F.eq_of_header hlp hlq he]
    exact .inl fun _ h => h
  · rw [F.mem_body_iff hlp] at hp
    rw [F.mem_body_iff hlq] at hq
    rcases InLoop.header_of_shared hb.2 hp hq he with hin | hin
    · exact .inr (F.subset_of_header_mem hlq hlp ((F.mem_body_iff hlp).mpr hin))
    · exact .inl (F.subset_of_header_mem hlp hlq ((F.mem_body_iff hlq).mpr hin))

end LoopsFound

def InLoopOf (f : Function) (h b : BlockId) : Prop :=
  ∃ l, f.BackEdgeBlocks l h ∧ (b = h ∨ ReachesAvoiding f.Flow h b l)

/-- An unreachable block is in two natural loops only if the header of one is in the other. -/
def DeadBlocksNested (f : Function) : Prop :=
  ∀ u, ¬ f.ReachedBlock u → ∀ h h', f.InLoopOf h u → f.InLoopOf h' u → f.InLoopOf h h' ∨ f.InLoopOf h' h

def Laminar (loops : List NaturalLoop) : Prop :=
  ∀ lp ∈ loops, ∀ lq ∈ loops, lp.Apart lq ∨ lp.body ⊆ lq.body ∨ lq.body ⊆ lp.body

namespace LoopsFound

variable (F : f.LoopsFound loops)
include F

theorem inLoopOf_iff {h b} : f.InLoopOf h b ↔ ∃ lp ∈ loops, lp.header = h ∧ b ∈ lp.body := by
  constructor
  · rintro ⟨l, hl, hb⟩
    obtain ⟨lp, hlp, rfl⟩ := (F.headers h).mpr ⟨l, hl⟩
    exact ⟨lp, hlp, rfl, (F.body lp hlp b).mpr (hb.imp_right fun hb => ⟨l, hl, hb⟩)⟩
  · rintro ⟨lp, hlp, rfl, hb⟩
    rcases (F.body lp hlp b).mp hb with rfl | ⟨l, hl, hb⟩
    · obtain ⟨l, hl⟩ := (F.headers lp.header).mp ⟨lp, hlp, rfl⟩
      exact ⟨l, hl, .inl rfl⟩
    · exact ⟨l, hl, .inr hb⟩

theorem laminar_iff : Laminar loops ↔ f.DeadBlocksNested := by
  constructor
  · intro hlam u _ h h' hu hu'
    obtain ⟨lp, hlp, rfl, hp⟩ := F.inLoopOf_iff.mp hu
    obtain ⟨lq, hlq, rfl, hq⟩ := F.inLoopOf_iff.mp hu'
    rcases hlam lp hlp lq hlq with hapart | hsub | hsub
    · exact absurd hq (hapart u hp)
    · exact .inr (F.inLoopOf_iff.mpr ⟨lq, hlq, rfl, hsub (F.header_mem hlp)⟩)
    · exact .inl (F.inLoopOf_iff.mpr ⟨lp, hlp, rfl, hsub (F.header_mem hlq)⟩)
  · intro hdead lp hlp lq hlq
    by_cases hapart : lp.Apart lq
    · exact .inl hapart
    · refine .inr ?_
      unfold NaturalLoop.Apart at hapart
      push Not at hapart
      obtain ⟨b, hp, hq⟩ := hapart
      by_cases hb : f.ReachedBlock b
      · exact F.nested_of_shared hlp hlq hb hp hq
      · rcases hdead b hb _ _ (F.inLoopOf_iff.mpr ⟨lp, hlp, rfl, hp⟩) (F.inLoopOf_iff.mpr ⟨lq, hlq, rfl, hq⟩) with
          hin | hin
        · obtain ⟨lr, hlr, he, hmem⟩ := F.inLoopOf_iff.mp hin
          rw [F.eq_of_header hlr hlp he] at hmem
          exact .inr (F.subset_of_header_mem hlq hlp hmem)
        · obtain ⟨lr, hlr, he, hmem⟩ := F.inLoopOf_iff.mp hin
          rw [F.eq_of_header hlr hlq he] at hmem
          exact .inl (F.subset_of_header_mem hlp hlq hmem)

theorem parent_subset (hlam : Laminar loops) {i j li lj lk} (hi : loops[i]? = some li)
    (hparent : loopParent loops i = some j) (hj : loops[j]? = some lj) (hlk : lk ∈ loops) (hin : li.Inside lk) :
    lj.body ⊆ lk.body := by
  obtain ⟨lj', hj', hinj, hmin⟩ := (F.loopParent_spec hi).2 j hparent
  rw [hj] at hj'
  obtain rfl := some.inj hj'
  have hlj := mem_of_getElem? hj
  have hli := mem_of_getElem? hi
  rcases hlam lj hlj lk hlk with hapart | hsub | hsub
  · exact absurd (hin.1 (F.header_mem hli)) (hapart _ (hinj.1 (F.header_mem hli)))
  · exact hsub
  · have hle := hmin lk hlk hin
    exact ((subperm_of_subset (F.bodyNodup lk hlk) hsub).perm_of_length_le hle).symm.subset

end LoopsFound

/-! ## Depths -/

/-- The depth of a loop: one for an outermost loop, one more than its parent for any other. -/
inductive Depth (loops : List NaturalLoop) : Nat → Nat → Prop
  | root {i : Nat} : loopParent loops i = none → Depth loops i 1
  | child {i p d : Nat} : loopParent loops i = some p → Depth loops p d → Depth loops i (d + 1)

theorem Depth.unique {i d d'} (h : Depth loops i d) (h' : Depth loops i d') : d = d' := by
  induction h generalizing d' with
  | root hi =>
    cases h' with
    | root _ => rfl
    | child hp _ => simp [hi] at hp
  | child hp _ ih =>
    cases h' with
    | root hi => simp [hp] at hi
    | child hp' h' =>
      rw [hp] at hp'
      obtain rfl := some.inj hp'
      rw [ih h']

theorem mem_loopChildren {i j} : j ∈ loopChildren loops i ↔ j < loops.length ∧ loopParent loops j = some i := by
  simp [loopChildren]

theorem mem_loopRoots : i ∈ loopRoots loops ↔ i < loops.length ∧ loopParent loops i = none := by
  simp [loopRoots]

def DepthsOk (loops : List NaturalLoop) (depths : AssocMap Nat Nat) : Prop :=
  ∀ i d, depths.get? i = some d → Depth loops i d

/-- Every loop of `l` and all loops below are recorded in `depths'`, and what `depths` had is kept. -/
structure Recorded (loops : List NaturalLoop) (l : List Nat) (depths depths' : AssocMap Nat Nat) : Prop where
  ok : DepthsOk loops depths'
  kept : ∀ i, (depths.get? i).isSome → (depths'.get? i).isSome
  below : ∀ i ∈ l, ∀ j, Below (loopChildren loops) i j → (depths'.get? j).isSome

theorem recorded_siblings (loops) {g : AssocMap Nat Nat → Nat → Option (AssocMap Nat Nat)} (l)
    (h : ∀ i ∈ l, ∀ depths, DepthsOk loops depths → ∃ depths', g depths i = some depths' ∧
      Recorded loops [i] depths depths') (depths) (hok : DepthsOk loops depths) :
    ∃ depths', l.foldlM g depths = some depths' ∧ Recorded loops l depths depths' := by
  induction l generalizing depths with
  | nil => exact ⟨depths, rfl, hok, fun _ h => h, by simp⟩
  | cons i l ih =>
    rw [forall_mem_cons] at h
    obtain ⟨depths₁, hg, hR⟩ := h.1 depths hok
    obtain ⟨depths₂, hfold, hR'⟩ := ih h.2 depths₁ hR.ok
    refine ⟨depths₂, by rw [foldlM_cons, hg]; exact hfold, hR'.ok, fun k hk => hR'.kept k (hR.kept k hk), ?_⟩
    intro k hk j hj
    rcases mem_cons.mp hk with rfl | hk
    · exact hR'.kept j (hR.below k (mem_singleton_self k) j hj)
    · exact hR'.below k hk j hj

namespace LoopsFound

variable (F : f.LoopsFound loops)
include F

theorem body_length_le (i) : (loopBodyAt loops i).length ≤ f.blocks.length := by
  rw [loopBodyAt]
  cases hi : loops[i]? with
  | none => exact Nat.zero_le _
  | some li =>
    have hli := mem_of_getElem? hi
    have hle := (subperm_of_subset (F.bodyNodup li hli) (F.bodyBlocks li hli)).length_le
    rwa [length_map] at hle

theorem child_lt {i c} (hc : c ∈ loopChildren loops i) : (loopBodyAt loops c).length < (loopBodyAt loops i).length := by
  obtain ⟨hlt, hparent⟩ := mem_loopChildren.mp hc
  have hcget : loops[c]? = some loops[c] := getElem?_eq_getElem hlt
  obtain ⟨li, hi, hin, -⟩ := (F.loopParent_spec hcget).2 i hparent
  rw [loopBodyAt, loopBodyAt, hcget, hi]
  exact ((NaturalLoop.inside_iff (F.bodyNodup _ (getElem_mem hlt))
    (F.bodyNodup li (mem_of_getElem? hi))).mp hin).1

theorem setDepth_spec (fuel) : ∀ i d depths, Depth loops i d → (loopBodyAt loops i).length < fuel →
    DepthsOk loops depths → ∃ depths', setDepth (loopChildren loops) fuel i d depths = some depths' ∧
      Recorded loops [i] depths depths' := by
  induction fuel with
  | zero => exact fun i d depths _ hlt => absurd hlt (Nat.not_lt_zero _)
  | succ fuel ih =>
    intro i d depths hd hlt hok
    have hok' : DepthsOk loops (depths.insert i d) := by
      intro k e hk
      rw [get?_insert] at hk
      split at hk
      · next hki => exact hki ▸ some.inj hk ▸ hd
      · exact hok k e hk
    obtain ⟨depths', hfold, hR⟩ := recorded_siblings loops (loopChildren loops i)
      (fun c hc depths hok => ih c (d + 1) depths (.child (mem_loopChildren.mp hc).2 hd)
        (Nat.lt_of_lt_of_le (F.child_lt hc) (Nat.le_of_lt_succ hlt)) hok) _ hok'
    have hself : ((depths.insert i d).get? i).isSome := by
      rw [get?_insert_self]
      rfl
    refine ⟨depths', by rw [setDepth]; exact hfold, hR.ok, fun k hk => hR.kept k ?_, fun k hk j hj => ?_⟩
    · rw [get?_insert]
      split
      · rfl
      · exact hk
    · obtain rfl := mem_singleton.mp hk
      rcases Relation.ReflTransGen.cases_head hj with rfl | ⟨c, hc, hcj⟩
      · exact hR.kept k hself
      · exact hR.below c hc j hcj

theorem exists_root (hi : i < loops.length) : ∃ r ∈ loopRoots loops, Below (loopChildren loops) r i := by
  have hkey : ∀ n i, i < loops.length → f.blocks.length ≤ (loopBodyAt loops i).length + n →
      ∃ r ∈ loopRoots loops, Below (loopChildren loops) r i := by
    intro n
    induction n with
    | zero =>
      intro i hi hle
      refine ⟨i, mem_loopRoots.mpr ⟨hi, ?_⟩, .refl⟩
      by_contra hne
      obtain ⟨p, hp⟩ := ne_none_iff_exists'.mp hne
      have hlt := F.child_lt (mem_loopChildren.mpr ⟨hi, hp⟩)
      have hbound : (loopBodyAt loops p).length ≤ f.blocks.length := F.body_length_le p
      omega
    | succ n ih =>
      intro i hi hle
      cases hp : loopParent loops i with
      | none => exact ⟨i, mem_loopRoots.mpr ⟨hi, hp⟩, .refl⟩
      | some p =>
        have hc := mem_loopChildren.mpr ⟨hi, hp⟩
        have hlt := F.child_lt hc
        obtain ⟨lp, hlp, -⟩ := (F.loopParent_spec (getElem?_eq_getElem hi)).2 p hp
        obtain ⟨r, hr, hrp⟩ := ih p (List.getElem?_eq_some_iff.mp hlp).1 (by omega)
        exact ⟨r, hr, hrp.tail hc⟩
  exact hkey f.blocks.length i hi (by omega)

theorem index_inj {i j : Nat} {lp} (hi : loops[i]? = some lp) (hj : loops[j]? = some lp) : i = j := by
  have hnd : loops.Nodup := List.Nodup.of_map _ F.headersNodup
  exact (getElem?_inj (List.getElem?_eq_some_iff.mp hi).1 hnd).mp (hi.trans hj.symm)

theorem depth_lt (hlam : Laminar loops) {i j d e : Nat} {li lj : NaturalLoop} (hi : loops[i]? = some li)
    (hj : loops[j]? = some lj) (hin : li.Inside lj) (hd : Depth loops i d) (he : Depth loops j e) : e < d := by
  induction hd generalizing li with
  | root hnone => exact absurd hin ((F.loopParent_spec hi).1 hnone lj (mem_of_getElem? hj))
  | @child i p d hp hd ih =>
    obtain ⟨lp, hlp, -⟩ := (F.loopParent_spec hi).2 p hp
    have hsub := F.parent_subset hlam hi hp hlp (mem_of_getElem? hj) hin
    by_cases hback : lj.body ⊆ lp.body
    · -- the parent is the other loop itself
      have heq := F.eq_of_subset (mem_of_getElem? hlp) (mem_of_getElem? hj) hsub hback
      have hpj : p = j := F.index_inj hlp (heq ▸ hj)
      subst hpj
      rw [hd.unique he]
      exact Nat.lt_succ_self _
    · exact Nat.lt_succ_of_lt (ih hlp ⟨hsub, hback⟩)

end LoopsFound

/-! ## The innermost loop of a block -/

theorem get?_insert_all (l : List BlockId) (i) (m : AssocMap BlockId Nat) (b) :
    get? (l.foldl (fun m b => m.insert b i) m) b = if b ∈ l then some i else m.get? b := by
  induction l generalizing m with
  | nil => rfl
  | cons c l ih =>
    rw [foldl_cons, ih, get?_insert]
    by_cases hb : b ∈ l
    · simp [hb]
    · by_cases hc : b = c
      · simp [hc]
      · simp [hb, hc]

theorem get?_mapBlocks (order : List Nat) (b : BlockId) :
    (mapBlocks loops order).get? b = order.reverse.find? (fun i => b ∈ loopBodyAt loops i) := by
  unfold mapBlocks
  induction order using List.reverseRecOn with
  | nil => rfl
  | append_singleton order i ih =>
    rw [foldl_append, foldl_cons, foldl_nil, get?_insert_all, ih, reverse_append,
      reverse_singleton, singleton_append, find?_cons]
    by_cases hb : b ∈ loopBodyAt loops i
    · simp [hb]
    · simp [hb]

theorem find?_reverse_max {key : Nat → Nat} {p : Nat → Bool} {l : List Nat}
    (hsorted : l.Pairwise fun a b => key a ≤ key b) (h : l.reverse.find? p = some i) :
    i ∈ l ∧ p i = true ∧ ∀ j ∈ l, p j = true → key j ≤ key i := by
  obtain ⟨hp, front, rest, heq, hfront⟩ := find?_eq_some_iff_append.mp h
  have hl : l = rest.reverse ++ i :: front.reverse := by
    rw [← reverse_reverse l, heq]
    simp
  rw [hl] at hsorted ⊢
  refine ⟨by simp, hp, fun j hj hpj => ?_⟩
  rcases mem_append.mp hj with hj | hj
  · exact (pairwise_append.mp hsorted).2.2 j hj i mem_cons_self
  · rcases mem_cons.mp hj with rfl | hj
    · exact Nat.le_refl _
    · have hno := hfront j (mem_reverse.mp hj)
      rw [hpj] at hno
      cases hno

/-- What the tree says: parents are the smallest strictly enclosing loops, and a block is mapped to the smallest
loop that holds it. -/
structure TreeOf (loops : List NaturalLoop) (tree : LoopTree) : Prop where
  parent : ∀ (i : Nat) (lp : NaturalLoop), loops[i]? = some lp → ∃ p, tree.parents[i]? = some p ∧
    (p = none → ∀ lq ∈ loops, ¬ lp.Inside lq) ∧
    ∀ j, p = some j → ∃ lq : NaturalLoop, loops[j]? = some lq ∧ lp.Inside lq ∧ ∀ lr ∈ loops, lp.Inside lr → lq.body ⊆ lr.body
  outside : ∀ b, tree.blockToLoop.get? b = none → ∀ lp ∈ loops, b ∉ lp.body
  innermost : ∀ b i, tree.blockToLoop.get? b = some i → ∃ lp : NaturalLoop, loops[i]? = some lp ∧ b ∈ lp.body ∧
    ∀ lq ∈ loops, b ∈ lq.body → lp.body ⊆ lq.body

namespace LoopsFound

variable (F : f.LoopsFound loops)
include F

theorem depths_spec : ∃ depths, (loopRoots loops).foldlM
      (fun depths i => setDepth (loopChildren loops) (f.blocks.length + 1) i 1 depths) [] = some depths ∧
      ∀ i, i < loops.length → Depth loops i (depths.getD i 0) := by
  obtain ⟨depths, hfold, hR⟩ := recorded_siblings loops
    (g := fun depths i => setDepth (loopChildren loops) (f.blocks.length + 1) i 1 depths) (loopRoots loops)
    (fun i hi depths hok => F.setDepth_spec _ i 1 depths (.root (mem_loopRoots.mp hi).2)
      (Nat.lt_succ_of_le (F.body_length_le i)) hok) [] (fun i d h => by simp at h)
  refine ⟨depths, hfold, fun i hi => ?_⟩
  obtain ⟨r, hr, hri⟩ := F.exists_root hi
  obtain ⟨d, hd⟩ := isSome_iff_exists.mp (hR.below r hr i hri)
  rw [AssocMap.getD, hd]
  exact hR.ok i d hd

theorem exists_loopTree : ∃ tree, f.loopTree loops = some tree := by
  obtain ⟨depths, hfold, -⟩ := F.depths_spec
  exact ⟨_, by rw [loopTree, hfold]⟩

theorem loopTree_spec (hlam : Laminar loops) {tree} (htree : f.loopTree loops = some tree) : TreeOf loops tree := by
  obtain ⟨depths, hfold, hdepth⟩ := F.depths_spec
  rw [loopTree, hfold] at htree
  obtain rfl := some.inj htree
  have hmemAt : ∀ i b, b ∈ loopBodyAt loops i ↔ ∃ lp, loops[i]? = some lp ∧ b ∈ lp.body := by
    intro i b
    rw [loopBodyAt]
    cases loops[i]? <;> simp
  have hperm := perm_insertionSort (fun i j => depths.getD i 0 ≤ depths.getD j 0) (List.range loops.length)
  have hsorted : ((List.range loops.length).insertionSort fun i j => depths.getD i 0 ≤ depths.getD j 0).Pairwise
      fun i j => depths.getD i 0 ≤ depths.getD j 0 := by
    exact pairwise_insertionSort _ _
  refine ⟨fun i lp hi => ?_, fun b hnone lp hlp hb => ?_, fun b i hsome => ?_⟩
  · have hlt := (List.getElem?_eq_some_iff.mp hi).1
    refine ⟨loopParent loops i, by simp [hlt], (F.loopParent_spec hi).1, fun j hj => ?_⟩
    obtain ⟨lq, hq, hin, -⟩ := (F.loopParent_spec hi).2 j hj
    exact ⟨lq, hq, hin, fun lr hlr hin' => F.parent_subset hlam hi hj hq hlr hin'⟩
  · obtain ⟨i, hi⟩ := mem_iff_getElem?.mp hlp
    have hnone := (get?_mapBlocks _ b).symm.trans hnone
    have hmem : i ∈ (List.range loops.length).insertionSort fun i j => depths.getD i 0 ≤ depths.getD j 0 :=
      hperm.mem_iff.mpr (mem_range.mpr (List.getElem?_eq_some_iff.mp hi).1)
    exact absurd ((hmemAt i b).mpr ⟨lp, hi, hb⟩)
      (by simpa using find?_eq_none.mp hnone i (mem_reverse.mpr hmem))
  · obtain ⟨hi, hb, hmax⟩ := find?_reverse_max hsorted ((get?_mapBlocks _ b).symm.trans hsome)
    obtain ⟨lp, hlp, hb⟩ := (hmemAt i b).mp (of_decide_eq_true hb)
    refine ⟨lp, hlp, hb, fun lq hlq hbq => ?_⟩
    obtain ⟨j, hj⟩ := mem_iff_getElem?.mp hlq
    have hjlt := (List.getElem?_eq_some_iff.mp hj).1
    have hle := hmax j (hperm.mem_iff.mpr (mem_range.mpr hjlt)) (decide_eq_true ((hmemAt j b).mpr ⟨lq, hj, hbq⟩))
    rcases hlam lp (mem_of_getElem? hlp) lq hlq with hapart | hsub | hsub
    · exact absurd hbq (hapart b hb)
    · exact hsub
    · -- a strictly smaller loop would be deeper and come later
      by_contra hnot
      have hlt := F.depth_lt hlam hj hlp ⟨hsub, hnot⟩ (hdepth j hjlt) (hdepth i (List.getElem?_eq_some_iff.mp hlp).1)
      omega

end LoopsFound

end Function

end Armfortas.Ir
