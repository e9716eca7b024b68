import Armfortas.Ir.Lemmas.Prune
import Armfortas.Opt.JumpThread

/-! All redirections of a round are planned on the old function. Unless an earlier one sends the true arm of a branch
to the target of its false arm, each edge ends up where it was planned to go, whatever the order. -/
namespace Armfortas.Opt.JumpThread
open Ir Lib List Option Function

variable {f : Function} {b : BasicBlock} {t : Terminator}

/-! ## Where an edge goes -/

def threadOf (f : Function) (dest : BlockId) (args : List ValueId) : Option (BlockId × List ValueId) :=
  (f.tryBlock dest).bind fun join => (joinShape f join).bind fun s => threadEdge (constKeys f) join s args

def threaded (f : Function) (dest : BlockId) (args : List ValueId) : BlockId × List ValueId :=
  (threadOf f dest args).getD (dest, args)

theorem threaded_cases (d : BlockId) (args : List ValueId) :
    threaded f d args = (d, args) ∨ threadOf f d args = some (threaded f d args) := by
  unfold threaded
  cases threadOf f d args with
  | none => exact .inl rfl
  | some new => exact .inr rfl

def threadTerm (f : Function) : Terminator → Terminator
  | .branch d args => .branch (threaded f d args).1 (threaded f d args).2
  | .condBranch c td ta fd fa =>
      if td = fd then .condBranch c td ta fd fa
      else .condBranch c (threaded f td ta).1 (threaded f td ta).2 (threaded f fd fa).1 (threaded f fd fa).2
  | t => t

def threadBlock (f : Function) (b : BasicBlock) : BasicBlock :=
  { b with terminator := b.terminator.map (threadTerm f) }

/-- Both arms of a branch are redirected, and the true one, whose join comes first, to the join of the false one. -/
def clashesAt (f : Function) : Terminator → Bool
  | .condBranch _ td ta fd fa =>
      td != fd && decide (f.blocks.findIdx (·.id == td) < f.blocks.findIdx (·.id == fd)) &&
        (threadOf f fd fa).isSome && (threadOf f td ta).any (·.1 == fd)
  | _ => false

def clashes (f : Function) : Bool := f.blocks.any fun b => b.terminator.any (clashesAt f)

/-! ## The plan for one predecessor -/

def planAt (f : Function) (pred join : BasicBlock) : Option ThreadAction :=
  (joinShape f join).bind fun s => planEdge (constKeys f) join s pred

theorem planAt_eq_some {pred join a} : planAt f pred join = some a ↔ ∃ s args new, joinShape f join = some s ∧
      pred.terminator.bind (edgeArgs join.id) = some args ∧ threadEdge (constKeys f) join s args = some new ∧
      a = ⟨pred.id, join.id, new.1, new.2⟩ := by
  simp only [planAt, bind_eq_some_iff, planEdge]
  constructor
  · rintro ⟨s, hs, ha⟩
    split at ha
    · next args hargs =>
      obtain ⟨new, hnew, rfl⟩ := map_eq_some_iff.mp ha
      exact ⟨s, args, new, hs, bind_eq_some_iff.mp hargs, hnew, rfl⟩
    · cases ha
  · rintro ⟨s, args, new, hs, hargs, hnew, rfl⟩
    refine ⟨s, hs, ?_⟩
    rw [bind_eq_some_iff.mpr hargs]
    simp [hnew]

theorem firstOfEach_eq_self {as : List ThreadAction}
    (h : as.Pairwise fun a b => ¬ (b.pred = a.pred ∧ b.join = a.join)) : firstOfEach as = as := by
  induction as with
  | nil => rfl
  | cons a as ih =>
    rw [pairwise_cons] at h
    rw [firstOfEach, ih h.2]
    congr 1
    rw [filter_eq_self]
    intro b hb
    simpa [or_iff_not_imp_left] using h.1 b hb

theorem planThreads_eq (hnd : f.BlocksNodup) :
    planThreads f = f.blocks.flatMap fun join => f.blocks.filterMap fun pred => planAt f pred join := by
  have hinner : planJoin f = fun join => f.blocks.filterMap fun pred => planAt f pred join := by
    funext join
    cases hs : joinShape f join with
    | none => simp [planJoin, planAt, hs]
    | some s => simp [planJoin, planAt, hs]
  have hids : f.blocks.Pairwise fun a b => a.id ≠ b.id := pairwise_map.mp hnd
  have hsome : ∀ {pred join a}, planAt f pred join = some a → a.pred = pred.id ∧ a.join = join.id := by
    intro pred join a ha
    obtain ⟨s, args, new, -, -, -, rfl⟩ := planAt_eq_some.mp ha
    exact ⟨rfl, rfl⟩
  rw [planThreads, hinner]
  apply firstOfEach_eq_self
  rw [pairwise_flatMap]
  constructor
  · intro join _
    rw [pairwise_filterMap]
    refine hids.imp fun {p q} hpq a ha b hb h => hpq ?_
    rw [← (hsome ha).1, ← (hsome hb).1, h.1]
  · refine hids.imp fun {j k} hjk a ha b hb h => hjk ?_
    obtain ⟨p, -, hp⟩ := mem_filterMap.mp ha
    obtain ⟨q, -, hq⟩ := mem_filterMap.mp hb
    rw [← (hsome hp).2, ← (hsome hq).2, h.2]

theorem filterMap_unique {bs : List BasicBlock} (hnd : (bs.map (·.id)).Nodup) {α : Type} (h : BasicBlock → Option α)
    {x} (hx : ∀ b ∈ bs, b.id ≠ x → h b = none) : bs.filterMap h = ((bs.find? (·.id == x)).bind h).toList := by
  induction bs with
  | nil => rfl
  | cons c bs ih =>
    rw [map_cons, nodup_cons] at hnd
    by_cases hc : c.id = x
    · have hrest : bs.filterMap h = [] := by
        rw [filterMap_eq_nil_iff]
        refine fun b hb => hx b (.tail _ hb) fun e => hnd.1 ?_
        rw [hc, ← e]
        exact List.mem_map_of_mem hb
      rw [find?_cons_of_pos (by simpa using hc), bind_some, filterMap_cons]
      cases hcv : h c <;> simp [hrest]
    · rw [find?_cons_of_neg (by simpa using hc), filterMap_cons_none (hx c mem_cons_self hc)]
      exact ih hnd.2 fun b hb => hx b (.tail _ hb)

theorem planThreads_filter (hnd : f.BlocksNodup) (hb : b ∈ f.blocks) :
    (planThreads f).filter (·.pred == b.id) = f.blocks.filterMap (planAt f b) := by
  have hfind : f.blocks.find? (·.id == b.id) = some b := tryBlock_id hnd hb
  have hone : ∀ join, (f.blocks.filterMap fun pred => planAt f pred join).filter (·.pred == b.id) =
      (planAt f b join).toList := by
    intro join
    rw [filter_filterMap, filterMap_unique hnd (x := b.id), hfind]
    · cases ha : planAt f b join with
      | none => simp [ha]
      | some a =>
        obtain ⟨s, args, new, -, -, -, rfl⟩ := planAt_eq_some.mp ha
        simp [ha]
    · intro p _ hp
      cases ha : planAt f p join with
      | none => rfl
      | some a =>
        obtain ⟨s, args, new, -, -, -, rfl⟩ := planAt_eq_some.mp ha
        simp [hp]
  rw [planThreads_eq hnd, filter_flatMap]
  simp only [hone]
  generalize f.blocks = bs
  induction bs with
  | nil => rfl
  | cons c bs ih =>
    rw [flatMap_cons, ih, filterMap_cons]
    cases planAt f b c <;> rfl

/-! ## Applying the plan -/

theorem foldl_applyThread (hnd : f.BlocksNodup) (as : List ThreadAction) :
    as.foldl applyThread f = { f with blocks := f.blocks.map fun b =>
      { b with terminator := b.terminator.map fun t => (as.filter (·.pred == b.id)).foldl (fun t a => redirect a t) t } } := by
  induction as generalizing f with
  | nil => simp
  | cons a as ih =>
    have hblocks : (applyThread f a).blocks = f.blocks.map fun b =>
        if b.id = a.pred then { b with terminator := b.terminator.map (redirect a) } else b :=
      modifyBlock_blocks hnd a.pred _
    have hids : ((applyThread f a).blocks.map (·.id)) = f.blocks.map (·.id) := by
      rw [hblocks, List.map_map]
      refine map_congr_left fun b _ => ?_
      dsimp only [comp_apply]
      split <;> rfl
    have hrest : applyThread f a = { f with blocks := (applyThread f a).blocks } := rfl
    rw [foldl_cons, ih (by rwa [BlocksNodup, hids]), hrest]
    simp only [hblocks, List.map_map]
    congr 1
    refine map_congr_left fun b _ => ?_
    by_cases hb : b.id = a.pred
    · simp [hb, Option.map_map, comp_def]
    · simp [hb, Ne.symm hb]

theorem filterMap_two {bs : List BasicBlock} (hnd : (bs.map (·.id)).Nodup) {α : Type} (h : BasicBlock → Option α)
    {x y} (hxy : x ≠ y) (hnone : ∀ b ∈ bs, b.id ≠ x → b.id ≠ y → h b = none) :
    (bs.filterMap h = ((bs.find? (·.id == x)).bind h).toList ++ ((bs.find? (·.id == y)).bind h).toList ∧
      (((bs.find? (·.id == x)).bind h).isSome = true → bs.findIdx (·.id == x) < bs.findIdx (·.id == y))) ∨
    bs.filterMap h = ((bs.find? (·.id == y)).bind h).toList ++ ((bs.find? (·.id == x)).bind h).toList := by
  induction bs with
  | nil => exact .inr rfl
  | cons c bs ih =>
    have hnd' := nodup_cons.mp hnd
    have hother : ∀ b ∈ bs, b.id ≠ c.id := fun b hb e => hnd'.1 (List.mem_map.mpr ⟨b, hb, e⟩)
    by_cases hcx : c.id = x
    · have hcy : c.id ≠ y := fun e => hxy (hcx.symm.trans e)
      left
      have hrest := filterMap_unique hnd'.2 h (x := y) fun b hb hby =>
        hnone b (.tail _ hb) (hcx ▸ hother b hb) hby
      rw [find?_cons_of_pos (by simpa using hcx), find?_cons_of_neg (by simpa using hcy), bind_some,
        filterMap_cons]
      refine ⟨?_, fun _ => ?_⟩
      · cases h c <;> simp [hrest]
      · rw [findIdx_cons, findIdx_cons, beq_iff_eq.mpr hcx, beq_false_of_ne hcy]
        exact Nat.succ_pos _
    · by_cases hcy : c.id = y
      · right
        have hrest := filterMap_unique hnd'.2 h (x := x) fun b hb hbx =>
          hnone b (.tail _ hb) hbx (hcy ▸ hother b hb)
        rw [find?_cons_of_pos (by simpa using hcy), find?_cons_of_neg (by simpa using hcx),
          bind_some, filterMap_cons]
        cases h c <;> simp [hrest]
      · rw [find?_cons_of_neg (by simpa using hcx), find?_cons_of_neg (by simpa using hcy),
          filterMap_cons_none (hnone c mem_cons_self hcx hcy)]
        rcases ih hnd'.2 fun b hb => hnone b (.tail _ hb) with ⟨he, hlt⟩ | he
        · refine .inl ⟨he, fun hs => ?_⟩
          have := hlt hs
          simpa [findIdx_cons, beq_false_of_ne hcx, beq_false_of_ne hcy] using this
        · exact .inr he

theorem planAt_lookup (ht : b.terminator = some t) (x : BlockId) : (f.tryBlock x).bind (planAt f b) =
      (edgeArgs x t).bind fun args => (threadOf f x args).map fun new => ⟨b.id, x, new.1, new.2⟩ := by
  unfold threadOf
  cases hx : f.tryBlock x with
  | none => cases edgeArgs x t <;> simp
  | some join =>
    obtain ⟨-, rfl⟩ := mem_blocks_of_tryBlock hx
    simp only [bind_some, planAt, planEdge, ht]
    cases joinShape f join with
    | none => cases edgeArgs join.id t <;> simp
    | some s => cases edgeArgs join.id t <;> simp

theorem edgeArgs_of_planAt {b join : BasicBlock} (ht : b.terminator = some t)
    (h : edgeArgs join.id t = none) : planAt f b join = none := by
  cases ha : planAt f b join with
  | none => rfl
  | some a =>
    obtain ⟨s, args, new, -, hargs, -, -⟩ := planAt_eq_some.mp ha
    rw [ht, bind_some, h] at hargs
    cases hargs

theorem foldl_redirect (hnd : f.BlocksNodup)
    (ht : b.terminator = some t) (hclash : clashesAt f t = false) :
    (f.blocks.filterMap (planAt f b)).foldl (fun t a => redirect a t) t = threadTerm f t := by
  cases t with
  | branch d args =>
    rw [filterMap_unique hnd (planAt f b) (x := d) fun j _ hj => edgeArgs_of_planAt ht (by simp [edgeArgs, Ne.symm hj])]
    have hlookup := planAt_lookup (f := f) ht d
    rw [tryBlock] at hlookup
    rw [hlookup]
    cases hnew : threadOf f d args with
    | none => simp [edgeArgs, hnew, threadTerm, threaded]
    | some new => simp [edgeArgs, hnew, threadTerm, threaded, redirect]
  | condBranch c td ta fd fa =>
    by_cases hsame : td = fd
    · have hnil : f.blocks.filterMap (planAt f b) = [] := by
        rw [filterMap_eq_nil_iff]
        refine fun j _ => edgeArgs_of_planAt ht ?_
        by_cases hj : fd = j.id <;> simp [edgeArgs, hsame, hj]
      simp [hnil, threadTerm, hsame]
    · have htrue := planAt_lookup (f := f) ht td
      have hfalse := planAt_lookup (f := f) ht fd
      have hta : edgeArgs td (.condBranch c td ta fd fa) = some ta := by simp [edgeArgs, Ne.symm hsame]
      have hfa : edgeArgs fd (.condBranch c td ta fd fa) = some fa := by simp [edgeArgs, hsame]
      rw [tryBlock, hta, bind_some] at htrue
      rw [tryBlock, hfa, bind_some] at hfalse
      simp only [clashesAt, bne_iff_ne, ne_eq, Bool.and_eq_false_imp, Bool.and_eq_true, decide_eq_true_eq, and_imp] at hclash
      rcases filterMap_two hnd (planAt f b) hsame fun j _ hjt hjf =>
        edgeArgs_of_planAt ht (by simp [edgeArgs, Ne.symm hjt, Ne.symm hjf]) with ⟨he, hlt⟩ | he
      · rw [he, htrue, hfalse]
        rw [htrue] at hlt
        cases hnt : threadOf f td ta with
        | none => cases hnf : threadOf f fd fa <;> simp [threadTerm, threaded, hnt, hnf, hsame, redirect]
        | some nt =>
          cases hnf : threadOf f fd fa with
          | none => simp [threadTerm, threaded, hnt, hnf, hsame, redirect]
          | some nf =>
            have hne : nt.1 ≠ fd := by
              have := hclash hsame (hlt (by simp [hnt])) (by simp [hnf])
              simpa [hnt] using this
            simp [threadTerm, threaded, hnt, hnf, hsame, redirect, hne]
      · rw [he, htrue, hfalse]
        cases hnt : threadOf f td ta <;> cases hnf : threadOf f fd fa <;>
          simp [threadTerm, threaded, hnt, hnf, hsame, redirect]
  | _ =>
    have hnil : f.blocks.filterMap (planAt f b) = [] := by
      rw [filterMap_eq_nil_iff]
      exact fun j _ => edgeArgs_of_planAt ht rfl
    simp [hnil, threadTerm]

theorem threadRound_eq (hnd : f.BlocksNodup) (hclash : clashes f = false) :
    threadRound f = { f with blocks := f.blocks.map (threadBlock f) } := by
  rw [threadRound, foldl_applyThread hnd]
  congr 1
  refine map_congr_left fun b hb => ?_
  rw [planThreads_filter hnd hb, threadBlock]
  cases ht : b.terminator with
  | none => rfl
  | some t =>
    simp only [clashes, List.any_eq_false] at hclash
    have hc := hclash b hb
    rw [ht] at hc
    simp only [map_some, foldl_redirect hnd ht (by simpa using hc)]

/-! ## What is known of a redirected edge -/

variable {f : Function}

theorem joinShape_eq_some {join s} (h : joinShape f join = some s) :
    join.insts = [] ∧ joinParamsUsedOutsideBlock f join = false ∧
    join.terminator = some (.condBranch s.cond s.trueArm.1 s.trueArm.2 s.falseArm.1 s.falseArm.2) ∧
    ∃ p, join.params[s.condIdx]? = some p ∧ p.id = s.cond := by
  unfold joinShape at h
  split at h
  · cases h
  · next hok =>
    simp only [Bool.or_eq_true, Bool.not_eq_true', not_or, Bool.not_eq_true, Bool.not_eq_false] at hok
    unfold branchShape at h
    split at h
    · next cond td ta fd fa ht =>
      split at h
      · next k hk =>
        simp only [some.injEq] at h
        subst h
        obtain ⟨hlt, hk, -⟩ := findIdx?_eq_some_iff_getElem.mp hk
        refine ⟨List.isEmpty_iff.mp hok.1.1, hok.2, ht, join.params[k], getElem?_eq_getElem hlt, ?_⟩
        exact eq_of_beq hk
      · cases h
    · cases h

theorem param_ne_of_use {join s} (h : joinShape f join = some s)
    (hb : b ∈ f.blocks) (hne : join.id ≠ b.id) {v} (hv : v ∈ BasicBlock.uses b) {p}
    (hp : p ∈ join.params) : p.id ≠ v := by
  intro e
  have hout := (joinShape_eq_some h).2.1
  rw [joinParamsUsedOutsideBlock, List.any_eq_false] at hout
  refine hout b hb ?_
  simp only [Bool.and_eq_true, bne_iff_ne, ne_eq, List.any_eq_true, beq_iff_eq]
  exact ⟨Ne.symm hne, v, hv, p, hp, e⟩

theorem constKeys_get? {v c} (h : (constKeys f).get? v = some c) :
    ∃ i ∈ f.allInsts, i.id = v ∧ ConstKey.fromInst i.kind = some c := by
  have hmem := AssocMap.mem_of_get? h
  rw [constKeys, mem_reverse, mem_filterMap] at hmem
  obtain ⟨i, hi, hc⟩ := hmem
  obtain ⟨c', hc', heq⟩ := map_eq_some_iff.mp hc
  obtain ⟨rfl, rfl⟩ := heq
  exact ⟨i, hi, rfl, hc'⟩

theorem fromInst_eq_bool {k b} (h : ConstKey.fromInst k = some (.bool b)) : k = .constBool b := by
  cases k <;> simp [ConstKey.fromInst] at h
  rw [h]

/-- A redirected edge passes a constant for the join's condition and goes to the arm it selects. -/
structure Bypass (f : Function) (join : BasicBlock) (s : JoinShape) (args : List ValueId)
    (new : BlockId × List ValueId) (b : Bool) : Prop where
  mem : join ∈ f.blocks
  shape : joinShape f join = some s
  const : ∃ i ∈ f.allInsts, args[s.condIdx]? = some i.id ∧ i.kind = .constBool b
  dest : new.1 = (s.arm b).1
  forwards : (s.arm b).2.mapM (forwardArg join args) = some new.2

theorem threadOf_eq_some {dest args new} (h : threadOf f dest args = some new) :
    ∃ join s b, f.tryBlock dest = some join ∧ Bypass f join s args new b := by
  simp only [threadOf, bind_eq_some_iff] at h
  obtain ⟨join, hjoin, s, hs, h⟩ := h
  obtain ⟨hmem, -⟩ := mem_blocks_of_tryBlock hjoin
  unfold threadEdge at h
  split at h
  · next b hb =>
    obtain ⟨v, hv, hc⟩ := bind_eq_some_iff.mp hb
    obtain ⟨i, hi, rfl, hk⟩ := constKeys_get? hc
    dsimp only at h
    split at h
    · cases h
    · obtain ⟨newArgs, hargs, rfl⟩ := map_eq_some_iff.mp h
      exact ⟨join, s, b, hjoin, hmem, hs, ⟨i, hi, hv, fromInst_eq_bool hk⟩, rfl, hargs⟩
  · cases h

end Armfortas.Opt.JumpThread
