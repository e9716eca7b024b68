import Armfortas.Opt.Lemmas.JumpThread

/-! In each round some terminators are redirected. Where no terminator that can arise is redirected back to itself, the
rounds come to an end. -/
namespace Armfortas.Opt.JumpThread
open Ir Lib List Option

/-! ## Terminators that can arise -/

def redirectAll (as : List ThreadAction) (t : Option Terminator) : Option Terminator :=
  t.map fun t => as.foldl (fun t a => redirect a t) t

section

variable (f : Function) (S : BlockId → List (Option Terminator))

/-- Every other block can come to have a terminator in `S` with which it does not use the join's parameters. -/
def freed (join : BasicBlock) : Bool :=
  f.blocks.all fun b => b.id == join.id || (S b.id).any fun t =>
    !(BasicBlock.uses { b with terminator := t }).any fun u => join.params.any (·.id == u)

/-- The branches in `S` of a block that can become a join. -/
def shapes (join : BasicBlock) : List JoinShape :=
  if join.insts.isEmpty && freed f S join then (S join.id).filterMap fun t => branchShape { join with terminator := t }
  else []

/-- The redirections of an edge of `b` from the join, one for each constant and branch that meet there. -/
def redirections (b join : BasicBlock) : List ThreadAction :=
  (shapes f S join).filterMap fun s => planEdge (constKeys f) join s b

/-- What can be applied together: at most one redirection from each join, in the order of the joins. -/
def selections (b : BasicBlock) : List BasicBlock → List (List ThreadAction)
  | [] => [[]]
  | join :: joins =>
      selections b joins ++ (redirections f S b join).flatMap fun a => (selections b joins).map (a :: ·)

/-- The terminators that a round can give to `b` in the place of `t`. -/
def turns (b : BasicBlock) (t : Option Terminator) : List (Option Terminator) :=
  ((selections f S { b with terminator := t } f.blocks).filter (!·.isEmpty)).map (redirectAll · t)

/-- `S` has every terminator that can arise. -/
structure Arising : Prop where
  own : ∀ b ∈ f.blocks, b.terminator ∈ S b.id
  turned : ∀ b ∈ f.blocks, ∀ t ∈ S b.id, ∀ t' ∈ turns f S b t, t' ∈ S b.id

end

/-- No terminator that can arise is redirected back to itself, in one round or in several. -/
def NoReturn (f : Function) : Prop :=
  ∃ S, Arising f S ∧ ∀ b ∈ f.blocks, ∀ t ∈ S b.id, ¬ Relation.TransGen (fun t t' => t' ∈ turns f S b t) t t

/-! ## What a round does -/

def withTerminators (f : Function) (T : BasicBlock → Option Terminator) : Function :=
  { f with blocks := f.blocks.map fun b => { b with terminator := T b } }

/-- What is planned for a block. -/
def planFor (f : Function) (T : BasicBlock → Option Terminator) (b : BasicBlock) : List ThreadAction :=
  (planThreads (withTerminators f T)).filter (·.pred == b.id)

def roundOf (f : Function) (T : BasicBlock → Option Terminator) (b : BasicBlock) : Option Terminator :=
  redirectAll (planFor f T b) (T b)

variable {f : Function} {S : BlockId → List (Option Terminator)} {T : BasicBlock → Option Terminator}

theorem constKeys_withTerminators : constKeys (withTerminators f T) = constKeys f := by
  rw [constKeys, constKeys, Function.allInsts, Function.allInsts, withTerminators, flatMap_map]

theorem mem_withTerminators {b} (hb : b ∈ f.blocks) :
    { b with terminator := T b } ∈ (withTerminators f T).blocks :=
  List.mem_map_of_mem (f := fun b : BasicBlock => { b with terminator := T b }) hb

theorem shape_mem (hT : ∀ b ∈ f.blocks, T b ∈ S b.id) {join} (hjoin : join ∈ f.blocks) {s}
    (hs : joinShape (withTerminators f T) { join with terminator := T join } = some s) : s ∈ shapes f S join := by
  have hinsts : join.insts = [] := (joinShape_eq_some hs).1
  have hfreed : freed f S join = true := by
    rw [freed, List.all_eq_true]
    intro b hb
    by_cases hid : b.id = join.id
    · simp [hid]
    · rw [Bool.or_eq_true, List.any_eq_true]
      refine .inr ⟨T b, hT b hb, ?_⟩
      simp only [Bool.not_eq_true', List.any_eq_false, beq_iff_eq, Bool.not_eq_true]
      exact fun v hv p hp => param_ne_of_use hs (mem_withTerminators hb) (Ne.symm hid) hv hp
  have hshape : branchShape { join with terminator := T join } = some s := by
    unfold joinShape at hs
    split at hs
    · cases hs
    · exact hs
  rw [shapes, if_pos (by simp [hfreed, hinsts])]
  exact mem_filterMap.mpr ⟨T join, hT join hjoin, hshape⟩

theorem filterMap_mem_selections {b : BasicBlock} {plan : BasicBlock → Option ThreadAction} {joins}
    (h : ∀ join ∈ joins, ∀ a, plan join = some a → a ∈ redirections f S b join) :
    joins.filterMap plan ∈ selections f S b joins := by
  induction joins with
  | nil => exact mem_singleton.mpr rfl
  | cons join joins ih =>
    rw [forall_mem_cons] at h
    rw [selections, mem_append]
    cases hplan : plan join with
    | none =>
      rw [filterMap_cons_none hplan]
      exact .inl (ih h.2)
    | some a =>
      rw [filterMap_cons_some hplan]
      exact .inr (mem_flatMap.mpr ⟨a, h.1 a hplan, List.mem_map_of_mem (ih h.2)⟩)

theorem roundOf_eq {b} (hplan : planFor f T b = []) : roundOf f T b = T b := by
  rw [roundOf, hplan, redirectAll]
  exact Option.map_id'

section

variable (hnd : f.BlocksNodup)
include hnd

theorem nodup_withTerminators : (withTerminators f T).BlocksNodup := by
  rw [Function.BlocksNodup, withTerminators, List.map_map]
  exact hnd

theorem threadRound_withTerminators :
    threadRound (withTerminators f T) = withTerminators f (roundOf f T) := by
  rw [threadRound, foldl_applyThread (nodup_withTerminators hnd), withTerminators, withTerminators]
  simp only [List.map_map]
  rfl

theorem planFor_mem (hT : ∀ b ∈ f.blocks, T b ∈ S b.id) {b} (hb : b ∈ f.blocks) :
    planFor f T b ∈ selections f S { b with terminator := T b } f.blocks := by
  have hplan := planThreads_filter (nodup_withTerminators hnd) (mem_withTerminators (T := T) hb)
  have hblocks : (withTerminators f T).blocks = f.blocks.map fun b => { b with terminator := T b } := rfl
  rw [planFor, hplan, hblocks, filterMap_map]
  refine filterMap_mem_selections fun join hjoin a ha => ?_
  obtain ⟨s, hs, ha⟩ := bind_eq_some_iff.mp ha
  rw [constKeys_withTerminators] at ha
  exact mem_filterMap.mpr ⟨s, shape_mem hT hjoin hs, ha⟩

theorem roundOf_mem_turns (hT : ∀ b ∈ f.blocks, T b ∈ S b.id) {b} (hb : b ∈ f.blocks) (hplan : planFor f T b ≠ []) :
    roundOf f T b ∈ turns f S b (T b) :=
  List.mem_map_of_mem (mem_filter.mpr ⟨planFor_mem hnd hT hb, by simpa using hplan⟩)

theorem Arising.round (hS : Arising f S) (hT : ∀ b ∈ f.blocks, T b ∈ S b.id) :
    ∀ b ∈ f.blocks, roundOf f T b ∈ S b.id := by
  intro b hb
  by_cases hplan : planFor f T b = []
  · rw [roundOf_eq hplan]
    exact hT b hb
  · exact hS.turned b hb _ (hT b hb) _ (roundOf_mem_turns hnd hT hb hplan)

theorem exists_planFor (hplan : planThreads (withTerminators f T) ≠ []) :
    ∃ b ∈ f.blocks, planFor f T b ≠ [] := by
  obtain ⟨a, ha⟩ := exists_mem_of_ne_nil _ hplan
  have hplanned := ha
  rw [planThreads_eq (nodup_withTerminators hnd), mem_flatMap] at hplanned
  obtain ⟨join, -, hplanned⟩ := hplanned
  obtain ⟨pred, hpred, hplanned⟩ := mem_filterMap.mp hplanned
  obtain ⟨b, hb, rfl⟩ := List.mem_map.mp hpred
  obtain ⟨s, args, new, -, -, -, rfl⟩ := planAt_eq_some.mp hplanned
  exact ⟨b, hb, ne_nil_of_mem (mem_filter.mpr ⟨ha, by simp⟩)⟩

end

/-! ## Rounds -/

theorem filter_length_lt {α : Type} {p q : α → Bool} {l : List α} {x} (hpq : ∀ y, p y = true → q y = true)
    (hx : x ∈ l) (hqx : q x = true) (hpx : p x = false) : (l.filter p).length < (l.filter q).length := by
  have hsub : (l.filter p).Sublist (l.filter q) := monotone_filter_right l hpq
  refine Nat.lt_of_le_of_ne hsub.length_le fun he => ?_
  have hmem : x ∈ l.filter p := hsub.eq_of_length he ▸ mem_filter.mpr ⟨hx, hqx⟩
  rw [mem_filter, hpx] at hmem
  exact absurd hmem.2 (by simp)

section

open Classical

/-- How many terminators a block can still come to have. -/
noncomputable def ahead (f : Function) (S : BlockId → List (Option Terminator)) (b : BasicBlock)
    (t : Option Terminator) : Nat :=
  ((S b.id).filter fun t' => Relation.TransGen (fun t t' => t' ∈ turns f S b t) t t').length

theorem ahead_lt {b t t'} (hno : ¬ Relation.TransGen (fun t t' => t' ∈ turns f S b t) t' t') (ht' : t' ∈ S b.id)
    (hturn : t' ∈ turns f S b t) : ahead f S b t' < ahead f S b t := by
  refine filter_length_lt (fun x hx => ?_) ht' ?_ (decide_eq_false hno)
  · exact decide_eq_true (.head hturn (of_decide_eq_true hx))
  · exact decide_eq_true (.single hturn)

end

theorem rounds_end (hnd : f.BlocksNodup) (hS : Arising f S)
    (hno : ∀ b ∈ f.blocks, ∀ t ∈ S b.id, ¬ Relation.TransGen (fun t t' => t' ∈ turns f S b t) t t)
    (hT : ∀ b ∈ f.blocks, T b ∈ S b.id) : ∃ n, planThreads (threadRound^[n] (withTerminators f T)) = [] := by
  induction hw : (f.blocks.map fun b => ahead f S b (T b)).sum using Nat.strong_induction_on generalizing T with
  | _ w ih =>
    by_cases hplan : planThreads (withTerminators f T) = []
    · exact ⟨0, hplan⟩
    · have hround := hS.round hnd hT
      have hturn : ∀ b ∈ f.blocks, planFor f T b ≠ [] → ahead f S b (roundOf f T b) < ahead f S b (T b) :=
        fun b hb hb' => ahead_lt (hno b hb _ (hround b hb)) (hround b hb) (roundOf_mem_turns hnd hT hb hb')
      obtain ⟨b, hb, hb'⟩ := exists_planFor hnd hplan
      have hlt : (f.blocks.map fun b => ahead f S b (roundOf f T b)).sum < w := by
        rw [← hw]
        refine sum_lt_sum _ _ (fun b hb => ?_) ⟨b, hb, hturn b hb hb'⟩
        by_cases hnone : planFor f T b = []
        · rw [roundOf_eq hnone]
        · exact (hturn b hb hnone).le
      obtain ⟨n, hn⟩ := ih _ hlt hround rfl
      rw [← threadRound_withTerminators hnd] at hn
      exact ⟨n + 1, hn⟩

theorem NoReturn.rounds_end (h : NoReturn f) (hnd : f.BlocksNodup) :
    ∃ n, planThreads (threadRound^[n] f) = [] := by
  obtain ⟨S, hS, hno⟩ := h
  have hself : withTerminators f (·.terminator) = f := by
    rw [withTerminators, List.map_id'']
    exact fun b => rfl
  exact hself ▸ JumpThread.rounds_end hnd hS hno hS.own

end Armfortas.Opt.JumpThread
