import Armfortas.Runtime.Openmp.Contention

/-! Whatever the interleaving, the count is one and what the regions that are running have reserved. -/
namespace Armfortas.Runtime.Openmp

mutual

def Task.reserved : Task → Nat
  | .region reserved members => reserved + reservedAll members
  | .running | .reserving _ _ | .ended _ => 0

def reservedAll : List Task → Nat
  | [] => 0
  | task :: tasks => task.reserved + reservedAll tasks

end

theorem reservedAll_append (tasks tasks' : List Task) :
    reservedAll (tasks ++ tasks') = reservedAll tasks + reservedAll tasks' := by
  induction tasks with
  | nil => simp [reservedAll]
  | cons task tasks ih => simp [reservedAll, ih, Nat.add_assoc]

theorem reservedAll_eq_zero {tasks : List Task} (h : ∀ task ∈ tasks, task.reserved = 0) : reservedAll tasks = 0 := by
  induction tasks with
  | nil => rfl
  | cons task tasks ih =>
    obtain ⟨htask, htasks⟩ := List.forall_mem_cons.mp h
    simp [reservedAll, htask, ih htasks]

theorem reservedAll_replicate (n : Nat) : reservedAll (.replicate n .running) = 0 :=
  reservedAll_eq_zero fun task h => by rw [List.eq_of_mem_replicate h, Task.reserved]

namespace Task

/-- One and the reserved threads are counted, of which `others` are not the task's, and no more than the limit. -/
structure Counted (bound others : Nat) (group : ContentionGroup) (task : Task) : Prop where
  limit : group.limit = bound
  count : group.activeThreads = 1 + others + task.reserved
  le : group.activeThreads ≤ bound

theorem Counted.step {config : RuntimeConfig} {bound others : Nat} (hbound : bound < 2 ^ 64) {group group' : ContentionGroup}
    {task task' : Task} (hstep : Step config group task group' task') (h : Counted bound others group task) :
    Counted bound others group' task' := by
  obtain ⟨hl, hcount, hle⟩ := h
  induction hstep generalizing others with
  | load | observed | ended => exact ⟨hl, by simpa [reserved] using hcount, hle⟩
  | refused => exact ⟨hl, by simpa [reserved, reservedAll_replicate] using hcount, hle⟩
  | @exchanged requested =>
    have hgranted : group.granted requested group.activeThreads ≤ bound - group.activeThreads := hl ▸ Nat.min_le_right _ _
    rw [reserved] at hcount
    refine ⟨hl, ?_, ?_⟩
    · simp only [reserved, reservedAll_replicate]
      omega
    · dsimp only
      omega
  | @member _ k before after _ _ _ ih =>
    -- for the member, the others are also the region's own threads and its other members
    simp only [reserved, reservedAll_append, reservedAll] at hcount
    have hmember := @ih (others + k + reservedAll before + reservedAll after) (by omega)
    refine ⟨hmember.limit, ?_, hmember.le⟩
    have := hmember.count
    simp only [reserved, reservedAll_append, reservedAll]
    omega
  | @left k members hended =>
    have hmembers : reservedAll members = 0 := reservedAll_eq_zero fun task ht => by
      obtain ⟨panicked, rfl⟩ := hended task ht
      rw [reserved]
    rw [reserved, hmembers] at hcount
    rw [ContentionGroup.release]
    split
    · exact ⟨hl, by simp only [reserved]; omega, by dsimp only; omega⟩
    · exact ⟨hl, by simp only [reserved]; omega, hle⟩

/-- The count of a group is one and the threads reserved by the regions that are running, no more than the limit, and
one again when the outermost region has ended. -/
theorem reached_activeThreads (config : RuntimeConfig) (group : ContentionGroup) (task : Task)
    (h : Reached config group task) :
    group.activeThreads = 1 + task.reserved ∧ (group.activeThreads : Int) ≤ max 1 config.threadLimit.toInt ∧
      (task = .running → group.activeThreads = 1) := by
  have hbound := config.threadLimit.toInt_lt
  have hcounted : Counted (max config.threadLimit.toInt 1).toNat 0 group task := by
    induction h with
    | outermost => exact ⟨rfl, by simp [ContentionGroup.new, reserved], by simp only [ContentionGroup.new]; omega⟩
    | step _ _ hstep ih => exact ih.step (by omega) hstep
  have hcount := hcounted.count
  have hle := hcounted.le
  refine ⟨by omega, by omega, ?_⟩
  rintro rfl
  rw [hcount, reserved]

/-- A member of a team of two starts a team of its own, in which one thread panics. -/
theorem reached_activeThreads_panic :
    ∃ group, Reached ⟨3, false, 2, 4⟩ ⟨3, 3⟩ (.region 1 [.region 1 [.running, .running], .running]) ∧
      Reached ⟨3, false, 2, 4⟩ group .running ∧ group.activeThreads = 1 := by
  have h₀ : Reached ⟨3, false, 2, 4⟩ ⟨3, 1⟩ (.reserving 1 1) := .outermost 1 2 1
  have h₁ : Reached ⟨3, false, 2, 4⟩ ⟨3, 2⟩ (.region 1 [.running, .running]) :=
    h₀.step (by simp) (@Step.exchanged _ ⟨3, 1⟩ 1 2 (by decide) (by decide))
  have h₂ : Reached ⟨3, false, 2, 4⟩ ⟨3, 2⟩ (.region 1 [.reserving 1 2, .running]) :=
    h₁.step (by simp) (@Step.member _ _ _ _ [] _ _ _ (.load 1 2 1 1))
  have h₃ : Reached ⟨3, false, 2, 4⟩ ⟨3, 3⟩ (.region 1 [.region 1 [.running, .running], .running]) :=
    h₂.step (by simp) (@Step.member _ _ _ _ [] _ _ _ (@Step.exchanged _ ⟨3, 2⟩ 1 2 (by decide) (by decide)))
  have h₄ := h₃.step (by simp) (@Step.member _ _ _ _ [] _ _ _ (@Step.member _ _ _ _ [] _ _ _ (.ended true)))
  have h₅ := h₄.step (by simp) (@Step.member _ _ _ _ [] _ _ _ (@Step.member _ _ _ _ [.ended true] _ _ _ (.ended false)))
  have h₆ := h₅.step (by simp) (@Step.member _ _ _ _ [] _ _ _ (.left (by simp)))
  have h₇ := h₆.step (by simp) (@Step.member _ _ _ _ [] _ _ _ (.ended false))
  have h₈ := h₇.step (by simp) (@Step.member _ _ _ _ [.ended false] _ _ _ (.ended false))
  have h₉ := h₈.step (by simp) (.left (by simp))
  exact ⟨_, h₃, h₉, (reached_activeThreads _ _ .running h₉).2.2 rfl⟩

end Task

end Armfortas.Runtime.Openmp
