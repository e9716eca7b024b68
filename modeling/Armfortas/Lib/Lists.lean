import Mathlib.Algebra.Order.Ring.Nat
import Mathlib.Data.List.Forall2

/-! Traversals in `Option`, searches, and removing elements by their index. -/
namespace Armfortas.Lib
open List

variable {α β : Type} {P : Nat → Bool} {f g : α → Option β}

theorem mapM_eq_some_iff {l : List α} {r} : l.mapM f = some r ↔ List.Forall₂ (fun a b => f a = some b) l r := by
  induction l generalizing r with
  | nil => cases r <;> simp
  | cons a l ih =>
    rw [mapM_cons]
    cases hfa : f a with
    | none => cases r <;> simp [hfa]
    | some b =>
      cases hl : l.mapM f with
      | none =>
        cases r with
        | nil => simp
        | cons c r => simp [hfa, ← ih, hl]
      | some bs =>
        cases r with
        | nil => simp
        | cons c r => simp [hfa, ← ih, hl]

theorem mapM_congr {l : List α} (h : ∀ a ∈ l, f a = g a) : l.mapM f = l.mapM g := by
  induction l with
  | nil => rfl
  | cons a l ih =>
    rw [mapM_cons, mapM_cons, h a mem_cons_self, ih fun x hx => h x (.tail _ hx)]

theorem mapM_isSome_iff {l : List α} : (l.mapM f).isSome = true ↔ ∀ a ∈ l, (f a).isSome = true := by
  induction l with
  | nil => simp
  | cons a l ih =>
    rw [mapM_cons]
    cases hfa : f a <;> cases hl : l.mapM f <;> simp_all

theorem exists_of_mem_mapM {l : List α} {r} (h : l.mapM f = some r) {y} (hy : y ∈ r) : ∃ x ∈ l, f x = some y := by
  rw [mapM_eq_some_iff] at h
  induction h with
  | nil => cases hy
  | cons hxy _ ih =>
    rcases mem_cons.mp hy with rfl | hy
    · exact ⟨_, mem_cons_self, hxy⟩
    · obtain ⟨x, hx, hfx⟩ := ih hy
      exact ⟨x, .tail _ hx, hfx⟩

theorem length_of_mapM {l : List α} {r} (h : l.mapM f = some r) : r.length = l.length :=
  (mapM_eq_some_iff.mp h).length_eq.symm

theorem getElem?_of_mapM {l : List α} {r : List β} (h : l.mapM f = some r) (i : Nat) : r[i]? = l[i]?.bind f := by
  induction l generalizing r i with
  | nil => simp_all
  | cons a l ih =>
    obtain ⟨b, bs, hb, hbs, rfl⟩ := forall₂_cons_left_iff.mp (mapM_eq_some_iff.mp h)
    cases i with
    | zero => simp [hb]
    | succ i => simpa using ih (mapM_eq_some_iff.mpr hbs) i

theorem find?_eq_findIdx?_bind (p : α → Bool) (l : List α) : l.find? p = (l.findIdx? p).bind fun i => l[i]? := by
  induction l with
  | nil => rfl
  | cons a l ih =>
    rw [find?_cons, findIdx?_cons]
    cases hp : p a with
    | true => simp
    | false => simp [ih, Option.bind_map]

/-! ## Removing by index -/

def dropIdx {α : Type} (P : Nat → Bool) : List α → List α
  | [] => []
  | a :: l => if P 0 then dropIdx (fun i => P (i + 1)) l else a :: dropIdx (fun i => P (i + 1)) l

theorem dropIdx_eq_self {l : List α} (h : ∀ i < l.length, P i = false) : dropIdx P l = l := by
  induction l generalizing P with
  | nil => rfl
  | cons a l ih => simp [dropIdx, h 0, ih fun i hi => h (i + 1) (by simpa using hi)]

theorem dropIdx_false (l : List α) : dropIdx (fun _ => false) l = l := dropIdx_eq_self fun _ _ => rfl

theorem dropIdx_congr {Q : Nat → Bool} (h : ∀ i, P i = Q i) (l : List α) : dropIdx P l = dropIdx Q l := by
  rw [funext h]

theorem dropIdx_eraseIdx {d} (hP : ∀ i, P i = true → i < d) (l : List α) :
    dropIdx P (l.eraseIdx d) = dropIdx (fun i => P i || i == d) l := by
  induction l generalizing P d with
  | nil => simp [dropIdx]
  | cons a l ih =>
    cases d with
    | zero =>
      have hfalse : P = fun _ => false := by
        funext i
        cases hi : P i with
        | false => rfl
        | true => exact absurd (hP i hi) (Nat.not_lt_zero _)
      subst hfalse
      have hrest : dropIdx (fun i => false || (i + 1 == 0)) l = l := by
        rw [dropIdx_congr (Q := fun _ => false) (by simp) l, dropIdx_false]
      simp only [eraseIdx_zero, tail_cons, dropIdx, beq_self_eq_true, Bool.or_true, if_true, hrest]
      exact dropIdx_false l
    | succ d =>
      have ih' := ih (P := fun i => P (i + 1)) (d := d) fun i hi => Nat.lt_of_succ_lt_succ (hP (i + 1) hi)
      simp only [eraseIdx_cons_succ, dropIdx, ih']
      simp

theorem foldl_eraseIdx_eq_dropIdx (ds : List Nat) (hds : ds.Pairwise (· > ·)) (l : List α) :
    ds.foldl List.eraseIdx l = dropIdx (fun i => decide (i ∈ ds)) l := by
  induction ds generalizing l with
  | nil => simp [dropIdx_false]
  | cons d ds ih =>
    obtain ⟨hd, hds⟩ := pairwise_cons.mp hds
    rw [foldl_cons, ih hds, dropIdx_eraseIdx fun i hi => hd i (of_decide_eq_true hi)]
    exact dropIdx_congr (fun i => by rw [Bool.eq_iff_iff]; simp [or_comm]) l

theorem mem_dropIdx {l : List α} {a} : a ∈ dropIdx P l ↔ ∃ i, P i = false ∧ l[i]? = some a := by
  induction l generalizing P with
  | nil => simp [dropIdx]
  | cons b l ih =>
    rw [← Nat.or_exists_add_one]
    cases h : P 0 <;> simp [dropIdx, h, ih, @eq_comm _ b]

theorem map_dropIdx (g : α → β) (l : List α) : dropIdx P (l.map g) = (dropIdx P l).map g := by
  induction l generalizing P with
  | nil => rfl
  | cons a l ih => cases h : P 0 <;> simp [dropIdx, h, ih]

theorem mapM_dropIdx {g : α → Option β} {l : List α} {r} (h : l.mapM f = some r)
    (hg : ∀ (i : Nat) a b, P i = false → l[i]? = some a → f a = some b → g a = some b) :
    (dropIdx P l).mapM g = some (dropIdx P r) := by
  induction l generalizing P r with
  | nil => cases r <;> simp_all [dropIdx]
  | cons a l ih =>
    obtain ⟨b, bs, hb, hbs, rfl⟩ := forall₂_cons_left_iff.mp (mapM_eq_some_iff.mp h)
    have ih' := ih (P := fun i => P (i + 1)) (mapM_eq_some_iff.mpr hbs) fun i => hg (i + 1)
    simp only [dropIdx]
    split
    · exact ih'
    · next h0 => simp [hg 0 a b (by simpa using h0) rfl hb, ih']

theorem filterMap_map_sublist {γ : Type} {f : α → Option β} {g : β → γ} {h : α → γ} {l : List α}
    (hf : ∀ a b, f a = some b → g b = h a) : ((l.filterMap f).map g).Sublist (l.map h) := by
  induction l with
  | nil => simp
  | cons a l ih =>
    cases hfa : f a with
    | none =>
      rw [filterMap_cons_none hfa, map_cons]
      exact ih.cons _
    | some b =>
      rw [filterMap_cons_some hfa, map_cons, map_cons, hf a b hfa]
      exact ih.cons_cons _

theorem flatMap_sublist {f g : α → List β} {l : List α} (h : ∀ a ∈ l, (f a).Sublist (g a)) :
    (l.flatMap f).Sublist (l.flatMap g) := by
  induction l with
  | nil => simp
  | cons a l ih =>
    rw [flatMap_cons, flatMap_cons]
    exact (h a mem_cons_self).append (ih fun b hb => h b (.tail _ hb))

/-! ## Changes in place -/

theorem countP_map_lt {φ : α → α} {p : α → Bool} {l : List α} (himp : ∀ a ∈ l, p (φ a) = true → p a = true) {e}
    (he : e ∈ l) (hp : p e = true) (hn : p (φ e) = false) : (l.map φ).countP p < l.countP p := by
  rw [countP_map]
  induction l with
  | nil => cases he
  | cons a l ih =>
    have himp' : ∀ a ∈ l, p (φ a) = true → p a = true := fun a ha => himp a (.tail _ ha)
    have hle : l.countP (p ∘ φ) ≤ l.countP p := countP_mono_left himp'
    rw [countP_cons, countP_cons, Function.comp_apply]
    rcases mem_cons.mp he with rfl | he
    · rw [hp, hn]
      simpa using Nat.lt_succ_of_le hle
    · have hlt := ih himp' he
      have ha := himp a mem_cons_self
      cases hφ : p (φ a) with
      | false => simp; omega
      | true => simp [ha hφ]; omega

theorem flatMap_move_perm [DecidableEq α] {F G : α → List β} {l : List α} (hnd : l.Nodup) {a b} (ha : a ∈ l)
    (hb : b ∈ l) (hne : b ≠ a) (hGa : G a = F a ++ F b) (hGb : G b = []) (hG : ∀ x ∈ l, x ≠ a → x ≠ b → G x = F x) :
    (l.flatMap G).Perm (l.flatMap F) := by
  have hb' : b ∈ l.erase a := (mem_erase_of_ne hne).mpr hb
  have hl : l.Perm (a :: b :: (l.erase a).erase b) :=
    (perm_cons_erase ha).trans ((perm_cons_erase hb').cons a)
  have hnd' := hl.nodup_iff.mp hnd
  have hrest : ((l.erase a).erase b).flatMap G = ((l.erase a).erase b).flatMap F := by
    refine flatMap_congr fun x hx => hG x ?_ ?_ ?_
    · exact mem_of_mem_erase (mem_of_mem_erase hx)
    · rintro rfl
      exact (nodup_cons.mp hnd').1 (.tail _ hx)
    · rintro rfl
      exact (nodup_cons.mp (nodup_cons.mp hnd').2).1 hx
  refine (hl.flatMap_right G).trans (.trans (.of_eq ?_) (hl.flatMap_right F).symm)
  simp only [flatMap_cons, hGa, hGb, hrest, nil_append, append_assoc]

end Armfortas.Lib
