/-! The newest binding of a key comes first and hides the older ones. -/
namespace Armfortas.Lib
open List

abbrev AssocMap (α β : Type) := List (α × β)

namespace AssocMap

variable {α β : Type} [DecidableEq α]

def get? (m : AssocMap α β) (k : α) : Option β := List.lookup k m

def insert (m : AssocMap α β) (k : α) (v : β) : AssocMap α β := (k, v) :: m

def getD (m : AssocMap α β) (k : α) (d : β) : β := (m.get? k).getD d

@[simp] theorem get?_nil (k : α) : get? ([] : AssocMap α β) k = none := rfl

@[simp] theorem get?_insert_self (m : AssocMap α β) (k : α) (v : β) : (m.insert k v).get? k = some v := by
  simp [get?, insert]

@[simp] theorem get?_insert_ne (m : AssocMap α β) {k k' : α} (v : β) (h : k' ≠ k) :
    (m.insert k v).get? k' = m.get? k' := by
  simp [get?, insert, lookup_cons, beq_eq_false_iff_ne.mpr h]

theorem get?_insert (m : AssocMap α β) (k k' : α) (v : β) :
    (m.insert k v).get? k' = if k' = k then some v else m.get? k' := by
  by_cases h : k' = k
  · subst h; simp
  · simp [h]

@[simp] theorem getD_insert_self (m : AssocMap α β) (k : α) (v d : β) : (m.insert k v).getD k d = v := by
  simp [getD]

@[simp] theorem getD_insert_ne (m : AssocMap α β) {k k' : α} (v d : β) (h : k' ≠ k) :
    (m.insert k v).getD k' d = m.getD k' d := by
  simp [getD, h]

theorem mem_of_get? {m : AssocMap α β} {k : α} {v : β} (h : m.get? k = some v) : (k, v) ∈ m := by
  induction m with
  | nil => simp at h
  | cons e m ih =>
    obtain ⟨k', v'⟩ := e
    by_cases hk : k = k'
    · subst hk
      have hv : v' = v := by simpa [get?] using h
      simp [hv]
    · have h' : get? m k = some v := by
        simpa [get?, lookup_cons, beq_eq_false_iff_ne.mpr hk] using h
      exact .tail _ (ih h')

theorem lookup_eq_some_iff {l : List (α × β)} (hnd : (l.map Prod.fst).Nodup) {k : α} {v : β} :
    l.lookup k = some v ↔ (k, v) ∈ l := by
  refine ⟨fun h => mem_of_get? (m := l) h, fun h => ?_⟩
  induction l with
  | nil => simp at h
  | cons e l ih =>
    rw [map_cons, nodup_cons] at hnd
    rcases mem_cons.mp h with rfl | h
    · simp
    · have hne : k ≠ e.1 := fun he => hnd.1 (he ▸ mem_map_of_mem (f := Prod.fst) h)
      rw [lookup_cons, beq_eq_false_iff_ne.mpr hne]
      exact ih hnd.2 h

end AssocMap

end Armfortas.Lib
