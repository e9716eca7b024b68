import Armfortas.Runtime.Format.Control

/-! The descriptors `format_reversion_descriptors` selects are those of the items from the last one in parentheses
on. -/
namespace Armfortas.Runtime.Format
open List

/-! ## What a parser returns -/

theorem bind_eq_ok {ε α β : Type} {x : Except ε α} {f : α → Except ε β} {b} (h : x.bind f = .ok b) :
    ∃ a, x = .ok a ∧ f a = .ok b := by
  cases x with
  | error e => cases h
  | ok a => exact ⟨a, rfl, h⟩

theorem map_eq_ok {ε α β : Type} {x : Except ε α} {f : α → β} {b} (h : x.map f = .ok b) : ∃ a, x = .ok a ∧ f a = b := by
  cases x with
  | error e => cases h
  | ok a => exact ⟨a, rfl, Except.ok.inj h⟩

section

variable {α β : Type} {p : Parser α} {f : α → Parser β} {cs rest : List Char}

theorem Parser.bind_ok {b} (h : (p >>= f).run cs = .ok (b, rest)) :
    ∃ a mid, p.run cs = .ok (a, mid) ∧ (f a).run mid = .ok (b, rest) := by
  obtain ⟨r, hp, hf⟩ := bind_eq_ok h
  exact ⟨r.1, r.2, hp, hf⟩

end

/-- Whatever the parser returns has the property. -/
def Parser.Yields {α : Type} (P : α → Prop) (p : Parser α) : Prop := ∀ ⦃cs a rest⦄, p.run cs = .ok (a, rest) → P a

namespace Parser.Yields

variable {α β : Type} {P : β → Prop}

theorem bind {p : Parser α} {f : α → Parser β} (h : ∀ a, Yields P (f a)) : Yields P (p >>= f) := by
  intro cs b rest hrun
  obtain ⟨a, mid, -, hf⟩ := bind_ok hrun
  exact h a hf

theorem bindOf {p : Parser α} {Q : α → Prop} {f : α → Parser β} (hp : Yields Q p) (h : ∀ a, Q a → Yields P (f a)) :
    Yields P (p >>= f) := by
  intro cs b rest hrun
  obtain ⟨a, mid, ha, hf⟩ := bind_ok hrun
  exact h a (hp ha) hf

theorem pure {b : β} (h : P b) : Yields P (Pure.pure b : Parser β) := by
  intro cs a rest hrun
  cases hrun
  exact h

theorem invalid : Yields P (Format.invalid : Parser β) := by
  intro cs a rest hrun
  cases hrun

theorem after {p : Parser β} (h : Yields P p) : Yields P (Format.after p) := bind fun _ => h

end Parser.Yields

open Format.Parser

/-! ## Items in parentheses -/

/-- An edit descriptor is no group, and one with a count only a group that is not written in parentheses. -/
theorem parseEditDescriptor_yields (count sign) :
    Yields (fun desc => desc.isReversionPoint = false) (parseEditDescriptor count sign) := by
  unfold parseEditDescriptor parseExponentialWidths
  repeat' first
    | exact Yields.invalid
    | exact Yields.pure rfl
    | (refine Yields.bind fun _ => ?_)
    | (refine Yields.after ?_)
    | dsimp only
    | split

theorem pushRepeated_isReversionPoint {desc : FormatDesc} {count} (h : desc.isReversionPoint = false) :
    (pushRepeated desc count).isReversionPoint = false := by
  unfold pushRepeated
  split
  · exact h
  · rfl

theorem withCount_yields {desc : FormatDesc} (count) (h : desc.isReversionPoint = false) :
    Yields (fun desc => desc.isReversionPoint = false) (withCount desc count) := by
  unfold withCount
  repeat' first
    | exact Yields.invalid
    | exact Yields.pure rfl
    | exact Yields.pure h
    | split

theorem numberLoop_rest {value found cs n rest} (h : numberLoop value found cs = .ok (n, rest)) :
    rest = cs.dropWhile fun c => c.isDigit || c == ' ' := by
  induction cs generalizing value found with
  | nil => cases h; rfl
  | cons c cs ih =>
    rw [numberLoop] at h
    split at h
    · next hblank => rw [ih h, dropWhile_cons_of_pos (by simp [hblank])]
    · next hblank =>
      split at h
      · next hdigit =>
        dsimp only at h
        split at h
        · rw [ih h, dropWhile_cons_of_pos (by simp [hdigit])]
        · cases h
      · next hdigit =>
        cases h
        rw [dropWhile_cons_of_neg (by simp [hblank, hdigit])]

theorem dropWhile_dropWhile {α : Type} {p q : α → Bool} (h : ∀ a, p a = true → q a = true) (l : List α) :
    (l.dropWhile p).dropWhile q = l.dropWhile q := by
  induction l with
  | nil => rfl
  | cons a l ih =>
    rw [dropWhile_cons]
    split
    · rw [ih, dropWhile_cons_of_pos (h a ‹_›)]
    · rfl

theorem startsGroup_dropWhile {p : Char → Bool} (h : ∀ c, p c = true → (c.isDigit || c == ' ' || c == '*') = true) (cs) :
    startsGroup (cs.dropWhile p) = startsGroup cs := by
  rw [startsGroup, dropWhile_dropWhile h, startsGroup]

theorem startsGroup_number (cs) : startsGroup (cs.dropWhile fun c => c.isDigit || c == ' ') = startsGroup cs :=
  startsGroup_dropWhile (fun c hc => by rw [hc]; rfl) cs

theorem startsGroup_cons {c : Char} {cs} (h : (c.isDigit || c == ' ' || c == '*') = false) :
    startsGroup (c :: cs) = (c == '(') := by
  rw [startsGroup, dropWhile_cons_of_neg (by rw [h]; simp)]
  rfl

theorem parseSign_cases {cs sign rest} (h : parseSign.run cs = .ok (sign, rest)) :
    sign = 0 ∧ rest = cs ∨ sign ≠ 0 ∧ startsGroup cs = false := by
  obtain ⟨c, mid, hpeek, hsign⟩ := Parser.bind_ok h
  cases hpeek
  split at hsign
  · next hminus =>
    obtain ⟨cs, rfl⟩ := head?_eq_some_iff.mp hminus
    cases hsign
    exact .inr ⟨by decide, rfl⟩
  · next hplus =>
    obtain ⟨cs, rfl⟩ := head?_eq_some_iff.mp hplus
    cases hsign
    exact .inr ⟨by decide, rfl⟩
  · cases hsign
    exact .inl ⟨rfl, rfl⟩

theorem dropWhile_dropWhile_self {α : Type} {p q : α → Bool} (h : ∀ a, q a = true → p a = true) (l : List α) :
    (l.dropWhile p).dropWhile q = l.dropWhile p := by
  induction l with
  | nil => rfl
  | cons a l ih =>
    rw [dropWhile_cons]
    split
    · exact ih
    · next hp => exact dropWhile_cons_of_neg (mt (h a) hp)

/-- What stands behind the number an item may begin with decides whether the item is in parentheses. -/
theorem startsGroup_of_head {cs cs₁ sign c} (hsign : parseSign.run cs = .ok (sign, cs₁))
    (hc : (cs₁.dropWhile fun c => c.isDigit || c == ' ').head? = some c) (hparen : c ≠ '(') (hstar : c ≠ '*') :
    startsGroup cs = false := by
  rcases parseSign_cases hsign with ⟨-, rfl⟩ | ⟨-, hfalse⟩
  · have hnot := head?_dropWhile_not (fun c : Char => c.isDigit || c == ' ') cs₁
    rw [hc] at hnot
    obtain ⟨cs', hcs'⟩ := head?_eq_some_iff.mp hc
    rw [← startsGroup_number, hcs', startsGroup_cons]
    · exact beq_false_of_ne hparen
    · rw [Bool.or_eq_false_iff]
      exact ⟨Bool.eq_false_iff.mpr fun h => by simp [h] at hnot, beq_false_of_ne hstar⟩
  · exact hfalse

section

variable {inner : Parser (List FormatDesc)} {sign : Int} {count : Option Nat}

theorem parseItemAt_plain {c} (hparen : c ≠ '(') (hstar : c ≠ '*') :
    Yields (fun desc => desc.isReversionPoint = false) (parseItemAt inner sign count c) := by
  rw [parseItemAt, if_neg hparen, if_neg hstar]
  repeat' first
    | exact Yields.invalid
    | exact Yields.pure rfl
    | exact Yields.pure (pushRepeated_isReversionPoint rfl)
    | split
    | exact Yields.bindOf (parseEditDescriptor_yields _ _) fun desc h => withCount_yields _ h
    | (refine Yields.bind fun _ => ?_)

theorem parseItemAt_paren {cs desc rest} (h : (parseItemAt inner sign count '(').run cs = .ok (desc, rest)) :
    sign = 0 ∧ desc.isReversionPoint = true := by
  rw [parseItemAt, if_pos rfl] at h
  split at h
  · cases h
  · next hcount =>
    obtain ⟨descriptors, _, _, h⟩ := Parser.bind_ok h
    cases h
    exact ⟨not_not.mp fun hne => hcount (.inl hne), rfl⟩

theorem parseItemAt_star {cs desc rest} (h : (parseItemAt inner sign count '*').run ('*' :: cs) = .ok (desc, rest)) :
    sign = 0 ∧ desc.isReversionPoint = true ∧ startsGroup ('*' :: cs) = true := by
  rw [parseItemAt, if_neg (by decide), if_neg (by decide), if_neg (by decide), if_neg (by decide), if_pos rfl] at h
  split at h
  · cases h
  · next hcount =>
    obtain ⟨_, _, hnext, h⟩ := Parser.bind_ok h
    cases hnext
    obtain ⟨_, _, hskip, h⟩ := Parser.bind_ok h
    cases hskip
    obtain ⟨c, _, hnext, h⟩ := Parser.bind_ok h
    cases hnext
    split at h
    · cases h
    · next hopen =>
      obtain ⟨descriptors, _, _, h⟩ := Parser.bind_ok h
      cases h
      refine ⟨not_not.mp fun hne => hcount (.inl hne), rfl, ?_⟩
      obtain ⟨cs', hcs'⟩ : ∃ cs', cs.dropWhile (· == ' ') = '(' :: cs' := head?_eq_some_iff.mp (not_not.mp hopen)
      change startsGroup cs = true
      rw [← startsGroup_dropWhile (p := (· == ' ')) (by simp +contextual), hcs']
      rfl

end

/-- An item is a reversion point exactly if it begins with a parenthesis. -/
theorem parseItem_point {inner cs desc rest} (h : (parseItem inner).run cs = .ok (desc, rest)) :
    desc.isReversionPoint = startsGroup cs := by
  obtain ⟨sign, cs₁, hsign, h⟩ := Parser.bind_ok h
  obtain ⟨count, cs₂, hcount, h⟩ := Parser.bind_ok h
  obtain ⟨_, _, hskip, h⟩ := Parser.bind_ok h
  obtain ⟨_, _, hpeek, h⟩ := Parser.bind_ok h
  cases hskip
  cases hpeek
  rw [numberLoop_rest hcount, dropWhile_dropWhile_self (by simp +contextual)] at h
  have hunsigned (hzero : sign = 0) : startsGroup cs = startsGroup (cs₁.dropWhile fun c => c.isDigit || c == ' ') := by
    rcases parseSign_cases hsign with ⟨-, rfl⟩ | ⟨hne, -⟩
    · exact (startsGroup_number cs₁).symm
    · exact absurd hzero hne
  cases ht : cs₁.dropWhile fun c => c.isDigit || c == ' ' with
  | nil => rw [ht] at h; cases h
  | cons c t =>
    rw [ht] at h hunsigned
    by_cases hparen : c = '('
    · subst hparen
      obtain ⟨hzero, hpoint⟩ := parseItemAt_paren h
      rw [hpoint, hunsigned hzero]
      rfl
    · by_cases hstar : c = '*'
      · subst hstar
        obtain ⟨hzero, hpoint, hstart⟩ := parseItemAt_star h
        rw [hpoint, hunsigned hzero, hstart]
      · rw [parseItemAt_plain hparen hstar h, startsGroup_of_head hsign (by rw [ht]; rfl) hparen hstar]

/-! ## The items of a format -/

theorem readItems_descriptors (items fuel) :
    (·.map Prod.snd) <$> readItems items fuel = parseList 1 (items.map Prod.snd) fuel := by
  induction fuel generalizing items with
  | zero => rfl
  | succ fuel ih =>
    rw [parseList, readItems, if_neg (by decide), isEmpty_map, map_bind]
    refine congrArg _ (funext fun more => ?_)
    cases more with
    | false => rfl
    | true =>
      simp only [if_true, map_bind, ih, map_append]
      rfl

theorem readItems_points {items} (h : ∀ item ∈ items, item.2.isReversionPoint = startsGroup item.1) (fuel) :
    Yields (∀ item ∈ ·, item.2.isReversionPoint = startsGroup item.1) (readItems items fuel) := by
  induction fuel generalizing items with
  | zero => exact Yields.invalid
  | succ fuel ih =>
    rw [readItems]
    refine Yields.bind fun more => ?_
    cases more with
    | false => exact Yields.pure h
    | true =>
      intro cs found rest hrun
      obtain ⟨start, _, hget, hrun⟩ := Parser.bind_ok hrun
      cases hget
      obtain ⟨desc, mid, hitem, hrun⟩ := Parser.bind_ok hrun
      refine ih (fun item hmem => ?_) hrun
      rcases mem_append.mp hmem with hmem | hmem
      · exact h item hmem
      · obtain rfl := mem_singleton.mp hmem
        exact parseItem_point hitem

theorem parse_map {α β : Type} (f : α → β) (list : Parser α) : parse (f <$> list) = f <$> parse list := by
  simp only [parse, map_bind, bind_map_left]
  refine congrArg _ (funext fun _ => congrArg _ (funext fun c => ?_))
  split
  · rfl
  · simp only [map_bind]
    refine congrArg _ (funext fun items => congrArg _ (funext fun _ => congrArg _ (funext fun c => ?_)))
    split <;> rfl

theorem parse_ok {α : Type} {list : Parser α} {cs a rest} (h : (parse list).run cs = .ok (a, rest)) :
    ∃ cs rest, list.run cs = .ok (a, rest) := by
  obtain ⟨_, _, _, h⟩ := Parser.bind_ok h
  obtain ⟨c, _, _, h⟩ := Parser.bind_ok h
  split at h
  · cases h
  · obtain ⟨items, rest, hitems, h⟩ := Parser.bind_ok h
    obtain ⟨_, _, _, h⟩ := Parser.bind_ok h
    obtain ⟨c, _, _, h⟩ := Parser.bind_ok h
    split at h
    · cases h
    · cases h
      exact ⟨_, rest, hitems⟩

theorem parseFormat_eq (text) : parseFormat text = (topLevelItems text).map (·.map Prod.snd) := by
  rw [topLevelItems, parseFormat, ← map_nil, ← readItems_descriptors, parse_map]
  cases h : (parse (readItems [] (text.length + 1))).run (trim text) with
  | error e => simp [h]; rfl
  | ok r => simp [h]; rfl

theorem topLevelItems_points {text items} (h : topLevelItems text = .ok items) :
    ∀ item ∈ items, item.2.isReversionPoint = startsGroup item.1 := by
  obtain ⟨⟨_, _⟩, hparse, rfl⟩ := map_eq_ok h
  obtain ⟨cs, rest, hread⟩ := parse_ok hparse
  exact readItems_points (fun item hmem => absurd hmem not_mem_nil) _ hread

/-! ## The last of them -/

theorem find_suffix_isSome {α : Type} (p : α → Bool) (l : List α) :
    (l.tails.reverse.find? fun suffix => suffix.head?.any p).isSome = l.any p := by
  induction l with
  | nil => rfl
  | cons a l ih =>
    rw [tails, reverse_cons, find?_append, Option.isSome_or, ih, any_cons, Bool.or_comm]
    cases hp : p a <;> simp [hp]

theorem fromLast_cons {α : Type} (p : α → Bool) (a : α) (l : List α) :
    fromLast p (a :: l) = if l.any p then fromLast p l else a :: l := by
  rw [fromLast, tails, reverse_cons, find?_append, fromLast, ← find_suffix_isSome p l]
  cases l.tails.reverse.find? fun suffix => suffix.head?.any p with
  | some suffix => rfl
  | none => cases hp : p a <;> simp [hp]

/-- The descriptors the engine goes back to are those of the items from the last one in parentheses on. -/
theorem formatReversionDescriptors_eq {items : List (List Char × FormatDesc)}
    (h : ∀ item ∈ items, item.2.isReversionPoint = startsGroup item.1) :
    formatReversionDescriptors (items.map Prod.snd) = (fromLast (fun item => startsGroup item.1) items).map Prod.snd := by
  induction items with
  | nil => rfl
  | cons item items ih =>
    rw [forall_mem_cons] at h
    have hany : (items.map Prod.snd).any FormatDesc.isReversionPoint = items.any fun item => startsGroup item.1 := by
      rw [any_map, Bool.eq_iff_iff, any_eq_true, any_eq_true]
      exact exists_congr fun item => and_congr_right fun hmem => by rw [← h.2 item hmem]; rfl
    rw [map_cons, formatReversionDescriptors, hany, fromLast_cons]
    split
    · exact ih h.2
    · rfl

end Armfortas.Runtime.Format
