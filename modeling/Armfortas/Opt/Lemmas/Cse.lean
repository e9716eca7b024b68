import Armfortas.Opt.Cse
import Armfortas.Ir.Lemmas.ModuleSim
import Armfortas.Ir.Lemmas.Thin
import Armfortas.Ir.Lemmas.Ssa

/-! A key determines the value of an instruction from the values of its operands. A rewrite maps a value to one of the
same block, defined earlier under the same key, that is not itself rewritten. -/
namespace Armfortas.Opt.Cse
open Lib Ir Fpenv List Option AssocMap

variable {ty : IrType} {rewrites : RewriteMap} {passed : List ValueId} {n : Nat}
  {s : AssocMap Key ValueId × RewriteMap}

/-! ## The meaning of a key -/

namespace Key

variable (k : Key)

def intWidth : IntWidth :=
  match k.ty with
  | .int w => w
  | _ => .i32

def floatWidth : FloatWidth :=
  match k.ty with
  | .float w => w
  | _ => .f32

def cmpOp : CmpOp :=
  match k.aux with
  | 0 => .eq
  | 1 => .ne
  | 2 => .lt
  | 3 => .le
  | 4 => .gt
  | _ => .ge

/-- The operation a key stands for, without its operands. Widths of results are those of the type. -/
def kind : InstKind :=
  match k.tag with
  | 1 => .constInt k.aux k.intWidth
  | 2 => .constFloat (BitVec.ofInt 64 k.aux) k.floatWidth
  | 3 => .constBool (k.aux == 1)
  | 10 => .iBin .add 0 0
  | 11 => .iBin .sub 0 0
  | 12 => .iBin .mul 0 0
  | 13 => .iBin .div 0 0
  | 14 => .iBin .mod 0 0
  | 15 => .iNeg 0
  | 20 => .fBin .add 0 0
  | 21 => .fBin .sub 0 0
  | 22 => .fBin .mul 0 0
  | 23 => .fBin .div 0 0
  | 24 => .fUn .neg 0
  | 25 => .fUn .abs 0
  | 26 => .fUn .sqrt 0
  | 27 => .fBin .pow 0 0
  | 30 => .iCmp k.cmpOp 0 0
  | 31 => .fCmp k.cmpOp 0 0
  | 40 => .logic .and 0 0
  | 41 => .logic .or 0 0
  | 42 => .not 0
  | 43 => .select 0 0 0
  | 50 => .bitBin .and 0 0
  | 51 => .bitBin .or 0 0
  | 52 => .bitBin .xor 0 0
  | 53 => .bitUn .not 0
  | 54 => .bitBin .shl 0 0
  | 55 => .bitBin .lshr 0 0
  | 56 => .bitBin .ashr 0 0
  | 57 => .bitUn .countLeadingZeros 0
  | 58 => .bitUn .countTrailingZeros 0
  | 59 => .bitUn .popCount 0
  | 60 => .intToFloat 0 k.floatWidth
  | 61 => .floatToInt 0 k.intWidth
  | 62 => .floatExtend 0 k.floatWidth
  | 63 => .floatTrunc 0 k.floatWidth
  | 64 => .intExtend 0 k.intWidth (2 ^ 32 ≤ k.aux)
  | 65 => .intTrunc 0 k.intWidth
  | 66 => .ptrToInt 0
  | 67 => .intToPtr 0 .void
  | 70 => .getElementPtr 0 []
  | 80 => .extractField 0 k.aux.toNat
  | 81 => .insertField 0 k.aux.toNat 0
  | _ => .globalAddr (k.name.getD "")

def eval (T : Target) (W : World) (env : Env) : Computed :=
  match k.operands.mapM env with
  | some vals => compute T W ⟨0, k.kind, k.ty⟩ vals
  | none => .stuck

end Key

/-- The commutativity the keys of floating-point operations rely on. -/
structure FloatsCommute (T : Target) : Prop where
  add : ∀ w a b, T.floatAdd w a b = T.floatAdd w b a
  mul : ∀ w a b, T.floatMul w a b = T.floatMul w b a
  eq : ∀ w a b, T.floatCmp .eq w a b = T.floatCmp .eq w b a
  ne : ∀ w a b, T.floatCmp .ne w a b = T.floatCmp .ne w b a

def swapsFloats : InstKind → Bool
  | .fBin .add _ _ | .fBin .mul _ _ | .fCmp .eq _ _ | .fCmp .ne _ _ => true
  | _ => false

section Value

variable {T : Target} {W : World} {i : Inst} {k : Key} {env : Env} {vals : List Val}

theorem canon_cases (a b) : canon a b = [a, b] ∨ canon a b = [b, a] := by
  unfold canon
  split <;> simp

theorem eval_of_kind (hops : k.operands = i.kind.operands)
    (hkind : compute T W ⟨0, k.kind, k.ty⟩ vals = compute T W i vals) (hvals : i.kind.operands.mapM env = some vals) :
    compute T W i vals = k.eval T W env := by
  simp only [Key.eval, hops, hvals, hkind]

theorem eval_of_swap {a b} (hi : i.kind.operands = [a, b]) (hops : k.operands = canon a b)
    (hkind : ∀ x y, compute T W ⟨0, k.kind, k.ty⟩ [x, y] = compute T W i [x, y])
    (hcomm : ∀ x y, compute T W i [x, y] = compute T W i [y, x]) (hvals : i.kind.operands.mapM env = some vals) :
    compute T W i vals = k.eval T W env := by
  rw [hi] at hvals
  simp only [mapM_cons, mapM_nil, Option.pure_def, bind_eq_bind, bind_some,
    bind_eq_some_iff, some.injEq] at hvals
  obtain ⟨x, hx, vs, ⟨y, hy, rfl⟩, rfl⟩ := hvals
  rcases canon_cases a b with hc | hc
  · simp [Key.eval, hops, hc, hx, hy, hkind]
  · simp [Key.eval, hops, hc, hx, hy, hkind, hcomm x y]

theorem onInts_comm {f : IntWidth → Int → Int → Computed} (hf : ∀ w a b, f w a b = f w b a) (x y) :
    T.onInts x y f = T.onInts y x f := by
  unfold Target.onInts
  cases x.asInt T with
  | none => cases y.asInt T <;> rfl
  | some p =>
    cases y.asInt T with
    | none => rfl
    | some q =>
      by_cases h : p.1 = q.1
      · simp only [h, if_true, hf]
      · have h' : ¬ q.1 = p.1 := fun e => h e.symm
        simp only [h, h', if_false]

theorem onFloats_comm {f : FloatWidth → Nat → Nat → Computed} (hf : ∀ w a b, f w a b = f w b a) (x y) :
    onFloats x y f = onFloats y x f := by
  unfold onFloats
  cases x <;> cases y <;> try rfl
  rename_i w a w' b
  by_cases h : w = w'
  · subst h
    simp only [if_true, hf]
  · have h' : ¬ w' = w := fun e => h e.symm
    simp only [h, h', if_false]

theorem evalLogic_comm (op x y) : evalLogic op x y = evalLogic op y x := by
  cases op <;> cases x <;> cases y <;> simp [evalLogic, Bool.and_comm, Bool.or_comm]

def Mistyped (ty : IrType) (c : Computed) : Prop := ∃ y, c = .value y ∧ y.hasType ty = false

theorem onUnary_or {g g' : Val → Computed} (h : ∀ x, g x = g' x ∨ Mistyped ty (g x)) :
    onUnary vals g = onUnary vals g' ∨ Mistyped ty (onUnary vals g) := by
  unfold onUnary
  split
  · exact h _
  · exact .inl rfl

theorem onInt_or {g g' : IntWidth → Int → Computed} (h : ∀ w a, g w a = g' w a ∨ Mistyped ty (g w a))
    (x) : T.onInt x g = T.onInt x g' ∨ Mistyped ty (T.onInt x g) := by
  unfold Target.onInt
  split
  · exact h _ _
  · exact .inl rfl

theorem onFloat_or {g g' : FloatWidth → Nat → Computed} (h : ∀ w a, g w a = g' w a ∨ Mistyped ty (g w a))
    (x) : onFloat x g = onFloat x g' ∨ Mistyped ty (onFloat x g) := by
  unfold onFloat
  split
  · exact h _ _
  · exact .inl rfl

theorem eval_of_width (hops : k.operands = i.kind.operands)
    (hkind : compute T W i vals = compute T W ⟨0, k.kind, k.ty⟩ vals ∨ Mistyped i.ty (compute T W i vals))
    (hvals : i.kind.operands.mapM env = some vals) :
    compute T W i vals = k.eval T W env ∨ Mistyped i.ty (compute T W i vals) :=
  hkind.imp_left fun h => eval_of_kind hops h.symm hvals

theorem intResult_or (k : Key) (w) (g : IntWidth → Int) :
    Computed.value (.int w (g w)) = .value (.int k.intWidth (g k.intWidth)) ∨ Mistyped k.ty (.value (.int w (g w))) := by
  unfold Key.intWidth
  cases k.ty with
  | int w' =>
    by_cases h : w = w'
    · exact .inl (by rw [h])
    · exact .inr ⟨_, rfl, by simp [Val.hasType, h]⟩
  | _ => exact .inr ⟨_, rfl, rfl⟩

theorem floatResult_or (k : Key) (w) (g : FloatWidth → Nat) :
    Computed.value (.float w (g w)) = .value (.float k.floatWidth (g k.floatWidth)) ∨
      Mistyped k.ty (.value (.float w (g w))) := by
  unfold Key.floatWidth
  cases k.ty with
  | float w' =>
    by_cases h : w = w'
    · exact .inl (by rw [h])
    · exact .inr ⟨_, rfl, by simp [Val.hasType, h]⟩
  | _ => exact .inr ⟨_, rfl, rfl⟩

theorem wrap_signExtend (v) (w : IntWidth) : w.wrap (signExtend v w) = w.wrap v := by
  unfold signExtend
  split
  · rfl
  · simp [IntWidth.wrap]

theorem extendFlag (w : IntWidth) (signed : Bool) :
    decide ((2 : Int) ^ 32 ≤ (w.bits ||| signed.toNat <<< 32 : Nat)) = signed := by
  cases w <;> cases signed <;> decide

/-- What an instruction shares with its key, whatever the values are. -/
structure Keyed (i : Inst) (k : Key) : Prop where
  ty : k.ty = i.ty
  operands : ∀ v ∈ k.operands, v ∈ i.kind.operands
  swaps : swapsFloats k.kind = swapsFloats i.kind
  performs : ∀ T W kf call vals heap, performIn T W kf call i vals heap = .ok ((compute T W i vals).effect heap)

theorem keyOf_keyed (h : keyOf i = some k) : Keyed i k := by
  obtain ⟨id, kind, ty⟩ := i
  have hcanon : ∀ a b v, v ∈ canon a b → v ∈ [a, b] := by
    intro a b v hv
    rcases canon_cases a b with hc | hc <;> rw [hc] at hv <;> simp at hv ⊢ <;> tauto
  cases kind with
  | iBin op _ _ | fBin op _ _ | fUn op _ | logic op _ _ | bitBin op _ _ | bitUn op _ | iCmp op _ _ | fCmp op _ _ =>
    cases op <;> cases h <;> refine ⟨rfl, ?_, rfl, fun _ _ _ _ _ _ => rfl⟩ <;>
      first | exact fun v hv => hv | exact hcanon _ _
  | _ => cases h <;> exact ⟨rfl, fun v hv => hv, rfl, fun _ _ _ _ _ _ => rfl⟩

theorem keyOf_eval (hk : keyOf i = some k) (hvals : i.kind.operands.mapM env = some vals)
    (hfloat : swapsFloats i.kind = true → FloatsCommute T) :
    compute T W i vals = k.eval T W env ∨ Mistyped i.ty (compute T W i vals) := by
  obtain ⟨id, kind, ty⟩ := i
  cases kind with
  | iBin op a b =>
    left
    cases op <;> cases hk
    case add.refl | mul.refl =>
      refine eval_of_swap rfl rfl (fun _ _ => rfl) (onInts_comm fun w a b => ?_) hvals
      simp only [Target.evalInt, Int.add_comm, Int.mul_comm]
    all_goals exact eval_of_kind rfl rfl hvals
  | fBin op a b =>
    left
    cases op <;> cases hk
    case add.refl | mul.refl =>
      refine eval_of_swap rfl rfl (fun _ _ => rfl) (onFloats_comm fun w a b => ?_) hvals
      simp only [Target.evalFloat, (hfloat rfl).add w a b, (hfloat rfl).mul w a b]
    all_goals exact eval_of_kind rfl rfl hvals
  | iCmp op a b =>
    left
    cases op <;> cases hk
    case eq.refl | ne.refl =>
      refine eval_of_swap rfl rfl (fun _ _ => rfl) (onInts_comm fun w a b => ?_) hvals
      simp only [CmpOp.eval, eq_comm, ne_comm]
    all_goals exact eval_of_kind rfl rfl hvals
  | fCmp op a b =>
    left
    cases op <;> cases hk
    case eq.refl =>
      refine eval_of_swap rfl rfl (fun _ _ => rfl) (onFloats_comm fun w a b => ?_) hvals
      rw [(hfloat rfl).eq]
    case ne.refl =>
      refine eval_of_swap rfl rfl (fun _ _ => rfl) (onFloats_comm fun w a b => ?_) hvals
      rw [(hfloat rfl).ne]
    all_goals exact eval_of_kind rfl rfl hvals
  | logic op a b =>
    left
    cases op <;> cases hk <;>
      exact eval_of_swap rfl rfl (fun _ _ => rfl) (evalLogic_comm _) hvals
  | bitBin op a b =>
    left
    cases op <;> cases hk
    case and.refl | or.refl | xor.refl =>
      refine eval_of_swap rfl rfl (fun _ _ => rfl) (onInts_comm fun w a b => ?_) hvals
      simp only [Target.evalBit, BitVec.and_comm, BitVec.or_comm, BitVec.xor_comm]
    all_goals exact eval_of_kind rfl rfl hvals
  | constInt v w =>
    cases hk
    simp only [compute, ← wrap_signExtend v w]
    exact intResult_or ⟨1, [], signExtend v w, none, ty⟩ w (·.wrap (signExtend v w))
  | constFloat b w =>
    cases hk
    refine eval_of_width rfl ?_ hvals
    simpa [compute, Key.kind] using floatResult_or ⟨2, [], b.toNat, none, ty⟩ w fun w => T.floatConst b w % 2 ^ w.bits
  | intToFloat v w =>
    cases hk
    exact eval_of_width rfl (onUnary_or (onInt_or fun w' a => floatResult_or ⟨60, [v], w.bits, none, ty⟩ w
      fun w => T.intToFloat w' a w % 2 ^ w.bits)) hvals
  | floatToInt v w =>
    cases hk
    exact eval_of_width rfl (onUnary_or (onFloat_or fun w' a => intResult_or ⟨61, [v], w.bits, none, ty⟩ w
      fun w => w.wrap (T.floatToInt w' a w))) hvals
  | floatExtend v w =>
    cases hk
    exact eval_of_width rfl (onUnary_or (onFloat_or fun w' a => floatResult_or ⟨62, [v], w.bits, none, ty⟩ w
      fun w => T.floatResize w' a w % 2 ^ w.bits)) hvals
  | floatTrunc v w =>
    cases hk
    exact eval_of_width rfl (onUnary_or (onFloat_or fun w' a => floatResult_or ⟨63, [v], w.bits, none, ty⟩ w
      fun w => T.floatResize w' a w % 2 ^ w.bits)) hvals
  | intTrunc v w =>
    cases hk
    exact eval_of_width rfl (onUnary_or (onInt_or fun w' a => intResult_or ⟨65, [v], w.bits, none, ty⟩ w
      fun w => w.wrap a)) hvals
  | intExtend v w signed =>
    cases hk
    refine eval_of_width rfl (onUnary_or (onInt_or fun w' a => ?_)) hvals
    have := intResult_or ⟨64, [v], (w.bits ||| signed.toNat <<< 32 : Nat), none, ty⟩ w
      fun w => w.wrap (if signed then a else a % 2 ^ w'.bits)
    simpa only [extendFlag] using this
  | constBool b =>
    cases hk
    exact .inl (eval_of_kind rfl (by cases b <;> rfl) hvals)
  | fUn op a | bitUn op a =>
    left
    cases op <;> cases hk <;> exact eval_of_kind rfl rfl hvals
  | globalAddr name | iNeg a | not a | select c t f | ptrToInt v | intToPtr v ty' | getElementPtr base idxs
  | extractField agg n | insertField agg n v =>
    cases hk
    exact .inl (eval_of_kind rfl rfl hvals)
  | _ => cases hk

end Value

/-! ## The rewrites -/

def Repeats (b : BasicBlock) (v first : ValueId) : Prop :=
  ∃ (m j : Nat) (i i' : Inst) (k : Key), m < j ∧ b.insts[m]? = some i ∧ b.insts[j]? = some i' ∧ i.id = first ∧
    i'.id = v ∧ keyOf i = some k ∧ keyOf i' = some k

/-- Rewrites lead from repetitions to instructions that stay. Both ends are among the values passed so far. -/
structure Sound (f : Function) (passed : List ValueId) (rewrites : RewriteMap) : Prop where
  repeats : ∀ v first, rewrites.get? v = some first → ∃ b ∈ f.blocks, Repeats b v first
  passed : ∀ v first, rewrites.get? v = some first → v ∈ passed ∧ first ∈ passed
  kept : ∀ v first, rewrites.get? v = some first → rewrites.get? first = none

/-- A key seen in the first `n` instructions of the block belongs to one of them, which is not rewritten. -/
structure Scanned (f : Function) (b : BasicBlock) (n : Nat) (passed : List ValueId)
    (s : AssocMap Key ValueId × RewriteMap) : Prop where
  sound : Sound f passed s.2
  seen : ∀ k v, s.1.get? k = some v → (∃ m i, m < n ∧ b.insts[m]? = some i ∧ i.id = v ∧ keyOf i = some k) ∧
    v ∈ passed ∧ s.2.get? v = none

section Scan

variable {f : Function} {b : BasicBlock} {barrier : Bool}

theorem Sound.mono {passed passed'} (h : Sound f passed rewrites)
    (hsub : passed ⊆ passed') : Sound f passed' rewrites where
  repeats := h.repeats
  passed v first hv := ⟨hsub (h.passed v first hv).1, hsub (h.passed v first hv).2⟩
  kept := h.kept

theorem Sound.get?_eq_none (h : Sound f passed rewrites) {v}
    (hv : v ∉ passed) : rewrites.get? v = none := by
  cases hg : rewrites.get? v with
  | none => rfl
  | some w => exact absurd (h.passed v w hg).1 hv

theorem Scanned.skip (h : Scanned f b n passed s) (v) : Scanned f b (n + 1) (passed ++ [v]) s where
  sound := h.sound.mono (subset_append_left _ _)
  seen k w hw := by
    obtain ⟨⟨m, i, hm, hi⟩, hpassed, hnone⟩ := h.seen k w hw
    exact ⟨⟨m, i, by omega, hi⟩, mem_append_left _ hpassed, hnone⟩

theorem Scanned.scanInst (hb : b ∈ f.blocks)
    (h : Scanned f b n passed s) {i} (hi : b.insts[n]? = some i) (hfresh : i.id ∉ passed) :
    Scanned f b (n + 1) (passed ++ [i.id]) (scanInst barrier s i) := by
  unfold Cse.scanInst
  split
  · exact h.skip _
  · split
    · exact h.skip _
    · next k hk =>
      split
      · next first hfirst =>
        obtain ⟨⟨m, i₀, hm, hi₀, hid, hk₀⟩, hpassed, hnone⟩ := h.seen k first hfirst
        have hne : ∀ w ∈ passed, w ≠ i.id := fun w hw e => hfresh (e ▸ hw)
        have hcases : ∀ v w, (s.2.insert i.id first).get? v = some w →
            (v = i.id ∧ w = first) ∨ s.2.get? v = some w := by
          intro v w hv
          rw [get?_insert] at hv
          split at hv
          · next hvi => exact .inl ⟨hvi, (some.inj hv).symm⟩
          · exact .inr hv
        refine ⟨⟨fun v w hv => ?_, fun v w hv => ?_, fun v w hv => ?_⟩, fun k' v hv => ?_⟩
        · rcases hcases v w hv with ⟨rfl, rfl⟩ | hv
          · exact ⟨b, hb, m, n, i₀, i, k, hm, hi₀, hi, hid, rfl, hk₀, hk⟩
          · exact h.sound.repeats v w hv
        · rcases hcases v w hv with ⟨rfl, rfl⟩ | hv
          · exact ⟨by simp, mem_append_left _ hpassed⟩
          · obtain ⟨hv, hw⟩ := h.sound.passed v w hv
            exact ⟨mem_append_left _ hv, mem_append_left _ hw⟩
        · rcases hcases v w hv with ⟨rfl, rfl⟩ | hv
          · rw [get?_insert_ne _ _ (hne _ hpassed), hnone]
          · rw [get?_insert_ne _ _ (hne w (h.sound.passed v w hv).2), h.sound.kept v w hv]
        · obtain ⟨⟨m', i', hm', hi'⟩, hpassed', hnone'⟩ := h.seen k' v hv
          refine ⟨⟨m', i', by omega, hi'⟩, mem_append_left _ hpassed', ?_⟩
          rw [get?_insert_ne _ _ (hne v hpassed'), hnone']
      · next hfirst =>
        refine ⟨h.sound.mono (subset_append_left _ _), fun k' v hv => ?_⟩
        rw [get?_insert] at hv
        split at hv
        · next hkk =>
          cases hv
          exact ⟨⟨n, i, by omega, hi, rfl, by rw [hk, hkk]⟩, by simp, h.sound.get?_eq_none hfresh⟩
        · exact (h.skip i.id).seen k' v hv

theorem Scanned.foldl (hb : b ∈ f.blocks) (is) (h : Scanned f b n passed s) (his : b.insts.drop n = is)
    (hnd : (passed ++ is.map (·.id)).Nodup) :
    Sound f (passed ++ is.map (·.id)) (is.foldl (Cse.scanInst barrier) s).2 := by
  induction is generalizing n passed s with
  | nil => simpa using h.sound
  | cons i is ih =>
    have hi : b.insts[n]? = some i := by
      rw [← head?_drop, his, head?_cons]
    have hfresh : i.id ∉ passed := fun hmem => by
      rw [nodup_append] at hnd
      exact hnd.2.2 _ hmem _ (by simp) rfl
    have hrest : b.insts.drop (n + 1) = is := by rw [← drop_drop, his, drop_one, tail_cons]
    have hassoc : passed ++ [i.id] ++ is.map (·.id) = passed ++ (i :: is).map (·.id) := by simp
    rw [← hassoc] at hnd ⊢
    exact ih (h.scanInst hb hi hfresh) hrest hnd

theorem Sound.scanBlock (hb : b ∈ f.blocks)
    (h : Sound f passed rewrites) (hnd : (passed ++ b.insts.map (·.id)).Nodup) :
    Sound f (passed ++ b.insts.map (·.id)) (scanBlock barrier rewrites b) :=
  Scanned.foldl hb b.insts (n := 0) ⟨h, fun k v hv => by simp at hv⟩ rfl hnd

theorem Sound.foldl (bs : List BasicBlock) (hbs : ∀ b ∈ bs, b ∈ f.blocks) (h : Sound f passed rewrites)
    (hnd : (passed ++ bs.flatMap fun b => b.insts.map (·.id)).Nodup) :
    Sound f (passed ++ bs.flatMap fun b => b.insts.map (·.id)) (bs.foldl (Cse.scanBlock barrier) rewrites) := by
  induction bs generalizing passed rewrites with
  | nil => simpa using h
  | cons b bs ih =>
    rw [flatMap_cons, ← append_assoc] at hnd ⊢
    exact ih (fun c hc => hbs c (.tail _ hc))
      (h.scanBlock (hbs b mem_cons_self) (nodup_append.mp hnd).1) hnd

theorem sound_rewriteMap (barrier : Bool) (hnd : f.collectDefinedValues.Nodup) :
    ∃ passed, Sound f passed (rewriteMap barrier f) := by
  have hids : (f.blocks.flatMap fun b => b.insts.map (·.id)).Nodup := by
    rw [Function.collectDefinedValues_eq] at hnd
    refine List.Sublist.nodup ?_ (nodup_append.mp hnd).2.1
    exact flatMap_sublist fun b _ => sublist_append_right _ _
  have hempty : Sound f [] [] := ⟨by simp, by simp, by simp⟩
  exact ⟨_, Sound.foldl f.blocks (fun b hb => hb) hempty (by simpa using hids)⟩

end Scan

end Armfortas.Opt.Cse
