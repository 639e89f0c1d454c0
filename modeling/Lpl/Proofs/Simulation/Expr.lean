import Lpl.Proofs.Simulation.Basic

/-!
# Simulation of expressions

**Theorem (`Expr.simulates`).** The code of an expression without arrays does what the interpreter
does with the expression: it leaves the value on the stack, or faults where a division by zero does.

The variables of a method are words at or above the stack pointer (`Sees`), so that no word pushed in
between gets into their place.
-/

namespace Lpl

open Machine

/-! ## Operators -/

theorem truth_congr {p q : Prop} [Decidable p] [Decidable q] (h : p ↔ q) : truth p = truth q := by
  unfold truth
  by_cases hp : p
  · rw [if_pos hp, if_pos (h.1 hp)]
  · rw [if_neg hp, if_neg (fun hq => hp (h.2 hq))]

theorem word_sub_eq_zero (a b : Int32) : a - b = 0 ↔ a = b := by
  constructor
  · intro h
    rw [← Int32.sub_add_cancel a b, h, Int32.zero_add]
  · rintro rfl
    exact Int32.sub_self a

theorem truth_eq_zero {p : Prop} [Decidable p] : truth p = 0 ↔ ¬ p := by
  unfold truth
  by_cases hp : p <;> simp [hp]

theorem truth_mul (p q : Prop) [Decidable p] [Decidable q] : truth p * truth q = truth (p ∧ q) := by
  by_cases hp : p <;> by_cases hq : q <;> simp [truth, hp, hq]

/-- What the left operand has become when the right one is evaluated. -/
def BinaryOp.leftWord : BinaryOp → Int32 → Int32
  | and, u => truth (truth (u = 0) = 0)
  | or, u => truth (u = 0)
  | _, u => u

section Operators

variable {t : Table} {code : Assembly} {img : Image} {d : Int} {base s : State} {k : Nat}
  {u v : Int32} {vs : List Int32} {w : World} (L : Linked t code img d)

include L

theorem BinaryOp.leads_afterLeft (op : BinaryOp) (hcode : code.HasAt k op.afterLeft)
    (h : At t base k (u :: vs) w s) :
    Leads img d (At t base (k + op.afterLeft.length) (op.leftWord u :: vs) w) s := by
  cases op with
  | and =>
    exact (h.line_testZ L hcode.head).trans fun s' h' => h'.line_testZ L hcode.tail.head
  | or => exact h.line_testZ L hcode.head
  | _ => exact .here h

theorem BinaryOp.simulates_afterRight (op : BinaryOp) (hcode : code.HasAt k op.afterRight)
    (h : At t base k (v :: op.leftWord u :: vs) w s) :
    Simulates t img d (op.apply u v w)
      (fun r w' => At t base (k + op.afterRight.length) (r :: vs) w') s := by
  cases op with
  | add => exact .ok (h.line_add L hcode.head)
  | sub => exact .ok (h.line_sub L hcode.head)
  | mul => exact .ok (h.line_mul L hcode.head)
  | div => exact h.line_div L hcode.head
  | less =>
    exact .ok ((h.line_sub L hcode.head).trans fun s' h' => h'.line_testN L hcode.tail.head)
  | lessEq =>
    refine .ok ((h.line_sub L hcode.head).trans fun s₁ h₁ => ?_)
    refine (h₁.line_push L hcode.tail.head).trans fun s₂ h₂ => ?_
    refine (h₂.line_sub L hcode.tail.tail.head).trans fun s₃ h₃ => ?_
    exact h₃.line_testN L hcode.tail.tail.tail.head
  | equal =>
    refine .ok ((h.line_sub L hcode.head).trans fun s₁ h₁ => ?_)
    rw [truth_congr (word_sub_eq_zero u v).symm]
    exact h₁.line_testZ L hcode.tail.head
  | and =>
    refine .ok ((h.line_testZ L hcode.head).trans fun s₁ h₁ => ?_)
    refine (h₁.line_testZ L hcode.tail.head).trans fun s₂ h₂ => ?_
    have hvalue : truth (u ≠ 0 ∧ v ≠ 0) = BinaryOp.and.leftWord u * truth (truth (v = 0) = 0) := by
      rw [BinaryOp.leftWord, truth_mul, truth_congr (and_congr truth_eq_zero truth_eq_zero)]
    rw [hvalue]
    exact h₂.line_mul L hcode.tail.tail.head
  | or =>
    refine .ok ((h.line_testZ L hcode.head).trans fun s₁ h₁ => ?_)
    refine (h₁.line_mul L hcode.tail.head).trans fun s₂ h₂ => ?_
    have hvalue : truth (u ≠ 0 ∨ v ≠ 0) =
        truth (BinaryOp.or.leftWord u * truth (v = 0) = 0) := by
      rw [BinaryOp.leftWord, truth_mul]
      exact truth_congr (by rw [truth_eq_zero, not_and_or])
    rw [hvalue]
    exact h₂.line_testZ L hcode.tail.tail.head

end Operators

/-! ## Variables -/

/-- The variables of the active method have the values `f` in the state: their words are on the
stack. -/
structure Sees (σ : Scope) (f : Bindings) (s : State) : Prop where
  slots : ∀ x, f.lookup x = (σ.active.bind fun m => Scope.inMethod? m x).map fun v =>
    s.memory.read (s.fp + v.place.displacement σ.table.wordSize)
  inStack : ∀ {m x v}, σ.active = some m → Scope.inMethod? m x = some v →
    s.sp ≤ s.fp + v.place.displacement σ.table.wordSize ∧
      s.fp + v.place.displacement σ.table.wordSize ≤ stackTop

/-- A variable of a method is found from the frame pointer. -/
theorem base_of_inMethod? {m : Signature} {x : String} {v : Variable}
    (h : Scope.inMethod? m x = some v) : v.place.base = .getFp := by
  unfold Scope.inMethod? at h
  split at h <;> cases h <;> rfl

theorem base_of_global? {t : Table} {x : String} {v : Variable} (h : Scope.global? t x = some v) :
    v.place.base = .getDp := by
  obtain ⟨⟨i, ty⟩, -, rfl⟩ := Option.map_eq_some_iff.1 h
  rfl

/-- What a name means: a variable of the active method, or else a global. -/
theorem find?_cases {σ : Scope} {x : String} {v : Variable} (h : σ.find? x = some v) :
    (∃ m, σ.active = some m ∧ Scope.inMethod? m x = some v) ∨
      (σ.active.bind fun m => Scope.inMethod? m x) = none ∧ Scope.global? σ.table x = some v := by
  rcases Option.or_eq_some_iff.1 h with h | ⟨hnone, h⟩
  · obtain ⟨m, hm, hv⟩ := Option.bind_eq_some_iff.1 h
    exact .inl ⟨m, hm, hv⟩
  · exact .inr ⟨hnone, h⟩

theorem toInt_ofInt_of_inStack {a : Int} (h₀ : 0 ≤ a) (h : a ≤ stackTop) :
    (Int32.ofInt a).toInt = a := by
  have : stackTop = 1048576 := rfl
  exact Int32.toInt_ofInt_of_le (by omega) (by omega)

section Variables

variable {σ : Scope} {code : Assembly} {img : Image} {d : Int} {base s : State} {k : Nat}
  {f : Bindings} {vs : List Int32} {w : World} (L : Linked σ.table code img d)

include L

/-- The address of a variable of the method. -/
theorem leads_address_slot {m : Signature} {x : String} {v : Variable}
    (hv : Scope.inMethod? m x = some v)
    (hcode : code.HasAt k (v.place.address σ.table.wordSize)) (h : At σ.table base k vs w s) :
    Leads img d (At σ.table base (k + 3)
      (.ofInt (base.fp + v.place.displacement σ.table.wordSize) :: vs) w) s := by
  have hbase : code[k]? = some .getFp := base_of_inMethod? hv ▸ hcode.head
  rw [Int32.ofInt_add]
  refine (h.line_getFp L hbase).trans fun s₁ h₁ => ?_
  refine (h₁.line_push L hcode.tail.head).trans fun s₂ h₂ => ?_
  exact h₂.line_add L hcode.tail.tail.head

theorem leads_address_global {x : String} {v : Variable} (hv : Scope.global? σ.table x = some v)
    (hcode : code.HasAt k (v.place.address σ.table.wordSize)) (h : At σ.table base k vs w s) :
    Leads img d (At σ.table base (k + 3)
      (.ofInt (v.place.displacement σ.table.wordSize) :: vs) w) s := by
  have hbase : code[k]? = some .getDp := base_of_global? hv ▸ hcode.head
  rw [← Int32.zero_add (Int32.ofInt _)]
  refine (h.line_getDp L hbase).trans fun s₁ h₁ => ?_
  refine (h₁.line_push L hcode.tail.head).trans fun s₂ h₂ => ?_
  exact h₂.line_add L hcode.tail.tail.head

/-- Reading a variable: its address, `load`. -/
theorem simulates_readVar {x : String} {v : Variable} (hv : σ.find? x = some v)
    (hsees : Sees σ f base)
    (hcode : code.HasAt k (v.place.address σ.table.wordSize ++ [Instruction.load]))
    (h : At σ.table base k vs w s) :
    Simulates σ.table img d (Eval.readVar f x w)
      (fun u w' => At σ.table base (k + 4) (u :: vs) w') s := by
  have hload : code[k + 3]? = some .load := hcode.right.head
  rcases find?_cases hv with ⟨m, hm, hv⟩ | ⟨hnone, hv⟩
  · have hslot := hsees.slots x
    rw [hm, Option.bind_some, hv, Option.map_some] at hslot
    have hread : Eval.readVar f x w =
        .ok (base.memory.read (base.fp + v.place.displacement σ.table.wordSize)) w := by
      rw [Eval.readVar, hslot, Option.some_or]
    rw [hread]
    refine .ok ((leads_address_slot L hv hcode.left h).trans fun s₁ h₁ hsafe => ?_)
    obtain ⟨hlow, hhigh⟩ := hsees.inStack hm hv
    have := hsafe.le
    have := h₁.stacked.sp_le L.wordSize_pos
    have := L.data_nonneg
    refine h₁.line_load L hload ?_ hsafe
    rw [toInt_ofInt_of_inStack (by omega) hhigh]
    exact h₁.stacked.above _ hlow
  · have hslot := hsees.slots x
    rw [hnone] at hslot
    have hglobal := h.shows.globals x
    rw [hv, Option.map_some] at hglobal
    have hread : Eval.readVar f x w =
        .ok (s.memory.read (v.place.displacement σ.table.wordSize)) w := by
      rw [Eval.readVar, hslot, Option.map_none, Option.none_or, hglobal]
    rw [hread]
    refine .ok ((leads_address_global L hv hcode.left h).trans fun s₁ h₁ hsafe => ?_)
    have hglobal₁ := h₁.shows.globals x
    rw [hv, Option.map_some, hglobal, Option.some_inj] at hglobal₁
    obtain ⟨hlow, hhigh⟩ := L.global_lt hv
    have := hsafe.le
    have := h₁.stacked.sp_le L.wordSize_pos
    have := L.globals_le
    have := h₁.sp_le
    have := h₁.fp_le
    refine h₁.line_load L hload ?_ hsafe
    rw [toInt_ofInt_of_inStack hlow (by omega)]
    exact hglobal₁.symm

end Variables

/-! ## Expressions -/

section Expressions

variable {σ : Scope} {code : Assembly} {img : Image} {d : Int} {f : Bindings}
  {call : String → List Int32 → Eval Int32}

/-- The code `F` does what the interpreter does with `e`. -/
def ExprSimulates (σ : Scope) (code : Assembly) (img : Image) (d : Int)
    (call : String → List Int32 → Eval Int32) (f : Bindings) (e : Expr) (F : Assembly) : Prop :=
  e.arrayFree → ArgsMatch σ.table e.calls → ∀ {k base vs w s}, code.HasAt k F → Sees σ f base →
    At σ.table base k vs w s →
    Simulates σ.table img d (e.eval call f w)
      (fun v w' => At σ.table base (k + F.length) (v :: vs) w') s

/-- The code `F` does what the interpreter does with arguments. -/
def ArgsSimulate (σ : Scope) (code : Assembly) (img : Image) (d : Int)
    (call : String → List Int32 → Eval Int32) (f : Bindings) (es : List Expr) (F : Assembly) : Prop :=
  Expr.allArrayFree es → ArgsMatch σ.table (Expr.callsReversed es) →
    ∀ {k base vs w s}, code.HasAt k F → Sees σ f base → At σ.table base k vs w s →
    Simulates σ.table img d (Expr.evalReversed call f es w)
      (fun us w' s' => us.length = es.length ∧
        At σ.table base (k + F.length) (us ++ vs) w' s') s

theorem Expr.simulates (L : Linked σ.table code img d)
    (hcall : CallsSimulate σ.table code img d call) :
    Expr.Rules σ (ExprSimulates σ code img d call f) (fun _ _ => True)
      (ArgsSimulate σ code img d call f) (fun _ _ => True) where
  int v l _ _ _ _ _ _ _ hcode _ h := .ok (h.line_push L hcode.head)
  null l _ _ _ _ _ _ _ hcode _ h := .ok (h.line_push L hcode.head)
  var hv _ _ _ _ _ _ _ hcode hsees h := simulates_readVar L hv hsees hcode h
  not {e l F} he hfree hargs k base vs w s hcode hsees h := by
    rw [Expr.eval, List.length_append, ← Nat.add_assoc]
    refine (he hfree hargs hcode.left hsees h).bind fun v w' s' h' => ?_
    exact .ok (h'.line_testZ L hcode.right.head)
  neg {e l F} he hfree hargs k base vs w s hcode hsees h := by
    rw [Expr.eval, List.length_append, ← Nat.add_assoc]
    refine .after (h.line_push L hcode.left.head) fun s₁ h₁ => ?_
    refine (he hfree hargs hcode.left.tail hsees h₁).bind fun v w' s' h' => ?_
    have hcode' := hcode.right.head
    rw [List.length_append, ← Nat.add_assoc] at hcode' ⊢
    exact .ok (h'.line_sub L hcode')
  binary {op a b l F G} ha hb hfree hargs k base vs w s hcode hsees h := by
    rw [Expr.arrayFree, Bool.and_eq_true] at hfree
    rw [Expr.eval]
    refine (ha hfree.1 hargs.left hcode.left.left.left hsees h).bind fun u w₁ s₁ h₁ => ?_
    refine .after (op.leads_afterLeft L hcode.left.left.right h₁) fun s₂ h₂ => ?_
    have hb' := hb hfree.2 hargs.right (k := k + F.length + op.afterLeft.length) (s := s₂)
      (by simpa [Nat.add_assoc] using hcode.left.right) hsees h₂
    refine hb'.bind fun v w₂ s₃ h₃ => ?_
    have hright := op.simulates_afterRight L (by simpa [Nat.add_assoc] using hcode.right) h₃
    simpa [Nat.add_assoc] using hright
  index _ _ hfree := by cases hfree
  length _ hfree := by cases hfree
  new _ hfree := by cases hfree
  call {g es l m F} hm hes hfree hargs k base vs w s hcode hsees h := by
    rw [Expr.eval, List.length_append, ← Nat.add_assoc]
    refine (hes hfree hargs.left hcode.left hsees h).bind fun us w₁ s₁ h₁ => ?_
    have hlength : es.length = m.params.length := hargs.right ⟨g, es.length⟩ (by simp) m hm
    have hcallCode := hcode.right
    rw [← h₁.1] at hcallCode
    exact hcall hm (h₁.1.trans hlength) hcallCode h₁.2
  all_nil := trivial
  all_cons _ _ := trivial
  reversed_nil _ _ _ _ _ _ _ _ _ h := .ok (.here ⟨rfl, h⟩)
  reversed_cons {e es F G} he hes hfree hargs k base vs w s hcode hsees h := by
    rw [Expr.allArrayFree, Bool.and_eq_true] at hfree
    rw [Expr.evalReversed, List.length_append, ← Nat.add_assoc]
    refine (hes hfree.2 hargs.left hcode.left hsees h).bind fun us w₁ s₁ h₁ => ?_
    refine (he hfree.1 hargs.right hcode.right hsees h₁.2).bind fun u w₂ s₂ h₂ => ?_
    exact .ok (.here ⟨congrArg (· + 1) h₁.1, h₂⟩)
  element_nil := trivial
  element_cons _ _ := trivial

end Expressions

end Lpl
