import Lpl.Proofs.Lines
import Lpl.Proofs.Simulation.Expr

/-!
# Comparisons

A comparison subtracts its operands and tests the sign of the difference, or whether it is 0. The
machine subtracts modulo 2^32.

**Theorem (`Expr.comparison_leaves`).** When the code of the operands leaves `u` and `v`, the code of a
comparison leaves 1 or 0. For `==` it says whether the words are equal. For `<` and `<=` it says
whether `u` and `v` are in that order as signed numbers as long as the number whose sign is tested fits
in a word, and the opposite where it does not.
-/

namespace Lpl

open Machine Numeral

/-! ## Signs of wrapped differences -/

/-- A wrapped number has the sign of the number, unless it did not fit. -/
theorem bmod_neg_iff {n : Int} (hlow : -4294967296 ≤ n) (hhigh : n < 4294967296) :
    n.bmod 4294967296 < 0 ↔ (n < 0 ↔ Within half32 n) := by
  rw [Within, half32, Int.bmod_eq_emod]
  split <;> omega

theorem toInt_bounds (a : Int32) : -2147483648 ≤ a.toInt ∧ a.toInt < 2147483648 :=
  ⟨a.le_toInt, a.toInt_lt⟩

/-- A comparison operator. -/
inductive Comparison where
  | less
  | lessEq
  | equal
deriving DecidableEq, Repr

namespace Comparison

def op : Comparison → BinaryOp
  | less => .less
  | lessEq => .lessEq
  | equal => .equal

/-- The relation of signed numbers that the operator names. -/
def Holds : Comparison → Int → Int → Prop
  | less, a, b => a < b
  | lessEq, a, b => a ≤ b
  | equal, a, b => a = b

/-- The number whose sign decides fits in a word. Equality is decided by zero alone. -/
def Fits : Comparison → Int → Int → Prop
  | less, a, b => Within half32 (a - b)
  | lessEq, a, b => Within half32 (a - b - 1)
  | equal, _, _ => True

instance (c : Comparison) (a b : Int) : Decidable (c.Holds a b) := by
  cases c <;> unfold Holds <;> infer_instance

instance (c : Comparison) (a b : Int) : Decidable (c.Fits a b) := by
  cases c <;> unfold Fits <;> infer_instance

end Comparison

theorem sub_neg_iff (a b : Int32) :
    (a - b).toInt < 0 ↔ (a.toInt < b.toInt ↔ Within half32 (a.toInt - b.toInt)) := by
  have ha := toInt_bounds a
  have hb := toInt_bounds b
  have hlt : a.toInt - b.toInt < 0 ↔ a.toInt < b.toInt := by omega
  rw [Int32.toInt_sub, ← hlt]
  exact bmod_neg_iff (by omega) (by omega)

theorem sub_one_neg_iff (a b : Int32) :
    (a - b - 1).toInt < 0 ↔ (a.toInt ≤ b.toInt ↔ Within half32 (a.toInt - b.toInt - 1)) := by
  have ha := toInt_bounds a
  have hb := toInt_bounds b
  have hone : (1 : Int32).toInt = 1 := rfl
  have hle : a.toInt - b.toInt - 1 < 0 ↔ a.toInt ≤ b.toInt := by omega
  rw [Int32.toInt_sub, Int32.toInt_sub, hone, Int.bmod_sub_bmod, ← hle]
  exact bmod_neg_iff (by omega) (by omega)

/-! ## The code behind the operands -/

section

variable {img : Image} {base s : State} {k room : Nat} {u v : Int32} {vs : List Int32}

/-- The lines of a comparison take its operands and leave its truth value. -/
theorem Comparison.comes (c : Comparison)
    (hcode : Assembly.HasAt img.code.toList k c.op.afterRight)
    (h : Atop img.wordSize room base k (v :: u :: vs) s) :
    Comes img (Atop img.wordSize room base (k + c.op.afterRight.length)
      (truth (c.Holds u.toInt v.toInt ↔ c.Fits u.toInt v.toInt) :: vs)) s := by
  cases c with
  | less =>
    refine (h.line_sub hcode.head).then fun s₁ h₁ => ?_
    have hvalue := truth_congr (sub_neg_iff u v)
    exact hvalue ▸ (h₁.line_testN hcode.tail.head).comes
  | lessEq =>
    refine (h.line_sub hcode.head).then fun s₁ h₁ => ?_
    have hroom : ((u - v) :: vs).length < room := h.fits
    refine (h₁.line_push hcode.tail.head hroom).then fun s₂ h₂ => ?_
    refine (h₂.line_sub hcode.tail.tail.head).then fun s₃ h₃ => ?_
    have hvalue := truth_congr (sub_one_neg_iff u v)
    exact hvalue ▸ (h₃.line_testN hcode.tail.tail.tail.head).comes
  | equal =>
    refine (h.line_sub hcode.head).then fun s₁ h₁ => ?_
    have heq : u - v = 0 ↔ (u.toInt = v.toInt ↔ True) := by
      rw [word_sub_eq_zero, iff_true, Int32.toInt_inj]
    have hvalue := truth_congr heq
    exact hvalue ▸ (h₁.line_testZ hcode.tail.head).comes

end

/-! ## Comparisons of expressions -/

section

variable {img : Image} {s s₁ s₂ : State} {u v : Int32} {A B G : Assembly}

/-- Behind the code of both operands their values are on the stack, and nothing else is new. -/
theorem atop_of_leaves (hw : 0 < img.wordSize) (htop : s.sp ≤ stackTop) (hA : LeavesWord img A u s s₁)
    (hB : LeavesWord img B v s₁ s₂) :
    Stacked img.wordSize s [] (s₂.dropAll img.wordSize 2) ∧
      Atop img.wordSize 2 (s₂.dropAll img.wordSize 2) s₂.pc [v, u] s₂ := by
  have hboth : Stacked img.wordSize s [v, u] s₂ := hA.stacked.trans hw hB.stacked
  have hsp : s₂.sp + [v, u].length * img.wordSize = s.sp := by
    rw [hboth.sp]
    exact Int.sub_add_cancel _ _
  have hnone : s.sp = s.sp - ([] : List Int32).length * img.wordSize := by simp
  refine ⟨⟨hsp.trans hnone, nofun, hboth.above, hboth.fp, hboth.callDepths⟩, ?_⟩
  exact .of_words hw (Nat.le_refl 2) (by omega) hboth.words

end

theorem Comparison.afterLeft_op (c : Comparison) : c.op.afterLeft = [] := by
  cases c <;> rfl

/-- When the code of two expressions leaves `u` and `v`, the code of their comparison leaves 1 if these
are in the relation that the operator names and the number that it tests fits in a word, or if neither
is so, and 0 otherwise. Nothing else changes but words below the stack. -/
theorem Expr.comparison_leaves (c : Comparison) {σ : Scope} {ls ls₁ ls₂ : Labels} {a b : Expr}
    {l : Location} {A B : Assembly} (ha : Emits (a.code σ) ls () A ls₁)
    (hb : Emits (b.code σ) ls₁ () B ls₂) :
    ∃ F, Emits ((Expr.binary c.op a b l).code σ) ls () F ls₂ ∧
      ∀ (img : Image) (s s₁ s₂ : State) (u v : Int32), 0 < img.wordSize → s.sp ≤ stackTop →
        Assembly.HasAt img.code.toList s.pc F → LeavesWord img A u s s₁ → LeavesWord img B v s₁ s₂ →
        ∃ s₃, LeavesWord img F (truth (c.Holds u.toInt v.toInt ↔ c.Fits u.toInt v.toInt)) s s₃ ∧
          s₃.heap = s₂.heap ∧ s₃.output = s₂.output ∧
          ∀ x < s₂.sp, s₃.memory.read x = s₂.memory.read x := by
  refine ⟨A ++ (B ++ c.op.afterRight), ?_, ?_⟩
  · rw [Expr.code, emits_bind]
    refine ⟨(), A, ls₁, B ++ c.op.afterRight, ha, ?_, rfl⟩
    simp only [c.afterLeft_op, emits_emit_bind, emits_bind_emit]
    exact ⟨_, ⟨(), B, hb, rfl⟩, rfl⟩
  · intro img s s₁ s₂ u v hw htop hcode hA hB
    obtain ⟨hbase, hatop⟩ := atop_of_leaves hw htop hA hB
    have hpc : s₂.pc = s.pc + A.length + B.length := by rw [hB.pc, hA.pc]
    rw [hpc] at hatop
    obtain ⟨s₃, hreaches, h⟩ := c.comes hcode.right.right hatop
    refine ⟨s₃, ⟨hcode, (hA.reaches.trans hB.reaches).trans hreaches, ?_, ?_⟩, h.heap, h.output, ?_⟩
    · rw [h.pc, List.length_append, List.length_append]
      omega
    · exact hbase.trans hw h.stacked
    · intro x hx
      refine h.below x ?_
      show x < s₂.sp + (2 : Nat) * img.wordSize - (2 : Nat) * img.wordSize
      omega

/-! ### Two literals -/

theorem exists_leaves_literals {img : Image} {u v : Int32} {G : Assembly} (hw : 0 < img.wordSize)
    (hcode : Assembly.HasAt img.code.toList 0 (.push u :: .push v :: G)) :
    ∃ s₁ s₂, LeavesWord img [.push u] u (initial img) s₁ ∧ LeavesWord img [.push v] v s₁ s₂ :=
  ⟨_, _, leaves_push hw (hcode.left (F := [_])), leaves_push hw (hcode.tail.left (F := [_]))⟩

theorem hasAt_ofAssembly (w : Int) (code : Assembly) :
    Assembly.HasAt (Image.ofAssembly w code).code.toList 0 code :=
  .of_eq (A := []) (D := []) (by simp [Image.ofAssembly])

/-- The scope of a program without declarations. -/
def bareScope : Scope := ⟨⟨4, [], []⟩, none⟩

/-- The least word is at most -1, and the number tested for that is the least one that fits. -/
theorem Expr.comparison_leaves_least :
    ∃ F s', Emits ((Expr.binary .lessEq (.int (-2147483648) ⟨1, 7⟩) (.int (-1) ⟨1, 22⟩) ⟨1, 19⟩).code
        bareScope) {} () F {} ∧
      LeavesWord (.ofAssembly 4 F) F 1 (initial (.ofAssembly 4 F)) s' := by
  have ha : Emits ((Expr.int (-2147483648) ⟨1, 7⟩).code bareScope) {} () _ {} := ⟨rfl, rfl, rfl⟩
  have hb : Emits ((Expr.int (-1) ⟨1, 22⟩).code bareScope) {} () _ {} := ⟨rfl, rfl, rfl⟩
  obtain ⟨F, hF, hrun⟩ := Expr.comparison_leaves .lessEq (l := ⟨1, 19⟩) ha hb
  have hcode : F = [.push (-2147483648), .push (-1), .sub, .push 1, .sub, .testN] := hF.2.1.symm
  subst hcode
  have hat := hasAt_ofAssembly 4 [.push (-2147483648), .push (-1), .sub, .push 1, .sub, .testN]
  obtain ⟨s₁, s₂, hA, hB⟩ := exists_leaves_literals (by decide) hat
  obtain ⟨s', hs', -⟩ := hrun _ _ s₁ s₂ _ _ (by decide) (Int.le_refl _) hat hA hB
  exact ⟨_, s', hF, hs'⟩

/-- `-2147483648 < 1` -/
def leastLessOne : Expr := .binary .less (.int (-2147483648) ⟨1, 7⟩) (.int 1 ⟨1, 21⟩) ⟨1, 19⟩

/-- The code of a program that prints `leastLessOne`. -/
def printLeast : Assembly :=
  [.push (-2147483648), .push 1, .sub, .testN, .outDec, .halt]

/-- The machine is at the line that prints once only. -/
theorem eq_of_reaches_printLeast {w : Int} {s s' : State} (hpc : s.pc = 4) (hsp : s.sp < stackTop)
    (h : Reaches (.ofAssembly w printLeast) s s') (hpc' : s'.pc = 4) : s' = s := by
  rcases Relation.ReflTransGen.cases_head h with rfl | ⟨s₁, hstep, h₁⟩
  · rfl
  · have hprint : step (.ofAssembly w printLeast) s = _ := step_outDec hsp (by rw [hpc]; rfl)
    cases hstep.symm.trans hprint
    have hend := Reaches.eq_of_halt h₁ (step_halt (by rw [State.pc_goto, hpc]; rfl))
    rw [hend, State.pc_goto, hpc] at hpc'
    cases hpc'

/-- The code of `<` does not leave 1 for the least word and 1, since their difference does not fit in a
word. -/
theorem Expr.not_leaves_one_leastLessOne :
    (Program.compile {} ⟨[], [.print .number leastLessOne ⟨1, 1⟩], []⟩).result = .ok printLeast ∧
    Emits ((Expr.int (-2147483648) ⟨1, 7⟩).code bareScope) {} () [.push (-2147483648)] {} ∧
    Emits ((Expr.int 1 ⟨1, 21⟩).code bareScope) {} () [.push 1] {} ∧
    Emits (leastLessOne.code bareScope) {} () (printLeast.take 4) {} ∧
    (∃ s₁ s₂, LeavesWord (.ofAssembly 4 printLeast) [.push (-2147483648)] (-2147483648)
        (initial (.ofAssembly 4 printLeast)) s₁ ∧
      LeavesWord (.ofAssembly 4 printLeast) [.push 1] 1 s₁ s₂) ∧
    (-2147483648 : Int32).toInt < (1 : Int32).toInt ∧
    ¬ ∃ s', LeavesWord (.ofAssembly 4 printLeast) (printLeast.take 4) 1
      (initial (.ofAssembly 4 printLeast)) s' := by
  have hat := hasAt_ofAssembly 4 printLeast
  have hw : 0 < (Image.ofAssembly 4 printLeast).wordSize := by decide
  obtain ⟨s₁, s₂, hA, hB⟩ := exists_leaves_literals hw hat
  refine ⟨rfl, ⟨rfl, rfl, rfl⟩, ⟨rfl, rfl, rfl⟩, ⟨rfl, rfl, rfl⟩, ⟨s₁, s₂, hA, hB⟩, by decide, ?_⟩
  rintro ⟨s', hs'⟩
  obtain ⟨-, hatop⟩ := atop_of_leaves hw (Int.le_refl _) hA hB
  have hpc : s₂.pc = 2 := by rw [hB.pc, hA.pc]; rfl
  rw [hpc] at hatop
  obtain ⟨s₃, hreaches, h⟩ := Comparison.less.comes (hat.tail.tail.left (F := [.sub, .testN])) hatop
  have hzero : s₃.memory.read s₃.sp = 0 := h.stacked.top
  have hone : s'.memory.read s'.sp = 1 := hs'.stacked.top
  have hsp' : s'.sp < stackTop := hs'.stacked.sp_lt hw
  -- Both runs stop at the line that prints, so they are one run.
  have heq : s' = s₃ := by
    rcases hs'.reaches.total ((hA.reaches.trans hB.reaches).trans hreaches) with hto | hfrom
    · exact (eq_of_reaches_printLeast hs'.pc hsp' hto h.pc).symm
    · exact eq_of_reaches_printLeast h.pc h.sp_lt hfrom hs'.pc
  rw [heq, hzero] at hone
  exact absurd hone (by decide)

end Lpl
