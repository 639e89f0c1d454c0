import Lpl.Proofs.Simulation.Basic

/-!
# What is known of the words on the stack

Heights alone do not tell where a `store` goes or how many words a `ret` gives up: that depends on words
on the stack. So each word below the frame pointer has a `Slot` that says what is known of it: nothing,
its value, or that it is the address of a place. `Flows` is what a line makes of the slots, and `Walk`
goes along the lines.

Statements stand where only the locals are on the stack, the `floor` of the scope, and nothing is known of
these. A call takes as many slots as the method has parameters, so the code has to come from a tree whose
calls match.
-/

namespace Lpl

/-- What is known of a word on the stack. -/
inductive Slot where
  | any
  | const (v : Int32)
  /-- The frame pointer. -/
  | frame
  /-- The address of a place. -/
  | place (p : Place)
deriving DecidableEq, Repr

/-- The slot of what the address of a place is counted from. -/
def Place.origin : Place → Slot
  | global _ => .const 0
  | param _ | localVar _ => .frame

/-- The slots between statements: those of the locals. -/
def Scope.floor (σ : Scope) : List Slot :=
  match σ.active with
  | none => []
  | some m => List.replicate m.locals.length .any

/-- The place is that of a variable. -/
def Scope.HasPlace (σ : Scope) (p : Place) : Prop := ∃ x v, σ.find? x = some v ∧ v.place = p

/-! ## Lines -/

/-- What a line makes of the slots, the topmost one first. Behind a `ret` and a `halt` any slots will do,
as nothing gets there. -/
inductive Flows (σ : Scope) : Instruction → List Slot → List Slot → Prop
  | push {v K} : Flows σ (.push v) K (.const v :: K)
  | value {v K} : Flows σ (.push v) K (.any :: K)
  | getFp {K} : Flows σ .getFp K (.frame :: K)
  | getDp {K} : Flows σ .getDp K (.const 0 :: K)
  | address {p K} : Flows σ .add
      (.const (.ofInt (p.displacement σ.table.wordSize)) :: p.origin :: K) (.place p :: K)
  | load {a K} : Flows σ .load (a :: K) (.any :: K)
  | store {p a X} : σ.HasPlace p → Flows σ .store (a :: .place p :: (X ++ σ.floor)) (X ++ σ.floor)
  | loadi {l K} : Flows σ (.loadi l) K (.any :: K)
  | storei {l a K} : Flows σ (.storei l) (a :: K) K
  | add {a b K} : Flows σ .add (a :: b :: K) (.any :: K)
  | sub {a b K} : Flows σ .sub (a :: b :: K) (.any :: K)
  | mul {a b K} : Flows σ .mul (a :: b :: K) (.any :: K)
  | div {a b K} : Flows σ .div (a :: b :: K) (.any :: K)
  | testZ {a K} : Flows σ .testZ (a :: K) (.any :: K)
  | testN {a K} : Flows σ .testN (a :: K) (.any :: K)
  | outDec {a K} : Flows σ .outDec (a :: K) K
  | outChar {a K} : Flows σ .outChar (a :: K) K
  | label {l K} : (labelMark l = some '$' → K = σ.floor) → Flows σ (.label l) K K
  | jump {l} : Flows σ (.jump l) σ.floor σ.floor
  | jumpIfZero {l a} : Flows σ (.jumpIfZero l) (a :: σ.floor) σ.floor
  | call {f m args K} : σ.table.method? f = some m → args.length = m.params.length →
      Flows σ (.call (methodLabel f)) (.const (.ofNat args.length) :: (args ++ K)) (.any :: K)
  | ret {m a K} : σ.active = some m →
      Flows σ .ret (.const (.ofNat m.frameSize) :: a :: σ.floor) K
  | halt {K} : σ.active = none → Flows σ .halt [] K

/-! ## Walks -/

/-- A walk along code, from the slots it starts with to those it ends with. -/
inductive Walk (σ : Scope) : List Slot → Assembly → List Slot → Prop
  | nil {K} : Walk σ K [] K
  | cons {i F K K₁ K'} : Flows σ i K K₁ → Walk σ K₁ F K' → Walk σ K (i :: F) K'

namespace Walk

variable {σ : Scope} {F G : Assembly} {K K₁ K' : List Slot}

theorem append (hF : Walk σ K F K₁) (hG : Walk σ K₁ G K') : Walk σ K (F ++ G) K' := by
  induction hF with
  | nil => exact hG
  | cons hi _ ih => exact .cons hi (ih hG)

theorem split (h : Walk σ K (F ++ G) K') : ∃ K₁, Walk σ K F K₁ ∧ Walk σ K₁ G K' := by
  induction F generalizing K with
  | nil => exact ⟨K, .nil, h⟩
  | cons i F ih =>
    cases h with
    | cons hi h =>
      obtain ⟨K₁, hF, hG⟩ := ih h
      exact ⟨K₁, .cons hi hF, hG⟩

theorem single {i : Instruction} (h : Flows σ i K K') : Walk σ K [i] K' := .cons h .nil

theorem label (l : String) : Walk σ σ.floor [.label l] σ.floor := .single (.label fun _ => rfl)

theorem jump (l : String) : Walk σ σ.floor [.jump l] σ.floor := .single .jump

theorem jump_label (l l' : String) : Walk σ σ.floor [.jump l, .label l'] σ.floor :=
  (jump l).append (label l')

theorem jumpIfZero (l : String) (a : Slot) : Walk σ (a :: σ.floor) [.jumpIfZero l] σ.floor :=
  .single .jumpIfZero

theorem push_ret {m : Signature} (hm : σ.active = some m) (a : Slot) :
    Walk σ (a :: σ.floor) [.push (.ofNat m.frameSize), .ret] K :=
  .cons .push (.single (.ret hm))

theorem address (p : Place) : Walk σ K (p.address σ.table.wordSize) (.place p :: K) := by
  cases p with
  | global _ => exact .cons .getDp (.cons .push (.single (.address (p := .global _))))
  | param _ => exact .cons .getFp (.cons .push (.single (.address (p := .param _))))
  | localVar _ => exact .cons .getFp (.cons .push (.single (.address (p := .localVar _))))

theorem afterLeft (op : BinaryOp) : Walk σ (.any :: K) op.afterLeft (.any :: K) := by
  cases op with
  | and => exact .cons .testZ (.single .testZ)
  | or => exact .single .testZ
  | _ => exact .nil

theorem afterRight (op : BinaryOp) : Walk σ (.any :: .any :: K) op.afterRight (.any :: K) := by
  cases op with
  | add => exact .single .add
  | sub => exact .single .sub
  | mul => exact .single .mul
  | div => exact .single .div
  | less => exact .cons .sub (.single .testN)
  | lessEq => exact .cons .sub (.cons .push (.cons .sub (.single .testN)))
  | equal => exact .cons .sub (.single .testZ)
  | and => exact .cons .testZ (.cons .testZ (.single .mul))
  | or => exact .cons .testZ (.cons .mul (.single .testZ))

theorem print (k : PrintKind) : Walk σ (.any :: K) k.code K := by
  cases k with
  | number => exact .single .outDec
  | line => exact .cons .outDec (.cons .push (.single .outChar))
  | character => exact .single .outChar

theorem locals (n : Nat) :
    Walk σ K (List.replicate n (.push 0)) (List.replicate n .any ++ K) := by
  induction n generalizing K with
  | zero => exact .nil
  | succ n ih =>
    have hrest : Walk σ (.any :: K) (List.replicate n (.push 0)) _ := ih
    rw [← List.singleton_append, ← List.append_assoc, ← List.replicate_succ'] at hrest
    exact .cons .value hrest

theorem dispatch (word : String) (cs : List SwitchCase) (labels : List String) :
    Walk σ σ.floor (dispatch word cs labels) σ.floor := by
  unfold Lpl.dispatch
  induction cs.zip labels with
  | nil => exact .nil
  | cons p ps ih => exact .cons .loadi (.cons .push (.cons .sub (.cons .jumpIfZero ih)))

end Walk

/-! ## The walk along emitted code -/

/-- Code that leaves slots `B` on top, whatever is between it and the locals. -/
def Leaves (σ : Scope) (F : Assembly) (B : List Slot) : Prop :=
  ∀ X, Walk σ (X ++ σ.floor) F (B ++ (X ++ σ.floor))

namespace Leaves

variable {σ : Scope} {F : Assembly} {a : Slot} {B : List Slot}

/-- At statement level. -/
theorem level (h : Leaves σ F B) : Walk σ σ.floor F (B ++ σ.floor) := h []

/-- Above one more word. -/
theorem above (h : Leaves σ F B) (X : List Slot) :
    Walk σ (a :: (X ++ σ.floor)) F (B ++ a :: (X ++ σ.floor)) :=
  h (a :: X)

theorem call {f : String} {m : Signature} {n : Nat} (h : Leaves σ F (List.replicate n .any))
    (hm : σ.table.method? f = some m) (hn : n = m.params.length) :
    Leaves σ (F ++ callCode f n) [.any] := by
  intro X
  have hcall : Walk σ (List.replicate n .any ++ (X ++ σ.floor)) (callCode f n)
      (.any :: (X ++ σ.floor)) := by
    have hflows : Flows σ (.call (methodLabel f))
        (.const (.ofNat (List.replicate n Slot.any).length) :: (List.replicate n .any ++ (X ++ σ.floor)))
        (.any :: (X ++ σ.floor)) := .call hm (by simpa using hn)
    rw [List.length_replicate] at hflows
    exact .cons .push (.single hflows)
  exact (h X).append hcall

end Leaves

/-- Expressions leave a word of which nothing is known. -/
theorem Expr.leaves (σ : Scope) :
    Expr.Rules σ
      (fun e F => e.arrayFree → ArgsMatch σ.table e.calls → Leaves σ F [.any])
      (fun _ _ => True)
      (fun es F => Expr.allArrayFree es → ArgsMatch σ.table (Expr.callsReversed es) →
        Leaves σ F (List.replicate es.length .any))
      (fun _ _ => True) where
  int _ _ _ _ _ := .single .value
  null _ _ _ _ := .single .value
  var _ _ _ _ := (Walk.address _).append (.single .load)
  not he hfree hargs X := (he hfree hargs X).append (.single .testZ)
  neg he hfree hargs X :=
    ((Walk.single .value).append ((he hfree hargs).above X)).append (.single .sub)
  binary {op a b l F G} ha hb hfree hargs X := by
    rw [Expr.arrayFree, Bool.and_eq_true] at hfree
    have hleft := (ha hfree.1 hargs.left X).append (.afterLeft op)
    have hright := ((hb hfree.2 hargs.right).above X).append (.afterRight op)
    simpa using hleft.append hright
  index _ _ hfree := by cases hfree
  length _ hfree := by cases hfree
  new _ hfree := by cases hfree
  call {f es l m F} hm hes hfree hargs :=
    (hes hfree hargs.left).call hm (hargs.right ⟨f, es.length⟩ (by simp) m hm)
  all_nil := trivial
  all_cons _ _ := trivial
  reversed_nil _ _ _ := .nil
  reversed_cons {e es F G} he hes hfree hargs X := by
    rw [Expr.allArrayFree, Bool.and_eq_true] at hfree
    have hlast := he hfree.1 hargs.right (List.replicate es.length .any ++ X)
    rw [List.append_assoc] at hlast
    exact (hes hfree.2 hargs.left X).append hlast
  element_nil := trivial
  element_cons _ _ := trivial

/-- Statements leave nothing. -/
theorem Stmt.walks (σ : Scope) :
    Stmt.Rules σ
      (fun s _ F _ => s.arrayFree → ArgsMatch σ.table s.calls → Walk σ σ.floor F σ.floor)
      (fun ss _ F _ => Stmt.allArrayFree ss → ArgsMatch σ.table (Stmt.callsAll ss) →
        Walk σ σ.floor F σ.floor)
      (fun _ cs _ _ F _ => SwitchCase.allArrayFree cs → ArgsMatch σ.table (SwitchCase.callsAll cs) →
        Walk σ σ.floor F σ.floor) where
  assign {x e l v ls F} hv he hfree hargs := by
    have hvalue := (((Expr.leaves σ).code _ he).1 hfree hargs).above (a := .place v.place) []
    exact ((Walk.address v.place).append hvalue).append (.single (.store (X := []) ⟨x, v, hv, rfl⟩))
  assignAt _ _ _ hfree := by cases hfree
  ifThen hc hs hfree hargs := by
    rw [Stmt.arrayFree, Bool.and_eq_true] at hfree
    have hcondition := (((Expr.leaves σ).code _ hc).1 hfree.1 hargs.left).level
    exact ((hcondition.append (.jumpIfZero _ _)).append (hs hfree.2 hargs.right)).append (.label _)
  ifElse hc hs ht hfree hargs := by
    rw [Stmt.arrayFree, Bool.and_eq_true, Bool.and_eq_true] at hfree
    have hcondition := (((Expr.leaves σ).code _ hc).1 hfree.1.1 hargs.left.left).level
    exact ((((hcondition.append (.jumpIfZero _ _)).append (hs hfree.1.2 hargs.left.right)).append
      (.jump_label _ _)).append (ht hfree.2 hargs.right)).append (.label _)
  whileDo hc hs hfree hargs := by
    rw [Stmt.arrayFree, Bool.and_eq_true] at hfree
    have hcondition := (((Expr.leaves σ).code _ hc).1 hfree.1 hargs.left).level
    exact ((((Walk.label _).append hcondition).append (.jumpIfZero _ _)).append
      (hs hfree.2 hargs.right)).append (.jump_label _ _)
  switch {e cs d l ls ls₁ ls' G E D} _ hG he hd hfree hargs := by
    rw [Stmt.arrayFree, Bool.and_eq_true, Bool.and_eq_true] at hfree
    have harms := ((Walk.jump (placeLabel "switch_dispatch" ls.next)).append
      (hG hfree.1.2 hargs.left.left)).append (.label (placeLabel "switch_dispatch" ls.next))
    have hsubject := (((Expr.leaves σ).code _ he).1 hfree.1.1 hargs.left.right).level.append
      (.single (.storei (l := scratchLabel "switch")))
    have htest := (harms.append hsubject).append
      (.dispatch (scratchLabel "switch") cs (caseLabelsFrom (ls.next + 3) cs))
    have hdefault := ((htest.append (.label (placeLabel "switch_default" (ls.next + 2)))).append
      (hd hfree.2 hargs.right)).append (.label (placeLabel "switch_end" (ls.next + 1)))
    simpa [switchCode] using hdefault
  block h := h
  print he hfree hargs := (((Expr.leaves σ).code _ he).1 hfree hargs).level.append (.print _)
  newline _ _ := .cons .push (.single .outChar)
  ret_some hm he hfree hargs :=
    (((Expr.leaves σ).code _ he).1 hfree hargs).level.append (.push_ret hm _)
  ret_none hm _ _ := (Walk.single .value).append (.push_ret hm _)
  call {f es l m ls F} hm hes hfree hargs := by
    have hargsCode := ((Expr.leaves σ).reversed _ hes).1 hfree hargs.left
    have hcall := hargsCode.call hm (hargs.right ⟨f, es.length⟩ (by simp) m hm)
    exact hcall.level.append (.single .storei)
  all_nil _ _ := .nil
  all_cons hs hss hfree hargs := by
    rw [Stmt.allArrayFree, Bool.and_eq_true] at hfree
    exact (hs hfree.1 hargs.left).append (hss hfree.2 hargs.right)
  cases_nil _ _ := .nil
  cases_cons hs hcs hfree hargs := by
    rw [SwitchCase.allArrayFree, Bool.and_eq_true] at hfree
    exact (((Walk.label _).append (hs hfree.1 hargs.left)).append (.jump _)).append
      (hcs hfree.2 hargs.right)

/-! ## Bodies in code -/

/-- The lines `F` of a body, the main one or that of a method, stand in the code from line `start` on.
They start with no slots, do not end without a `ret` or `halt`, and jump to labels of their own. -/
structure Laid (code : Assembly) (σ : Scope) (start : Nat) (F : Assembly) : Prop where
  placed : code.HasAt start F
  walk : ∃ K, Walk σ [] F K
  ends : F.getLast? = some .halt ∨ F.getLast? = some .ret
  jumps : ∀ {l}, l ∈ F.targets → labelMark l = some '$' ∧ .label l ∈ F

/-- Line `k` is one of a body, where the slots `K` are on the stack. -/
def Stands (code : Assembly) (σ : Scope) (k : Nat) (K : List Slot) : Prop :=
  ∃ start A i B K', Laid code σ start (A ++ i :: B) ∧ k = start + A.length ∧ Walk σ K (i :: B) K'

section Bodies

variable {code : Assembly} {σ : Scope} {k start : Nat} {F : Assembly} {K : List Slot}

/-- A body starts with no slots. -/
theorem Laid.stands (h : Laid code σ start F) : Stands code σ start [] := by
  obtain ⟨K, hwalk⟩ := h.walk
  cases F with
  | nil =>
    have hends := h.ends
    simp at hends
  | cons i B => exact ⟨start, [], i, B, K, h, rfl, hwalk⟩

/-- A label that is jumped to stands at the floor. -/
theorem Laid.stands_label (h : Laid code σ start F) {l : String} (hl : l ∈ F.targets) :
    ∃ n, code[n]? = some (.label l) ∧ Stands code σ n σ.floor := by
  obtain ⟨hmark, hmem⟩ := h.jumps hl
  obtain ⟨A, B, rfl⟩ := List.append_of_mem hmem
  obtain ⟨K, hwalk⟩ := h.walk
  obtain ⟨K₁, -, hrest⟩ := hwalk.split
  have hfloor : K₁ = σ.floor := by
    cases hrest with
    | cons hlabel _ =>
      cases hlabel with
      | label hplace => exact hplace hmark
  exact ⟨start + A.length, h.placed.right.head, start, A, _, B, K, h, rfl, hfloor ▸ hrest⟩

/-- All there is to a line: what it makes of the slots, that it is not the last one unless it is a `ret`
or a `halt`, and where it jumps to. -/
theorem Stands.line (h : Stands code σ k K) :
    ∃ i K₁, code[k]? = some i ∧ Flows σ i K K₁ ∧
      (i ≠ .halt → i ≠ .ret → Stands code σ (k + 1) K₁) ∧
      ∀ l, i.target? = some l → ∃ n, code[n]? = some (.label l) ∧ Stands code σ n σ.floor := by
  obtain ⟨start, A, i, B, K', hlaid, rfl, hwalk⟩ := h
  cases hwalk with
  | @cons _ _ _ K₁ _ hflows hrest =>
    refine ⟨i, K₁, hlaid.placed.right.head, hflows, fun hhalt hret => ?_, fun l hl => ?_⟩
    · cases B with
      | nil =>
        have hends := hlaid.ends
        rw [List.getLast?_concat, Option.some_inj, Option.some_inj] at hends
        exact absurd hends (not_or.2 ⟨hhalt, hret⟩)
      | cons i' B =>
        refine ⟨start, A ++ [i], i', B, K', by simpa using hlaid, ?_, hrest⟩
        rw [List.length_append, ← Nat.add_assoc]
        rfl
    · refine hlaid.stands_label (List.mem_filterMap.2 ⟨i, ?_, hl⟩)
      simp

end Bodies

end Lpl
