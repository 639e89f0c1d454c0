import Lpl.Proofs.Emission

/-!
# Calls in trees and in code

The calls of a tree, each with its number of arguments, in the order in which the code generator
comes to them: the last argument of a call first and the call itself last, the arms of a switch
before its subject. The call instructions of emitted code are these calls, in this order, and every
method that is called has been declared.
-/

namespace Lpl

/-- A call: the name of the method and the number of arguments. -/
structure CallSite where
  method : String
  argc : Nat
deriving DecidableEq, Repr

mutual

/-- The calls of an expression. -/
def Expr.calls : Expr → List CallSite
  | .int .. | .null _ | .var .. => []
  | .unary _ e _ | .length e _ => e.calls
  | .binary _ a b _ => a.calls ++ b.calls
  | .index _ es _ | .new es _ _ => Expr.callsAll es
  | .call f es _ => Expr.callsReversed es ++ [⟨f, es.length⟩]

/-- The calls of expressions, the first one first. -/
def Expr.callsAll : List Expr → List CallSite
  | [] => []
  | e :: es => e.calls ++ Expr.callsAll es

/-- The calls of expressions, the last one first. -/
def Expr.callsReversed : List Expr → List CallSite
  | [] => []
  | e :: es => Expr.callsReversed es ++ e.calls

end

mutual

/-- The calls of a statement. -/
def Stmt.calls : Stmt → List CallSite
  | .assign _ e _ | .print _ e _ => e.calls
  | .assignAt _ es e _ => Expr.callsAll es ++ e.calls
  | .ifThen c s _ | .whileDo c s _ => c.calls ++ s.calls
  | .ifElse c s t _ => c.calls ++ s.calls ++ t.calls
  | .switch e cs d _ => SwitchCase.callsAll cs ++ e.calls ++ d.calls
  | .block ss _ => Stmt.callsAll ss
  | .newline _ => []
  | .ret v _ => (v.map Expr.calls).getD []
  | .call f es _ => Expr.callsReversed es ++ [⟨f, es.length⟩]

/-- The calls of statements in order. -/
def Stmt.callsAll : List Stmt → List CallSite
  | [] => []
  | s :: ss => s.calls ++ Stmt.callsAll ss

/-- The calls of the arms of a switch. -/
def SwitchCase.callsAll : List SwitchCase → List CallSite
  | [] => []
  | .mk _ s _ :: cs => s.calls ++ SwitchCase.callsAll cs

end

/-- The calls of a program: those of its main body, then those of its methods. -/
def Program.calls (p : Program) : List CallSite :=
  Stmt.callsAll p.body ++ p.methods.flatMap fun m => Stmt.callsAll m.body

/-- The label that a line calls. -/
def Instruction.called? : Instruction → Option String
  | call l => some l
  | _ => none

/-- The labels that are called, in order. -/
def Assembly.called (code : Assembly) : List String := code.filterMap Instruction.called?

@[simp] theorem called_append (F G : Assembly) :
    Assembly.called (F ++ G) = Assembly.called F ++ Assembly.called G :=
  List.filterMap_append

/-- The called labels of `F` are those of `sites`, and every method called has been declared. -/
structure CallsOf (t : Table) (F : Assembly) (sites : List CallSite) : Prop where
  called : F.called = sites.map fun c => methodLabel c.method
  declared : ∀ c ∈ sites, ∃ m, t.method? c.method = some m

namespace CallsOf

variable {t : Table} {F G : Assembly} {cs ds : List CallSite}

/-- Code without calls. -/
theorem none (h : F.called = []) : CallsOf t F [] := ⟨h, by simp⟩

theorem append (hF : CallsOf t F cs) (hG : CallsOf t G ds) : CallsOf t (F ++ G) (cs ++ ds) where
  called := by rw [called_append, hF.called, hG.called, List.map_append]
  declared c hc := (List.mem_append.1 hc).elim (hF.declared c) (hG.declared c)

/-- Code without calls in front. -/
theorem after (hG : G.called = []) (hF : CallsOf t F cs) : CallsOf t (G ++ F) cs :=
  (none hG).append hF

/-- Code without calls behind. -/
theorem before (hF : CallsOf t F cs) (hG : G.called = []) : CallsOf t (F ++ G) cs := by
  simpa using hF.append (none hG)

theorem call {f : String} {m : Signature} (hm : t.method? f = some m) (n : Nat) :
    CallsOf t (callCode f n) [⟨f, n⟩] :=
  ⟨rfl, by simp [hm]⟩

end CallsOf

theorem called_address (w : Nat) (p : Place) : Assembly.called (p.address w) = [] := by
  cases p <;> rfl

theorem called_afterLeft (op : BinaryOp) : Assembly.called op.afterLeft = [] := by
  cases op <;> rfl

theorem called_afterRight (op : BinaryOp) : Assembly.called op.afterRight = [] := by
  cases op <;> rfl

theorem called_print (k : PrintKind) : Assembly.called k.code = [] := by
  cases k <;> rfl

theorem called_dispatch (word : String) (cs : List SwitchCase) (labels : List String) :
    Assembly.called (dispatch word cs labels) = [] := by
  simp [Assembly.called, dispatch, List.filterMap_flatMap, Instruction.called?]

theorem Expr.callsRules (σ : Scope) :
    Expr.Rules σ (fun e F => CallsOf σ.table F e.calls)
      (fun es F => CallsOf σ.table F (Expr.callsAll es))
      (fun es F => CallsOf σ.table F (Expr.callsReversed es))
      (fun es F => CallsOf σ.table F (Expr.callsAll es)) where
  int _ _ := .none rfl
  null _ := .none rfl
  var _ := .none (by simp [called_address]; rfl)
  not h := h.before rfl
  neg h := (h.after rfl).before rfl
  binary ha hb := ((ha.before (called_afterLeft _)).append hb).before (called_afterRight _)
  index _ h := (h.after (called_address _ _)).before rfl
  length h := h.before rfl
  new h := h.before rfl
  call hm h := h.append (.call hm _)
  all_nil := .none rfl
  all_cons he hes := he.append hes
  reversed_nil := .none rfl
  reversed_cons he hes := hes.append he
  element_nil := .none rfl
  element_cons he hes := ((he.after rfl).before rfl).append hes

theorem Stmt.callsRules (σ : Scope) :
    Stmt.Rules σ (fun s _ F _ => CallsOf σ.table F s.calls)
      (fun ss _ F _ => CallsOf σ.table F (Stmt.callsAll ss))
      (fun _ cs _ _ F _ => CallsOf σ.table F (SwitchCase.callsAll cs)) where
  assign _ he := (((Expr.callsRules σ).code _ he).1.after (called_address _ _)).before rfl
  assignAt _ hes he := by
    have ces := ((Expr.callsRules σ).element _ hes).1
    have ce := ((Expr.callsRules σ).code _ he).1
    exact ((ces.after (called_address _ _)).append ce).before rfl
  ifThen hc hs := ((((Expr.callsRules σ).code _ hc).1.before rfl).append hs).before rfl
  ifElse hc hs ht := by
    have cc := ((Expr.callsRules σ).code _ hc).1
    exact ((((cc.before rfl).append hs).before rfl).append ht).before rfl
  whileDo hc hs := by
    have cc := ((Expr.callsRules σ).code _ hc).1
    exact (((cc.after rfl).before rfl).append hs).before rfl
  switch _ hG he hd := by
    have ce := ((Expr.callsRules σ).code _ he).1
    exact (((((((hG.after rfl).before rfl).append ce).before rfl).before
      (called_dispatch _ _ _)).before rfl).append hd).before rfl
  block h := h
  print he := ((Expr.callsRules σ).code _ he).1.before (called_print _)
  newline := .none rfl
  ret_some _ he := ((Expr.callsRules σ).code _ he).1.before rfl
  ret_none _ := .none rfl
  call hm hes := (((Expr.callsRules σ).reversed _ hes).1.append (.call hm _)).before rfl
  all_nil := .none rfl
  all_cons hs hss := hs.append hss
  cases_nil := .none rfl
  cases_cons hs hcs := ((hs.after rfl).before rfl).append hcs

theorem called_replicate_push (n : Nat) (v : Int32) :
    Assembly.called (List.replicate n (.push v)) = [] := by
  simp [Assembly.called, Instruction.called?]

theorem callsOf_method {σ : Scope} {m : Method} {ls ls' : Labels} {F : Assembly}
    (h : Emits (m.code σ) ls () F ls') : CallsOf σ.table F (Stmt.callsAll m.body) := by
  obtain ⟨s, B, -, -, hB, rfl⟩ := emits_method.1 h
  have hB : CallsOf σ.table B _ := (Stmt.callsRules (σ.inside s)).all _ hB
  have hm := ((hB.after (called_replicate_push s.locals.length 0)).after
    (G := [.label (methodLabel m.name)]) rfl).before
    (G := [.push 0, .push (.ofNat s.frameSize), .ret]) rfl
  simpa [methodCode] using hm

theorem callsOf_methods {σ : Scope} {ms : List Method} {ls ls' : Labels} {G : Assembly}
    (h : Emits (methodsCode σ ms) ls () G ls') :
    CallsOf σ.table G (ms.flatMap fun m => Stmt.callsAll m.body) := by
  induction ms generalizing ls G with
  | nil =>
    obtain ⟨-, rfl, -⟩ := (emits_pure _ _).1 h
    exact .none rfl
  | cons m ms ih =>
    obtain ⟨_, F, _, G, hm, hms, rfl⟩ := emits_bind.1 h
    rw [List.flatMap_cons]
    exact (callsOf_method hm).append (ih hms)

theorem called_dataSegment (labels : List String) : Assembly.called (dataSegment labels) = [] := by
  cases labels <;> simp [dataSegment, Assembly.called, Instruction.called?]

/-- The calls in the code of a program are the calls of the program. -/
theorem callsOf_program {σ : Scope} {p : Program} {ls ls' : Labels} {F : Assembly}
    (h : Emits (p.code σ) ls () F ls') : CallsOf σ.table F p.calls := by
  obtain ⟨B, _, G, hB, hG, rfl⟩ := emits_program.1 h
  have hB := ((Stmt.callsRules σ).all _ hB).before (G := [.halt]) rfl
  exact (hB.append (callsOf_methods hG)).before (called_dataSegment _)

end Lpl
