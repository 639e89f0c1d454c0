import Lpl.Proofs.Printing.Words

/-!
# Reading a printed program

**Theorem (`parse_image`).** The programs that are read from texts are well formed, and a well-formed
program, written as text and read again, is the same but for its locations.

The words of a program are read back one by one (`reads_text`). Whatever tokens stand for these words,
the grammar derives the tree from them (`Prints`), up to locations. The proof follows the derivation that
the tree is well formed, and there each word of a phrase is the token that the rule of the grammar names.
-/

namespace Lpl

open Grammar Printing

/-! ## Trees without locations -/

mutual

/-- The expression with all locations forgotten. -/
def Expr.unlocated : Expr → Expr
  | .int v _ => .int v .start
  | .null _ => .null .start
  | .var x _ => .var x .start
  | .unary op e _ => .unary op e.unlocated .start
  | .binary op a b _ => .binary op a.unlocated b.unlocated .start
  | .index x es _ => .index x (Expr.unlocatedAll es) .start
  | .length a _ => .length a.unlocated .start
  | .new es n _ => .new (Expr.unlocatedAll es) n .start
  | .call f es _ => .call f (Expr.unlocatedAll es) .start

/-- The expressions with all locations forgotten. -/
def Expr.unlocatedAll : List Expr → List Expr
  | [] => []
  | e :: es => e.unlocated :: Expr.unlocatedAll es

end

mutual

/-- The statement with all locations forgotten. -/
def Stmt.unlocated : Stmt → Stmt
  | .assign x e _ => .assign x e.unlocated .start
  | .assignAt x es e _ => .assignAt x (es.map Expr.unlocated) e.unlocated .start
  | .ifThen c s _ => .ifThen c.unlocated s.unlocated .start
  | .ifElse c s t _ => .ifElse c.unlocated s.unlocated t.unlocated .start
  | .whileDo c s _ => .whileDo c.unlocated s.unlocated .start
  | .switch e cs d _ => .switch e.unlocated (SwitchCase.unlocatedAll cs) d.unlocated .start
  | .block ss _ => .block (Stmt.unlocatedAll ss) .start
  | .print k e _ => .print k e.unlocated .start
  | .newline _ => .newline .start
  | .ret v _ => .ret (v.map Expr.unlocated) .start
  | .call f es _ => .call f (es.map Expr.unlocated) .start

/-- The statements with all locations forgotten. -/
def Stmt.unlocatedAll : List Stmt → List Stmt
  | [] => []
  | s :: ss => s.unlocated :: Stmt.unlocatedAll ss

/-- The cases with all locations forgotten. -/
def SwitchCase.unlocatedAll : List SwitchCase → List SwitchCase
  | [] => []
  | .mk v s _ :: cs => .mk v s.unlocated .start :: SwitchCase.unlocatedAll cs

end

/-- The declaration with its location forgotten. -/
def Decl.unlocated (d : Decl) : Decl := { d with location := .start }

/-- The method with all locations forgotten. -/
def Method.unlocated (m : Method) : Method where
  name := m.name
  returnType := m.returnType
  params := m.params.map Decl.unlocated
  locals := m.locals.map Decl.unlocated
  body := m.body.map Stmt.unlocated
  location := .start

/-- The program with all locations forgotten. -/
def Program.unlocated (p : Program) : Program where
  globals := p.globals.map Decl.unlocated
  body := p.body.map Stmt.unlocated
  methods := p.methods.map Method.unlocated

@[simp] theorem Expr.unlocatedAll_eq_map (es : List Expr) :
    Expr.unlocatedAll es = es.map Expr.unlocated := by
  induction es with
  | nil => rfl
  | cons e es ih => rw [Expr.unlocatedAll, ih, List.map_cons]

@[simp] theorem Stmt.unlocatedAll_eq_map (ss : List Stmt) :
    Stmt.unlocatedAll ss = ss.map Stmt.unlocated := by
  induction ss with
  | nil => rfl
  | cons s ss ih => rw [Stmt.unlocatedAll, ih, List.map_cons]

/-- The case with all locations forgotten. -/
def SwitchCase.unlocated (c : SwitchCase) : SwitchCase := .mk c.value c.body.unlocated .start

@[simp] theorem SwitchCase.unlocatedAll_eq_map (cs : List SwitchCase) :
    SwitchCase.unlocatedAll cs = cs.map SwitchCase.unlocated := by
  induction cs with
  | nil => rfl
  | cons c cs ih =>
    obtain ⟨v, s, l⟩ := c
    rw [SwitchCase.unlocatedAll, ih, List.map_cons]
    rfl

theorem Stmt.takesElse_unlocated : (s : Stmt) → s.unlocated.takesElse = s.takesElse
  | .ifElse _ _ t _ => t.takesElse_unlocated
  | .whileDo _ s _ => s.takesElse_unlocated
  | .assign .. | .assignAt .. | .ifThen .. | .switch .. | .block .. | .print .. | .newline _
  | .ret .. | .call .. => rfl

/-! ## Tokens of words -/

section Words

variable {α : Type} {P : Phrase α} {us : List Token} {ws : List Word}

theorem Grammar.Many.exists_append {as bs : List α} (h : Many P us (as ++ bs)) :
    ∃ vs ws, us = vs ++ ws ∧ Many P vs as ∧ Many P ws bs := by
  induction as generalizing us with
  | nil => exact ⟨[], us, rfl, .nil, h⟩
  | cons a as ih =>
    obtain _ | @⟨vs, ws, _, _, ha, h⟩ := h
    obtain ⟨vs', ws', rfl, hvs, hws⟩ := ih h
    exact ⟨vs ++ vs', ws', by simp, .cons ha hvs, hws⟩

theorem mark_inv {k : Token.Kind} (h : Many Word.Spelled us (.mark k :: ws)) :
    ∃ t vs, us = t :: vs ∧ t.kind = k ∧ Many Word.Spelled vs ws := by
  obtain _ | @⟨_, vs, _, _, ⟨⟩, h⟩ := h
  exact ⟨_, vs, rfl, rfl, h⟩

theorem name_inv {x : String} (h : Many Word.Spelled us (.name x :: ws)) :
    ∃ t vs, us = t :: vs ∧ t.kind = .ident ∧ t.lexeme = x ∧ Many Word.Spelled vs ws := by
  obtain _ | @⟨_, vs, _, _, hname, h⟩ := h
  obtain ⟨⟩ | ⟨hkind⟩ := hname
  exact ⟨_, vs, rfl, hkind, rfl, h⟩

theorem literal_inv {v : Int32} (h : Many Word.Spelled us (.literal v :: ws)) :
    ∃ vs vs', us = vs ++ vs' ∧ SignedInt vs v ∧ Many Word.Spelled vs' ws := by
  obtain _ | @⟨vs, vs', _, _, hliteral, h⟩ := h
  obtain ⟨⟩ | ⟨⟩ | ⟨hv⟩ := hliteral
  exact ⟨vs, vs', rfl, hv, h⟩

theorem many_nil_inv (h : Many P us []) : us = [] := by
  cases h
  rfl

/-- Whatever tokens stand for the words, they are a phrase `P` for the tree `a`, if `f` forgets the
locations of trees. -/
def Prints (P : Phrase α) (f : α → α) (ws : List Word) (a : α) : Prop :=
  ∀ ⦃us⦄, Many Word.Spelled us ws → ∃ b, P us b ∧ f b = f a

variable {f : α → α} {a : α}

/-- A phrase between tokens of two kinds. -/
theorem Prints.enclosed {Q : Phrase α} {k k' : Token.Kind} (h : Prints P f ws a)
    (hQ : ∀ {l r : Token} {us b}, l.kind = k → P us b → r.kind = k' → Q (l :: us ++ [r]) b) :
    Prints Q f (Word.mark k :: ws ++ [Word.mark k']) a := by
  intro us hus
  obtain ⟨l, us, rfl, hl, hus⟩ := mark_inv hus
  obtain ⟨vs, ws, rfl, hvs, hws⟩ := hus.exists_append
  obtain ⟨r, ws, rfl, hr, hnil⟩ := mark_inv hws
  obtain ⟨b, hb, hba⟩ := h hvs
  obtain rfl := many_nil_inv hnil
  exact ⟨b, hQ hl hb hr, hba⟩

theorem Prints.parens (h : Prints P f ws a) : Prints (Parenthesized P) f (parens ws) a :=
  h.enclosed .mk

variable {words : α → List Word} {as : List α}

theorem Prints.many (h : ∀ a ∈ as, Prints P f (words a) a) :
    Prints (Many P) (List.map f) (as.flatMap words) as := by
  induction as with
  | nil =>
    intro us hus
    obtain rfl := many_nil_inv hus
    exact ⟨[], .nil, rfl⟩
  | cons a as ih =>
    intro us hus
    simp only [List.mem_cons, forall_eq_or_imp] at h
    obtain ⟨vs, ws, rfl, hvs, hws⟩ := hus.exists_append
    obtain ⟨b, hb, hba⟩ := h.1 hvs
    obtain ⟨bs, hbs, hbas⟩ := ih h.2 hws
    exact ⟨b :: bs, .cons hb hbs, by simp [hba, hbas]⟩

theorem Prints.brackets (h : ∀ a ∈ as, Prints P f (words a) a) :
    Prints (Many (Bracketed P)) (List.map f) (brackets (as.map words)) as := by
  rw [Printing.brackets, List.flatMap_map]
  exact Prints.many fun a ha => (h a ha).enclosed .mk

theorem Prints.separated (h : ∀ b ∈ a :: as, Prints P f (words b) b) :
    Prints (Separated P) (List.map f) (commas ((a :: as).map words)) (a :: as) := by
  induction as generalizing a with
  | nil =>
    intro us hus
    have hsingle : commas [words a] = words a := List.intercalate_singleton
    rw [List.map_singleton, hsingle] at hus
    obtain ⟨b, hb, hba⟩ := h a List.mem_cons_self hus
    exact ⟨[b], .one hb, by simp [hba]⟩
  | cons a' as ih =>
    intro us hus
    rw [List.map_cons, List.map_cons, commas_cons_cons] at hus
    obtain ⟨vs, ws, rfl, hvs, hws⟩ := hus.exists_append
    obtain ⟨c, ws, rfl, hc, hws⟩ := mark_inv hws
    obtain ⟨b, hb, hba⟩ := h a List.mem_cons_self hvs
    obtain ⟨bs, hbs, hbas⟩ := ih (fun x hx => h x (List.mem_cons_of_mem a hx)) hws
    exact ⟨b :: bs, .more hb hc hbs, by simp [hba, hbas]⟩

theorem Prints.commas (h : ∀ a ∈ as, Prints P f (words a) a) :
    Prints (Listed P) (List.map f) (commas (as.map words)) as := by
  intro us hus
  cases as with
  | nil =>
    obtain rfl := many_nil_inv hus
    exact ⟨[], .none, rfl⟩
  | cons a as =>
    obtain ⟨bs, hbs, heq⟩ := Prints.separated h hus
    exact ⟨bs, .some hbs, heq⟩

end Words

/-! ## Expressions -/

/-- Whatever tokens stand for the words of a variable or element, they name it. -/
def PrintsReference (e : Expr) : Prop :=
  ∀ ⦃us⦄, Many Word.Spelled us e.words → ∃ x vs es, us = x :: vs ∧ x.kind = .ident ∧
    Many (Bracketed Exp) vs es ∧ (reference x es).unlocated = e.unlocated

theorem emptyBrackets_prints (n : Nat) {us : List Token}
    (h : Many Word.Spelled us (brackets (List.replicate n []))) : EmptyBrackets us n := by
  induction n generalizing us with
  | zero =>
    obtain rfl := many_nil_inv h
    exact .none
  | succ n ih =>
    obtain ⟨l, us, rfl, hl, h⟩ := mark_inv h
    obtain ⟨r, us, rfl, hr, h⟩ := mark_inv h
    exact .more hl hr (ih h)

theorem op_kind (op : BinaryOp) : Op op.kind op := by
  cases op <;> constructor

theorem PrintsReference.exp {e : Expr} (h : PrintsReference e) :
    Prints Exp Expr.unlocated e.words e := by
  intro us hus
  obtain ⟨x, vs, es, rfl, hx, hes, heq⟩ := h hus
  exact ⟨_, .simple (.named hx hes), heq⟩

theorem Expr.WellFormed.prints {e : Expr} (h : e.WellFormed) :
    Prints Exp Expr.unlocated e.words e ∧ (e.isReference → PrintsReference e) := by
  induction h with
  | @int v l =>
    refine ⟨fun us hus => ?_, nofun⟩
    obtain ⟨vs, vs', rfl, hv, hnil⟩ := literal_inv hus
    obtain ⟨t, vs, rfl, -⟩ := starts_signedInt hv
    rw [many_nil_inv hnil, List.append_nil]
    exact ⟨_, .simple (.int hv), rfl⟩
  | null =>
    refine ⟨fun us hus => ?_, nofun⟩
    obtain ⟨t, vs, rfl, ht, hnil⟩ := mark_inv hus
    obtain rfl := many_nil_inv hnil
    exact ⟨_, .simple (.null ht), rfl⟩
  | @var x l hx =>
    have hreference : PrintsReference (.var x l) := by
      intro us hus
      obtain ⟨t, vs, rfl, ht, rfl, hnil⟩ := name_inv hus
      obtain rfl := many_nil_inv hnil
      exact ⟨t, [], [], rfl, ht, .nil, rfl⟩
    exact ⟨hreference.exp, fun _ => hreference⟩
  | @unary op e l _ ih =>
    refine ⟨fun us hus => ?_, nofun⟩
    obtain ⟨o, vs, rfl, ho, hvs⟩ := mark_inv hus
    obtain ⟨e', he', heq⟩ := ih.1.parens hvs
    cases op with
    | neg =>
      have hsimple := SimpleExp.parens he'
      obtain @⟨l, r, vs, _, hl, _, _⟩ := he'
      exact ⟨_, .simple (.neg ho (by simp [hl]) hsimple), by simp [Expr.unlocated, heq]⟩
    | not => exact ⟨_, .simple (.not ho (.parens he')), by simp [Expr.unlocated, heq]⟩
  | @binary op a b l _ _ iha ihb =>
    refine ⟨fun us hus => ?_, nofun⟩
    obtain ⟨vs, ws, rfl, hvs, hws⟩ := hus.exists_append
    obtain ⟨o, ws, rfl, ho, hws⟩ := mark_inv hws
    obtain ⟨a', ha', ha⟩ := iha.1.parens hvs
    obtain ⟨b', hb', hb⟩ := ihb.1.parens hws
    refine ⟨_, .binary (.parens ha') (ho ▸ op_kind op) (.parens hb'), ?_⟩
    simp [Expr.unlocated, ha, hb]
  | @index x es l _ hne _ ih =>
    have hreference : PrintsReference (.index x es l) := by
      intro us hus
      rw [Expr.words, Expr.wordsAll_eq_map] at hus
      obtain ⟨t, vs, rfl, ht, rfl, hvs⟩ := name_inv hus
      obtain ⟨es', hes', heq⟩ := Prints.brackets (fun e he => (ih e he).1) hvs
      refine ⟨t, vs, es', rfl, ht, hes', ?_⟩
      cases es' with
      | nil => simp [eq_comm, hne] at heq
      | cons e' es' => simp [reference, Expr.unlocated, ← heq]
    exact ⟨hreference.exp, fun _ => hreference⟩
  | @length a l ha _ ih =>
    refine ⟨fun us hus => ?_, nofun⟩
    obtain ⟨vs, ws, rfl, hvs, hws⟩ := hus.exists_append
    obtain ⟨x, vs, es, rfl, hx, hes, heq⟩ := ih.2 ha hvs
    obtain ⟨d, ws, rfl, hd, hws⟩ := mark_inv hws
    obtain ⟨k, ws, rfl, hk, hnil⟩ := mark_inv hws
    obtain rfl := many_nil_inv hnil
    exact ⟨_, .simple (.length hx hes hd hk), by simp [Expr.unlocated, heq]⟩
  | @new es n l hne _ ih =>
    refine ⟨fun us hus => ?_, nofun⟩
    rw [Expr.words, Expr.wordsAll_eq_map] at hus
    obtain ⟨w, us, rfl, hw, hus⟩ := mark_inv hus
    obtain ⟨i, us, rfl, hi, hus⟩ := mark_inv hus
    obtain ⟨vs, ws, rfl, hvs, hws⟩ := hus.exists_append
    obtain ⟨es', hes', heq⟩ := Prints.brackets (fun e he => (ih e he).1) hvs
    obtain _ | @⟨us', vs', e', es', he', hes'⟩ := hes'
    · simp [eq_comm, hne] at heq
    · have hderived := SimpleExp.new hw hi he' hes' (emptyBrackets_prints n hws)
      refine ⟨_, .simple (by simpa using hderived), ?_⟩
      simp [Expr.unlocated, ← heq]
  | @call x es l _ _ ih =>
    refine ⟨fun us hus => ?_, nofun⟩
    rw [Expr.words, Expr.wordsAll_eq_map] at hus
    obtain ⟨t, vs, rfl, ht, rfl, hvs⟩ := name_inv hus
    obtain ⟨es', hes', heq⟩ := (Prints.commas fun e he => (ih e he).1).parens hvs
    exact ⟨_, .simple (.call ht hes'), by simp [Expr.unlocated, heq]⟩

theorem Expr.WellFormed.prints_exp {e : Expr} (h : e.WellFormed) :
    Prints Exp Expr.unlocated e.words e := h.prints.1

/-! ## Statements -/

@[simp] theorem Stmt.wordsAll_eq_flatMap (ss : List Stmt) :
    Stmt.wordsAll ss = ss.flatMap Stmt.words := by
  induction ss with
  | nil => rfl
  | cons s ss ih => rw [Stmt.wordsAll, ih, List.flatMap_cons]

/-- The words of a case. -/
def SwitchCase.words (c : SwitchCase) : List Word :=
  .mark .kwCase :: .literal c.value :: .mark .colon :: c.body.words

@[simp] theorem SwitchCase.wordsAll_eq_flatMap (cs : List SwitchCase) :
    SwitchCase.wordsAll cs = cs.flatMap SwitchCase.words := by
  induction cs with
  | nil => rfl
  | cons c cs ih =>
    obtain ⟨v, s, l⟩ := c
    rw [SwitchCase.wordsAll, ih, List.flatMap_cons]
    rfl

theorem print_keyword (k : PrintKind) : Print k.keyword k := by
  cases k <;> constructor

/-- The value of a statement and the semicolon behind it. -/
theorem semicolon_inv {e : Expr} (he : e.WellFormed) {us : List Token}
    (h : Many Word.Spelled us (e.words ++ [Word.mark .semicolon])) :
    ∃ vs z e', us = vs ++ [z] ∧ z.kind = .semicolon ∧ Exp vs e' ∧ e'.unlocated = e.unlocated := by
  obtain ⟨vs, ws, rfl, hvs, hws⟩ := h.exists_append
  obtain ⟨z, ws, rfl, hz, hnil⟩ := mark_inv hws
  obtain rfl := many_nil_inv hnil
  obtain ⟨e', he', heq⟩ := he.prints_exp hvs
  exact ⟨vs, z, e', rfl, hz, he', heq⟩

theorem SwitchCase.prints {c : SwitchCase} (h : Prints Stm Stmt.unlocated c.body.words c.body) :
    Prints (Case Stm) SwitchCase.unlocated c.words c := by
  intro us hus
  obtain ⟨t, us, rfl, ht, hus⟩ := mark_inv hus
  obtain ⟨vs, ws, rfl, hv, hws⟩ := literal_inv hus
  obtain ⟨d, ws, rfl, hd, hws⟩ := mark_inv hws
  obtain ⟨s, hs, heq⟩ := h hws
  exact ⟨_, .mk ht hv hd hs, by simp [SwitchCase.unlocated, SwitchCase.body, SwitchCase.value, heq]⟩

theorem Stmt.WellFormed.prints {s : Stmt} (h : s.WellFormed) :
    Prints Stm Stmt.unlocated s.words s := by
  induction h with
  | @assign x e l _ he =>
    intro us hus
    obtain ⟨t, us, rfl, ht, hx, hus⟩ := name_inv hus
    obtain ⟨q, us, rfl, hq, hus⟩ := mark_inv hus
    obtain ⟨vs, z, e', rfl, hz, he', heq⟩ := semicolon_inv he hus
    exact ⟨_, .assign ht .nil hq he' hz, by simp [assignment, Stmt.unlocated, hx, heq]⟩
  | @assignAt x es e l _ hne hes he =>
    intro us hus
    simp only [Stmt.words, List.cons_append, List.append_assoc] at hus
    obtain ⟨t, us, rfl, ht, hx, hus⟩ := name_inv hus
    obtain ⟨vs, ws, rfl, hvs, hws⟩ := hus.exists_append
    obtain ⟨q, ws, rfl, hq, hws⟩ := mark_inv hws
    obtain ⟨ws, z, e', rfl, hz, he', heq⟩ := semicolon_inv he hws
    obtain ⟨es', hes', heqs⟩ := Prints.brackets (fun e he => (hes e he).prints_exp) hvs
    have hderived := Stm.assign ht hes' hq he' hz
    refine ⟨_, by simpa using hderived, ?_⟩
    cases es' with
    | nil => simp [eq_comm, hne] at heqs
    | cons i es' => simp [assignment, Stmt.unlocated, hx, heq, ← heqs]
  | @ifThen c s l hc _ ih =>
    intro us hus
    obtain ⟨i, us, rfl, hi, hus⟩ := mark_inv hus
    obtain ⟨vs, ws, rfl, hvs, hws⟩ := hus.exists_append
    obtain ⟨c', hc', hceq⟩ := hc.prints_exp.parens hvs
    obtain ⟨s', hs', hseq⟩ := ih hws
    exact ⟨_, .ifThen hi hc' hs', by simp [Stmt.unlocated, hceq, hseq]⟩
  | @ifElse c s t l hc _ hends _ ihs iht =>
    intro us hus
    simp only [Stmt.words, List.cons_append, List.append_assoc] at hus
    obtain ⟨i, us, rfl, hi, hus⟩ := mark_inv hus
    obtain ⟨vs, us, rfl, hvs, hus⟩ := hus.exists_append
    obtain ⟨ws, us, rfl, hws, hus⟩ := hus.exists_append
    obtain ⟨j, zs, rfl, hj, hzs⟩ := mark_inv hus
    obtain ⟨c', hc', hceq⟩ := hc.prints_exp.parens hvs
    obtain ⟨s', hs', hseq⟩ := ihs hws
    obtain ⟨t', ht', hteq⟩ := iht hzs
    have hends' : s'.takesElse = false := by
      rw [← Stmt.takesElse_unlocated, hseq, Stmt.takesElse_unlocated, hends]
    have hderived := Stm.ifElse hi hc' hs' hends' hj ht'
    exact ⟨_, by simpa using hderived, by simp [Stmt.unlocated, hceq, hseq, hteq]⟩
  | @whileDo c s l hc _ ih =>
    intro us hus
    obtain ⟨w, us, rfl, hw, hus⟩ := mark_inv hus
    obtain ⟨vs, ws, rfl, hvs, hws⟩ := hus.exists_append
    obtain ⟨c', hc', hceq⟩ := hc.prints_exp.parens hvs
    obtain ⟨s', hs', hseq⟩ := ih hws
    exact ⟨_, .whileDo hw hc' hs', by simp [Stmt.unlocated, hceq, hseq]⟩
  | @switch e cs d l he _ _ ihcs ihd =>
    intro us hus
    simp only [Stmt.words, List.cons_append, List.append_assoc,
      SwitchCase.wordsAll_eq_flatMap] at hus
    obtain ⟨w, us, rfl, hw, hus⟩ := mark_inv hus
    obtain ⟨vs, us, rfl, hvs, hus⟩ := hus.exists_append
    obtain ⟨b, us, rfl, hb, hus⟩ := mark_inv hus
    obtain ⟨ws, us, rfl, hws, hus⟩ := hus.exists_append
    obtain ⟨k, us, rfl, hk, hus⟩ := mark_inv hus
    obtain ⟨o, us, rfl, ho, hus⟩ := mark_inv hus
    obtain ⟨zs, us, rfl, hzs, hus⟩ := hus.exists_append
    obtain ⟨r, us, rfl, hr, hnil⟩ := mark_inv hus
    obtain rfl := many_nil_inv hnil
    obtain ⟨e', he', heeq⟩ := he.prints_exp.parens hvs
    obtain ⟨cs', hcs', hcseq⟩ := Prints.many (fun c hc => SwitchCase.prints (ihcs c hc)) hws
    obtain ⟨d', hd', hdeq⟩ := ihd hzs
    have hderived := Stm.switch hw he' hb hcs' hk ho hd' hr
    exact ⟨_, by simpa using hderived, by simp [Stmt.unlocated, heeq, hcseq, hdeq]⟩
  | @block ss l _ ih =>
    intro us hus
    simp only [Stmt.words, List.cons_append, Stmt.wordsAll_eq_flatMap] at hus
    obtain ⟨b, us, rfl, hb, hus⟩ := mark_inv hus
    obtain ⟨vs, us, rfl, hvs, hus⟩ := hus.exists_append
    obtain ⟨r, us, rfl, hr, hnil⟩ := mark_inv hus
    obtain rfl := many_nil_inv hnil
    obtain ⟨ss', hss', heq⟩ := Prints.many ih hvs
    exact ⟨_, .block hb hss' hr, by simp [Stmt.unlocated, heq]⟩
  | @print k e l he =>
    intro us hus
    obtain ⟨w, us, rfl, hw, hus⟩ := mark_inv hus
    obtain ⟨vs, z, e', rfl, hz, he', heq⟩ := semicolon_inv he hus
    exact ⟨_, .print (hw ▸ print_keyword k) he' hz, by simp [Stmt.unlocated, heq]⟩
  | newline =>
    intro us hus
    obtain ⟨w, us, rfl, hw, hus⟩ := mark_inv hus
    obtain ⟨z, us, rfl, hz, hnil⟩ := mark_inv hus
    obtain rfl := many_nil_inv hnil
    exact ⟨_, .newline hw hz, rfl⟩
  | @ret v l hv =>
    intro us hus
    cases v with
    | none =>
      obtain ⟨w, us, rfl, hw, hus⟩ := mark_inv hus
      obtain ⟨z, us, rfl, hz, hnil⟩ := mark_inv hus
      obtain rfl := many_nil_inv hnil
      exact ⟨_, .ret hw hz, rfl⟩
    | some e =>
      obtain ⟨w, us, rfl, hw, hus⟩ := mark_inv hus
      obtain ⟨vs, z, e', rfl, hz, he', heq⟩ := semicolon_inv (hv e rfl) hus
      exact ⟨_, .retValue hw he' hz, by simp [Stmt.unlocated, heq]⟩
  | @call f es l _ hes =>
    intro us hus
    obtain ⟨t, us, rfl, ht, hx, hus⟩ := name_inv hus
    obtain ⟨vs, us, rfl, hvs, hus⟩ := hus.exists_append
    obtain ⟨z, us, rfl, hz, hnil⟩ := mark_inv hus
    obtain rfl := many_nil_inv hnil
    obtain ⟨es', hes', heq⟩ := (Prints.commas fun e he => (hes e he).prints_exp).parens hvs
    exact ⟨_, .call ht hes' hz, by simp [Stmt.unlocated, hx, heq]⟩

/-! ## Programs -/

theorem VarType.prints (ty : VarType) {us : List Token} (h : Many Word.Spelled us ty.words) :
    TypeName us ty := by
  obtain ⟨t, us, rfl, ht, h⟩ := mark_inv h
  exact .mk ht (emptyBrackets_prints ty.dimensions h)

theorem Decl.prints (d : Decl) : Prints TypedName Decl.unlocated d.words d := by
  intro us hus
  obtain ⟨vs, us, rfl, hvs, hus⟩ := hus.exists_append
  obtain ⟨x, us, rfl, hx, hname, hnil⟩ := name_inv hus
  obtain rfl := many_nil_inv hnil
  have htype := d.type.prints hvs
  obtain ⟨t, vs, rfl, -⟩ := mark_inv hvs
  exact ⟨_, .mk htype hx, by simp [Decl.unlocated, hname]⟩

theorem Decl.prints_varDecl (d : Decl) :
    Prints VarDecl Decl.unlocated (d.words ++ [Word.mark .semicolon]) d := by
  intro us hus
  obtain ⟨vs, us, rfl, hvs, hus⟩ := hus.exists_append
  obtain ⟨z, us, rfl, hz, hnil⟩ := mark_inv hus
  obtain rfl := many_nil_inv hnil
  obtain ⟨d', hd', heq⟩ := d.prints hvs
  exact ⟨d', .mk hd' hz, heq⟩

/-- A body, and what follows it. -/
theorem body_inv {opening closing : Token.Kind} {ds : List Decl} {ss : List Stmt} {ws : List Word}
    (hss : ∀ s ∈ ss, s.WellFormed) {us : List Token}
    (h : Many Word.Spelled us (.mark opening :: bodyWords ds ss ++ .mark closing :: ws)) :
    ∃ vs us' ds' ss', us = vs ++ us' ∧ Body opening closing vs (ds', ss') ∧
      ds'.map Decl.unlocated = ds.map Decl.unlocated ∧
      ss'.map Stmt.unlocated = ss.map Stmt.unlocated ∧ Many Word.Spelled us' ws := by
  simp only [bodyWords, List.cons_append, List.append_assoc, Stmt.wordsAll_eq_flatMap] at h
  obtain ⟨l, us, rfl, hl, h⟩ := mark_inv h
  obtain ⟨vs, us, rfl, hvs, h⟩ := h.exists_append
  obtain ⟨zs, us, rfl, hzs, h⟩ := h.exists_append
  obtain ⟨r, us, rfl, hr, h⟩ := mark_inv h
  obtain ⟨ds', hds', hdseq⟩ := Prints.many (fun d _ => d.prints_varDecl) hvs
  obtain ⟨ss', hss', hsseq⟩ := Prints.many (fun s hs => (hss s hs).prints) hzs
  exact ⟨l :: vs ++ zs ++ [r], us, ds', ss', by simp, .mk hl hds' hss' hr, hdseq, hsseq, h⟩

/-- The words of a method behind its keyword and type. -/
theorem methodRest_prints {m : Method} (hm : m.WellFormed) (l : Location) {us : List Token}
    (h : Many Word.Spelled us (.name m.name :: parens (commas (m.params.map Decl.words)) ++
      Word.mark .lbrace :: bodyWords m.locals m.body ++ [Word.mark .rbrace])) :
    ∃ m', MethodRest m.returnType l us m' ∧ m'.unlocated = m.unlocated := by
  simp only [List.cons_append, List.append_assoc] at h
  obtain ⟨x, us, rfl, hx, hname, h⟩ := name_inv h
  obtain ⟨vs, us, rfl, hvs, h⟩ := h.exists_append
  obtain ⟨ws, us, ds, ss, rfl, hbody, hds, hss, hnil⟩ := body_inv hm.body h
  obtain rfl := many_nil_inv hnil
  obtain ⟨ps, hps, hpseq⟩ := (Prints.commas fun d _ => Decl.prints d).parens hvs
  have hderived : MethodRest m.returnType l (x :: vs ++ ws) _ := .mk hx hps hbody
  exact ⟨_, by simpa using hderived, by simp [Method.unlocated, hname, hpseq, hds, hss]⟩

theorem Method.WellFormed.prints {m : Method} (hm : m.WellFormed) :
    Prints MethodDef Method.unlocated m.words m := by
  intro us h
  have hrest := @methodRest_prints m hm
  cases htype : m.returnType with
  | none =>
    simp only [Method.words, htype, List.cons_append, List.nil_append] at h
    obtain ⟨f, us, rfl, hf, h⟩ := mark_inv h
    obtain ⟨m', hm', heq⟩ := hrest f.location h
    exact ⟨m', .procedure hf (htype ▸ hm'), heq⟩
  | some ty =>
    simp only [Method.words, htype, List.cons_append, List.append_assoc] at h
    obtain ⟨f, us, rfl, hf, h⟩ := mark_inv h
    obtain ⟨vs, us, rfl, hvs, h⟩ := h.exists_append
    obtain ⟨m', hm', heq⟩ := hrest f.location (by simpa using h)
    exact ⟨m', .function hf (ty.prints hvs) (htype ▸ hm'), heq⟩

theorem Program.WellFormed.prints {p : Program} (hp : p.WellFormed) :
    Prints Grammar.Program Program.unlocated p.words p := by
  intro us h
  obtain ⟨vs, us, ds, ss, rfl, hbody, hds, hss, h⟩ := body_inv hp.body h
  obtain ⟨ms, hms, hmseq⟩ := Prints.many (fun m hm => (hp.methods m hm).prints) h
  exact ⟨_, .mk hbody hms, by simp [Program.unlocated, hds, hss, hmseq]⟩

/-! ## Words of well-formed trees -/

/-- Words that can all be read back. -/
def Legible (ws : List Word) : Prop := ∀ w ∈ ws, w.Legible

section Legible

variable {ws ws' : List Word} {wss : List (List Word)}

@[simp] theorem legible_nil : Legible [] := by simp [Legible]

@[simp] theorem legible_append : Legible (ws ++ ws') ↔ Legible ws ∧ Legible ws' :=
  List.forall_mem_append

@[simp] theorem legible_mark {k : Token.Kind} :
    Legible (.mark k :: ws) ↔ k.spelling?.isSome ∧ Legible ws :=
  List.forall_mem_cons

@[simp] theorem isSome_spelling? {k : Token.Kind} :
    k.spelling?.isSome ↔ k ≠ .intLiteral ∧ k ≠ .ident ∧ k ≠ .eof := by
  cases k <;> decide

@[simp] theorem legible_name {x : String} : Legible (.name x :: ws) ↔ IsName x ∧ Legible ws :=
  List.forall_mem_cons

@[simp] theorem legible_literal {v : Int32} : Legible (.literal v :: ws) ↔ Legible ws := by
  simp [Legible, Word.Legible]

@[simp] theorem legible_flatMap {α : Type} {f : α → List Word} {as : List α} :
    Legible (as.flatMap f) ↔ ∀ a ∈ as, Legible (f a) := by
  simp only [Legible, List.mem_flatMap]
  exact ⟨fun h a ha w hw => h w ⟨a, ha, hw⟩, fun h w ⟨a, ha, hw⟩ => h a ha w hw⟩

@[simp] theorem legible_parens : Legible (parens ws) ↔ Legible ws := by
  simp [parens]

@[simp] theorem legible_brackets : Legible (brackets wss) ↔ ∀ ws ∈ wss, Legible ws := by
  simp [brackets]

theorem legible_commas {α : Type} {f : α → List Word} {as : List α} (h : ∀ a ∈ as, Legible (f a)) :
    Legible (commas (as.map f)) := by
  induction as with
  | nil => exact legible_nil
  | cons a as ih =>
    simp only [List.mem_cons, forall_eq_or_imp] at h
    cases as with
    | nil => simpa [commas] using h.1
    | cons a' as =>
      rw [List.map_cons, List.map_cons, commas_cons_cons, legible_append, legible_mark]
      exact ⟨h.1, rfl, ih h.2⟩

end Legible

theorem Expr.WellFormed.legible {e : Expr} (h : e.WellFormed) : Legible e.words := by
  induction h with
  | int | null => simp [Expr.words]
  | var hx => simp [Expr.words, hx]
  | @unary op e l _ ih =>
    have hop : op.kind.spelling?.isSome := by cases op <;> rfl
    rw [isSome_spelling?] at hop
    simp [Expr.words, hop, ih]
  | @binary op a b l _ _ iha ihb =>
    have hop : op.kind.spelling?.isSome := by cases op <;> rfl
    rw [isSome_spelling?] at hop
    simp [Expr.words, hop, iha, ihb]
  | index hx _ _ ih => simpa [Expr.words, hx] using ih
  | length _ _ ih => simp [Expr.words, ih]
  | new _ _ ih => simpa [Expr.words] using ih
  | call hf _ ih => simpa [Expr.words, hf] using legible_commas ih

theorem Stmt.WellFormed.legible {s : Stmt} (h : s.WellFormed) : Legible s.words := by
  induction h with
  | assign hx he => simp [Stmt.words, hx, he.legible]
  | assignAt hx _ hes he =>
    simpa [Stmt.words, hx, he.legible] using fun e he => (hes e he).legible
  | ifThen hc _ ih | whileDo hc _ ih => simp [Stmt.words, hc.legible, ih]
  | ifElse hc _ _ _ ihs iht => simp [Stmt.words, hc.legible, ihs, iht]
  | switch he _ _ ihcs ihd =>
    simpa [Stmt.words, SwitchCase.words, he.legible, ihd] using ihcs
  | block _ ih => simpa [Stmt.words] using ih
  | @print k e l he =>
    cases k <;> simp [Stmt.words, PrintKind.keyword, he.legible]
  | newline => simp [Stmt.words]
  | @ret v l hv =>
    cases v with
    | none => simp [Stmt.words]
    | some e => simp [Stmt.words, (hv e rfl).legible]
  | call hf hes =>
    have hargs := legible_commas fun e he => (hes e he).legible
    simpa [Stmt.words, hf] using hargs

theorem legible_decl {d : Decl} (h : IsName d.name) : Legible d.words := by
  simp [Decl.words, VarType.words, h]

theorem legible_body {ds : List Decl} {ss : List Stmt} (hds : ∀ d ∈ ds, IsName d.name)
    (hss : ∀ s ∈ ss, s.WellFormed) : Legible (bodyWords ds ss) := by
  have hdecls : ∀ d ∈ ds, Legible d.words := fun d hd => legible_decl (hds d hd)
  have hstmts : ∀ s ∈ ss, Legible s.words := fun s hs => (hss s hs).legible
  simpa [bodyWords, Stmt.wordsAll_eq_flatMap] using ⟨hdecls, hstmts⟩

theorem Method.WellFormed.legible {m : Method} (h : m.WellFormed) : Legible m.words := by
  have hparams := legible_commas fun d hd => legible_decl (h.params d hd)
  have hbody := legible_body h.locals h.body
  cases htype : m.returnType with
  | none => simp [Method.words, htype, h.name, hparams, hbody]
  | some ty =>
    simp [Method.words, VarType.words, htype, h.name, hparams, hbody]

theorem Program.WellFormed.legible {p : Program} (h : p.WellFormed) : Legible p.words := by
  have hmethods : ∀ m ∈ p.methods, Legible m.words := fun m hm => (h.methods m hm).legible
  simpa [Program.words, legible_body h.globals h.body] using hmethods

/-! ## The round trip -/

theorem parse_text {p : Program} (hp : p.WellFormed) (spaced : Bool) :
    ∃ q, Program.parse (p.text spaced) = .ok q ∧ q.unlocated = p.unlocated := by
  obtain ⟨ts, l, hsplit, hts⟩ := reads_text spaced hp.legible []
  obtain ⟨q, hq, heq⟩ := hp.prints hts
  exact ⟨q, (parse_eq_ok_iff hsplit).2 hq, heq⟩

/-- Programs that are read are well formed. A well-formed program, written as text and read again, is the
same but for its locations. -/
theorem parse_image :
    (∀ source p, Program.parse source = .ok p → p.WellFormed) ∧
      ∀ p : Program, p.WellFormed → ∀ spaced, ∃ q,
        Program.parse (p.text spaced) = .ok q ∧ q.unlocated = p.unlocated :=
  ⟨fun _ _ => parse_wellFormed, fun _ hp spaced => parse_text hp spaced⟩

/-- The least literal, a literal that is negated, a name that starts with a keyword, an open dimension,
and an `IF` with an `ELSE` around loops and an `IF` with none. -/
def boundaryTree : Program where
  globals := [⟨"int_", ⟨2⟩, .start⟩]
  body := [.ifElse (.binary .sub (.unary .neg (.int 5 .start) .start) (.int (-2147483648) .start) .start)
    (.whileDo (.length (.index "int_" [.int (-1) .start] .start) .start) (.newline .start) .start)
    (.ifThen (.null .start) (.assign "int_" (.new [.int 3 .start] 1 .start) .start) .start) .start]
  methods := []

theorem boundaryTree_wellFormed : boundaryTree.WellFormed := by
  have hname : IsName "int_" := ⟨by decide, by decide⟩
  refine ⟨by simpa [boundaryTree] using hname, ?_, by simp [boundaryTree]⟩
  simp only [boundaryTree, List.forall_mem_singleton]
  refine .ifElse (.binary (.unary .int) .int) (.whileDo (.length rfl ?_) .newline) rfl
    (.ifThen .null (.assign hname ?_))
  · exact .index hname (List.cons_ne_nil _ _) (by simpa using .int)
  · exact .new (List.cons_ne_nil _ _) (by simpa using .int)

theorem parse_image_boundaryTree :
    boundaryTree.WellFormed ∧
      boundaryTree.text true = "BEGIN int [ ] [ ] int_ ; IF ( ( - ( 5 ) ) - ( - 2147483648 ) ) " ++
        "WHILE ( int_ [ - 1 ] . length ) NEWLINE ; ELSE IF ( null ) int_ = new int [ 3 ] [ ] ; END" ∧
      ∃ q, Program.parse (boundaryTree.text true) = .ok q ∧ q.unlocated = boundaryTree.unlocated ∧
        q.WellFormed := by
  refine ⟨boundaryTree_wellFormed, by decide +kernel, ?_⟩
  obtain ⟨q, hq, heq⟩ := parse_image.2 boundaryTree boundaryTree_wellFormed true
  exact ⟨q, hq, heq, parse_image.1 _ q hq⟩

end Lpl
