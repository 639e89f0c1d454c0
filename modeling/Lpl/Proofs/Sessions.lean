import Lpl.Proofs.Labels
import Lpl.Session
import Mathlib.Data.List.Chain

/-!
# What holds throughout a session

**Theorem (`session_invariants`).** Whatever is asked of a session, at every moment of it, inside guarded
scopes and after failures too: all labels taken so far are distinct and are no labels of methods,
variables or scratch words; the scratch words are distinct; the table is the one of the start; and the
active method, if there is one, is a method of the program, and the one that the table finds under its
name. From one moment to a later one labels and scratch words are only added, at the end.

The proof goes in two steps. Emitting code treats labels in an orderly way whether or not it succeeds
(`Emitter.Orderly`), which is kept by every way to build an emitter. So a session only ever makes one of
four moves (`Session.Move`), and the sessions in the course of operations are a chain of moves.
-/

namespace Lpl

/-! ## Labels of emitters that may fail -/

/-- The label whose taking an event tells. -/
def Event.label? : Event → Option String
  | freshLabel l => some l
  | _ => none

/-- The labels whose taking events tell, in order. -/
def takenIn (events : List Event) : List String := events.filterMap Event.label?

@[simp] theorem takenIn_nil : takenIn [] = [] := rfl

@[simp] theorem takenIn_append (es fs : List Event) : takenIn (es ++ fs) = takenIn es ++ takenIn fs :=
  List.filterMap_append

/-- Places are taken with numbers in order, and scratch words are added at the end. The code places and
jumps to labels that were taken on the way, and to some in `K` that were there before. -/
structure Emission.Orderly {α : Type} (K : String → Prop) (ls : Labels) (e : Emission α) : Prop where
  next_le : ls.next ≤ e.labels.next
  taken : Numbered ls.next e.labels.next (takenIn e.events)
  used : ∀ l ∈ e.code.places ++ e.code.targets, K l ∨ l ∈ takenIn e.events
  scratch : ls.scratch <+: e.labels.scratch
  named : ls.ScratchNamed → e.labels.ScratchNamed

namespace Emitter

variable {α β : Type} {K : String → Prop}

/-- Whatever labels the emitter runs on, and whether or not it succeeds, it is orderly with them. -/
def Orderly (K : String → Prop) (x : Emitter α) : Prop := ∀ ls, (x.run ls).Orderly K ls

theorem Orderly.mono {K' : String → Prop} {x : Emitter α} (h : Orderly K x) (hK : ∀ l, K l → K' l) :
    Orderly K' x := fun ls =>
  { h ls with used := fun l hl => ((h ls).used l hl).imp_left (hK l) }

/-- Labels that `x` takes and gives as its result may be used behind it. -/
theorem Orderly.bind_of {x : Emitter α} {f : α → Emitter β} (D : α → String → Prop)
    (hx : Orderly K x)
    (hD : ∀ ls a, (x.run ls).result = .ok a → ∀ l, D a l → l ∈ takenIn (x.run ls).events)
    (hf : ∀ a, Orderly (fun l => D a l ∨ K l) (f a)) : Orderly K (x >>= f) := by
  intro ls
  have hx := hx ls
  rw [run_bind]
  cases hresult : (x.run ls).result with
  | error e => exact { hx with }
  | ok a =>
    have hf := hf a (x.run ls).labels
    refine ⟨Nat.le_trans hx.next_le hf.next_le, ?_, fun l hl => ?_, hx.scratch.trans hf.scratch,
      fun h => hf.named (hx.named h)⟩
    · rw [takenIn_append]
      exact hx.taken.append hf.taken hx.next_le hf.next_le
    · rw [takenIn_append, List.mem_append]
      simp only [Assembly.places_append, Assembly.targets_append, List.mem_append] at hl
      have hused := hx.used l
      have hused' := hf.used l
      rw [List.mem_append] at hused hused'
      rcases or_or_or_comm.1 hl with hl | hl
      · exact (hused hl).imp_right .inl
      · rcases hused' hl with (hgiven | hK) | htaken
        · exact .inr (.inl (hD ls a hresult l hgiven))
        · exact .inl hK
        · exact .inr (.inr htaken)

theorem Orderly.bind {x : Emitter α} {f : α → Emitter β} (hx : Orderly K x)
    (hf : ∀ a, Orderly K (f a)) : Orderly K (x >>= f) :=
  hx.bind_of (fun _ _ => False) (by simp) fun a => (hf a).mono fun _ => .inr

theorem orderly_emit {code : Assembly} (L : List String) (hcode : code.places ++ code.targets = L)
    (hL : ∀ l ∈ L, K l) : Orderly K (emit code) := fun _ =>
  ⟨Nat.le_refl _, .nil _ _, fun l hl => .inl (hL l (hcode ▸ hl)), List.prefix_rfl, id⟩

theorem orderly_plain {code : Assembly} (h : code.places ++ code.targets = []) :
    Orderly K (emit code) :=
  orderly_emit [] h (by simp)

theorem orderly_straight {code : Assembly} (h : Straight code) : Orderly K (emit code) :=
  orderly_plain (by rw [h.places, h.targets]; rfl)

theorem orderly_ofExcept (r : Except CompileError α) : Orderly K (ofExcept r) := fun ls =>
  ⟨Nat.le_refl _, .nil _ _, by simp [ofExcept, run, Assembly.places, Assembly.targets],
    List.prefix_rfl, id⟩

theorem orderly_pure (a : α) : Orderly K (pure a) := orderly_ofExcept (.ok a)

theorem orderly_fail (e : CompileError) : Orderly K (fail e : Emitter α) := orderly_ofExcept _

theorem orderly_tell {e : Event} (h : e.label? = none) : Orderly K (tell e) := fun ls => by
  have hnone : takenIn [e] = [] := by simp [takenIn, h]
  refine ⟨Nat.le_refl _, ?_, by simp [tell, run, Assembly.places, Assembly.targets],
    List.prefix_rfl, id⟩
  show Numbered ls.next ls.next (takenIn [e])
  rw [hnone]
  exact .nil _ _

theorem Orderly.locatedAt {x : Emitter α} (h : Orderly K x) (l : Location) :
    Orderly K (locatedAt l x) := fun ls => { h ls with }

theorem orderly_fresh (stem : String) : Orderly K (fresh stem) := fun ls =>
  ⟨Nat.le_succ _, .single stem ls.next, by simp [fresh, run, Assembly.places, Assembly.targets],
    List.prefix_rfl, id⟩

/-- A label that is taken may be used behind it. -/
theorem orderly_fresh_bind {stem : String} {f : String → Emitter β}
    (hf : ∀ l, Orderly (fun l' => l' = l ∨ K l') (f l)) : Orderly K (fresh stem >>= f) := by
  refine (orderly_fresh stem).bind_of (fun l l' => l' = l) ?_ hf
  rintro ls _ ⟨⟩ _ rfl
  exact List.mem_singleton_self _

theorem orderly_scratch (name : String) : Orderly K (scratch name) := fun ls =>
  ⟨Nat.le_refl _, .nil _ _, by simp [scratch, run, Assembly.places, Assembly.targets],
    ls.prefix_withScratch name, fun h => h.withScratch name⟩

theorem orderly_scratchWords : Orderly K scratchWords := fun ls =>
  ⟨Nat.le_refl _, .nil _ _, by simp [scratchWords, run, Assembly.places, Assembly.targets],
    List.prefix_rfl, id⟩

end Emitter

open Emitter

section Code

variable {K : String → Prop}

theorem Scope.orderly_address (σ : Scope) (x : String) (l : Location) : Orderly K (σ.address x l) :=
  ((orderly_ofExcept _).locatedAt l).bind fun _ => orderly_straight (straight_address _ _)

theorem Scope.orderly_call (σ : Scope) (f : String) (l : Location) (argc : Nat) {args : Emitter Unit}
    (h : Orderly K args) : Orderly K (σ.call f l argc args) :=
  ((orderly_ofExcept _).locatedAt l).bind fun _ => h.bind fun _ =>
    orderly_plain rfl

mutual

theorem Expr.orderly (σ : Scope) : (e : Expr) → Orderly K (e.code σ)
  | .int _ _ | .null _ => orderly_plain rfl
  | .var x l => (σ.orderly_address x l).bind fun _ => orderly_plain rfl
  | .unary .not e _ => (Expr.orderly σ e).bind fun _ => orderly_plain rfl
  | .unary .neg e _ => (orderly_plain rfl).bind fun _ =>
    (Expr.orderly σ e).bind fun _ => orderly_plain rfl
  | .binary op a b _ => (Expr.orderly σ a).bind fun _ =>
    (orderly_straight (straight_afterLeft op)).bind fun _ => (Expr.orderly σ b).bind fun _ =>
    orderly_straight (straight_afterRight op)
  | .index x es l => (σ.orderly_address x l).bind fun _ => (Expr.orderly_element σ es).bind fun _ =>
    orderly_plain rfl
  | .length e _ => (Expr.orderly σ e).bind fun _ => orderly_plain rfl
  | .new es _ _ => (Expr.orderly_all σ es).bind fun _ => orderly_plain rfl
  | .call f es l => σ.orderly_call f l es.length (Expr.orderly_reversed σ es)

theorem Expr.orderly_all (σ : Scope) : (es : List Expr) → Orderly K (Expr.codeAll σ es)
  | [] => orderly_pure ()
  | e :: es => (Expr.orderly σ e).bind fun _ => Expr.orderly_all σ es

theorem Expr.orderly_reversed (σ : Scope) : (es : List Expr) → Orderly K (Expr.codeReversed σ es)
  | [] => orderly_pure ()
  | e :: es => (Expr.orderly_reversed σ es).bind fun _ => Expr.orderly σ e

theorem Expr.orderly_element (σ : Scope) : (es : List Expr) → Orderly K (Expr.elementAddress σ es)
  | [] => orderly_pure ()
  | e :: es => (orderly_plain rfl).bind fun _ => (Expr.orderly σ e).bind fun _ =>
    (orderly_plain rfl).bind fun _ => Expr.orderly_element σ es

end

theorem orderly_checkCases (cs : List SwitchCase) : Orderly K (checkCases cs) := by
  unfold checkCases
  split
  · exact orderly_pure ()
  · exact orderly_fail _

theorem orderly_caseLabels (cs : List SwitchCase) : Orderly K (caseLabels cs) := by
  induction cs generalizing K with
  | nil => exact orderly_pure []
  | cons c cs ih => exact (orderly_fresh _).bind fun _ => ih.bind fun _ => orderly_pure _

/-- All labels of cases are told as taken. -/
theorem events_caseLabels (cs : List SwitchCase) (ls : Labels) :
    ((caseLabels cs).run ls).events = (caseLabelsFrom ls.next cs).map Event.freshLabel := by
  induction cs generalizing ls with
  | nil => rfl
  | cons c cs ih =>
    have hresult : ((caseLabels cs).run (ls.skip 1)).result = .ok (caseLabelsFrom (ls.next + 1) cs) :=
      (emits_caseLabels.2 ⟨rfl, rfl, rfl⟩).1
    have htail := ih (ls.skip 1)
    show .freshLabel (placeLabel (caseStem c.value) ls.next) ::
      ((caseLabels cs >>= fun labels => pure (_ :: labels)).run (ls.skip 1)).events = _
    rw [run_bind, hresult, htail]
    exact congrArg _ (List.append_nil _)

/-- The labels of cases may be used behind them. -/
theorem orderly_caseLabels_bind {β : Type} {cs : List SwitchCase} {f : List String → Emitter β}
    (hf : ∀ labels, Orderly (fun l => l ∈ labels ∨ K l) (f labels)) :
    Orderly K (caseLabels cs >>= f) := by
  refine (orderly_caseLabels cs).bind_of (fun labels l => l ∈ labels) (fun ls labels h l hl => ?_) hf
  obtain rfl : labels = caseLabelsFrom ls.next cs := (emits_caseLabels.1 (emits_self h)).1
  rw [events_caseLabels]
  exact List.mem_filterMap.2 ⟨_, List.mem_map_of_mem hl, rfl⟩

theorem orderly_dispatch {word : String} {cs : List SwitchCase} {labels : List String}
    (h : ∀ l ∈ labels, K l) : Orderly K (emit (.storei word :: dispatch word cs labels)) := by
  have hfrag : Fragment [] labels ⟨0, [word]⟩ (dispatch word cs labels) ⟨0, [word]⟩ :=
    .dispatch (List.mem_singleton_self word) cs labels
  have hplaces : (dispatch word cs labels).places = [] := by
    obtain ⟨L, hL, hnum⟩ := hfrag.places
    refine List.eq_nil_iff_forall_not_mem.2 fun l hl => ?_
    obtain ⟨x, n, -, -, hn⟩ := hnum.1 l (hL.mem_iff.1 hl)
    exact absurd hn (Nat.not_lt_zero n)
  refine orderly_emit (dispatch word cs labels).targets ?_ fun l hl => h l ?_
  · exact congrArg (· ++ _) hplaces
  · simpa [hplaces] using hfrag.targets l hl

mutual

theorem Stmt.orderly (σ : Scope) {K : String → Prop} : (s : Stmt) → Orderly K (s.code σ)
  | .assign x e l => (σ.orderly_address x l).bind fun _ => (e.orderly σ).bind fun _ =>
    orderly_plain rfl
  | .assignAt x es e l => (σ.orderly_address x l).bind fun _ =>
    (Expr.orderly_element σ es).bind fun _ => (e.orderly σ).bind fun _ =>
    orderly_plain rfl
  | .ifThen c s _ => (c.orderly σ).bind fun _ => orderly_fresh_bind fun done =>
    (orderly_emit [done] rfl (by simp)).bind fun _ => (Stmt.orderly σ s).bind fun _ =>
    orderly_emit [done] rfl (by simp)
  | .ifElse c s t _ => (c.orderly σ).bind fun _ => orderly_fresh_bind fun other =>
    orderly_fresh_bind fun done => (orderly_emit [other] rfl (by simp)).bind fun _ =>
    (Stmt.orderly σ s).bind fun _ => (orderly_emit [other, done] rfl (by simp)).bind fun _ =>
    (Stmt.orderly σ t).bind fun _ => orderly_emit [done] rfl (by simp)
  | .whileDo c s _ => orderly_fresh_bind fun again => orderly_fresh_bind fun done =>
    (orderly_emit [again] rfl (by simp)).bind fun _ => (c.orderly σ).bind fun _ =>
    (orderly_emit [done] rfl (by simp)).bind fun _ => (Stmt.orderly σ s).bind fun _ =>
    orderly_emit [done, again] rfl (by simp)
  | .switch e cs d _ => (orderly_checkCases cs).bind fun _ => orderly_fresh_bind fun choice =>
    orderly_fresh_bind fun done => orderly_fresh_bind fun otherwise =>
    orderly_caseLabels_bind fun labels => (orderly_emit [choice] rfl (by simp)).bind fun _ =>
    (SwitchCase.orderly_all σ (by simp) cs labels (by simp +contextual)).bind fun _ =>
    (orderly_emit [choice] rfl (by simp)).bind fun _ => (e.orderly σ).bind fun _ =>
    (orderly_scratch "switch").bind fun _ => (orderly_dispatch (by simp +contextual)).bind fun _ =>
    (orderly_emit [otherwise] rfl (by simp)).bind fun _ => (Stmt.orderly σ d).bind fun _ =>
    orderly_emit [done] rfl (by simp)
  | .block ss _ => Stmt.orderly_all σ ss
  | .print k e _ => (e.orderly σ).bind fun _ => orderly_straight (straight_print k)
  | .newline _ => orderly_plain rfl
  | .ret v l => by
    cases hm : σ.active with
    | none =>
      simp only [Stmt.code, hm]
      exact orderly_fail _
    | some m =>
      cases v with
      | some e =>
        simp only [Stmt.code, hm]
        exact (e.orderly σ).bind fun _ => orderly_plain rfl
      | none =>
        simp only [Stmt.code, hm]
        split
        · exact (orderly_tell rfl).bind fun _ => (orderly_plain rfl).bind fun _ => orderly_plain rfl
        · exact (orderly_plain rfl).bind fun _ => orderly_plain rfl
  | .call f es l => (σ.orderly_call f l _ (Expr.orderly_reversed σ es)).bind fun _ =>
    (orderly_scratch "discard").bind fun _ => orderly_plain rfl

theorem Stmt.orderly_all (σ : Scope) {K : String → Prop} :
    (ss : List Stmt) → Orderly K (Stmt.codeAll σ ss)
  | [] => orderly_pure ()
  | s :: ss => (Stmt.orderly σ s).bind fun _ => Stmt.orderly_all σ ss

theorem SwitchCase.orderly_all (σ : Scope) {K : String → Prop} {done : String} (hdone : K done) :
    (cs : List SwitchCase) → (labels : List String) → (∀ l ∈ labels, K l) →
      Orderly K (SwitchCase.codeAll σ done cs labels)
  | .mk _ s _ :: cs, l :: labels, hl => by
    rw [List.forall_mem_cons] at hl
    exact (orderly_emit [l] rfl (by simpa using hl.1)).bind fun _ => (Stmt.orderly σ s).bind fun _ =>
      (orderly_emit [done] rfl (by simpa using hdone)).bind fun _ =>
      SwitchCase.orderly_all σ hdone cs labels hl.2
  | [], _, _ | .mk _ _ _ :: _, [], _ => orderly_pure ()

end

theorem orderly_bodyCode (σ : Scope) (ss : List Stmt) : Orderly K (bodyCode σ ss) := by
  induction ss with
  | nil => exact orderly_pure ()
  | cons s ss ih => exact ((s.orderly σ).locatedAt _).bind fun _ => ih

end Code

/-- One of the labels of methods. -/
def IsMethodLabel (l : String) : Prop := ∃ m, l = methodLabel m

theorem Method.orderly (σ : Scope) (m : Method) : Orderly IsMethodLabel (m.code σ) := by
  refine ((orderly_ofExcept _).locatedAt _).bind fun s => (orderly_tell rfl).bind fun _ =>
    (orderly_emit [methodLabel m.name] ?_ ?_).bind fun _ =>
    (orderly_bodyCode _ _).bind fun _ => orderly_plain rfl
  · have hpushes := straight_replicate_push s.locals.length 0
    show (methodLabel m.name :: Assembly.places (List.replicate _ _)) ++
      Assembly.targets (List.replicate _ _) = _
    rw [hpushes.places, hpushes.targets]
    rfl
  · simp [IsMethodLabel]

theorem orderly_methodsCode (σ : Scope) (ms : List Method) :
    Orderly IsMethodLabel (methodsCode σ ms) := by
  induction ms with
  | nil => exact orderly_pure ()
  | cons m ms ih => exact (m.orderly σ).bind fun _ => ih

theorem Node.orderly (σ : Scope) : (node : Node) → Orderly IsMethodLabel (node.code σ)
  | program p => (orderly_bodyCode σ p.body).bind fun _ => (orderly_plain rfl).bind fun _ =>
    (orderly_methodsCode σ p.methods).bind fun _ => orderly_scratchWords.bind fun _ =>
    orderly_plain (by simp)
  | method m => m.orderly σ
  | stmt s => s.orderly σ
  | expr e => e.orderly σ

/-! ## Moves of a session -/

theorem Scope.localCount_fails (σ : Scope) : (∃ e, σ.localCount = .error e) ↔ σ.active = none := by
  unfold Scope.localCount
  cases σ.active <;> simp

theorem Scope.frameSize_fails (σ : Scope) : (∃ e, σ.frameSize = .error e) ↔ σ.active = none := by
  unfold Scope.frameSize
  cases σ.active <;> simp

namespace Session

/-- The labels of places taken so far. -/
def taken (s : Session) : List String := takenIn s.events

mutual

/-- The sessions in the course of operations, in order: the one before the first operation, those inside
guarded scopes, and the one behind each operation. -/
def course (s : Session) : List Op → List Session
  | [] => [s]
  | op :: ops => s :: (s.guarded op ++ course (s.step op).2 ops)

/-- The sessions in the course of what an operation does inside a scope that it guards. -/
def guarded (s : Session) : Op → List Session
  | .within m ops =>
    match s.scope.enter m with
    | .ok sig => course { s with scope := s.scope.inside sig } ops
    | .error _ => []
  | _ => []

end

/-- All that one operation can do, except for what happens inside a guarded scope. -/
inductive Move : Session → Session → Prop
  | stay {s : Session} : Move s s
  | enter {s : Session} {m : String} {sig : Signature} : s.scope.enter m = .ok sig →
      Move s { s with scope := s.scope.inside sig }
  | leave {s : Session} : Move s { s with scope := s.scope.outside }
  | emit {s : Session} {α : Type} {e : Emission α} : e.Orderly IsMethodLabel s.labels →
      Move s { s with
        labels := e.labels, code := s.code ++ e.code, events := s.events ++ e.events }

variable {t : Table} {s s' : Session}

theorem move_take {x : Emitter String} (hx : Orderly IsMethodLabel x)
    (hcode : (x.run s.labels).code = []) : Move s (s.take x).2 := by
  have h := Move.emit (hx s.labels)
  rwa [hcode, List.append_nil] at h

theorem getLast?_course (s : Session) (ops : List Op) :
    (s.course ops).getLast? = some (s.run ops).2 := by
  induction ops generalizing s with
  | nil => rfl
  | cons op ops ih =>
    rw [course, List.getLast?_cons, List.getLast?_append, ih]
    rfl

theorem head?_course (s : Session) (ops : List Op) : (s.course ops).head? = some s := by
  cases ops <;> rfl

mutual

/-- The sessions in the course of operations go from one to the next by moves. -/
theorem isChain_course (s : Session) : (ops : List Op) → (s.course ops).IsChain Move
  | [] => .singleton s
  | op :: ops => by
    obtain ⟨rest, hrest⟩ := List.head?_eq_some_iff.1 (head?_course (s.step op).2 ops)
    have hchain := isChain_course (s.step op).2 ops
    rw [hrest] at hchain
    rw [course, hrest, ← List.cons_append, List.isChain_split]
    exact ⟨isChain_guarded s op, hchain⟩

theorem isChain_guarded (s : Session) :
    (op : Op) → (s :: s.guarded op ++ [(s.step op).2]).IsChain Move
  | .within m ops => by
    cases hm : s.scope.enter m with
    | error e =>
      have hguarded : s.guarded (.within m ops) = [] := by rw [guarded, hm]
      have hstep : (s.step (.within m ops)).2 = s := by rw [step, hm]
      rw [hguarded, hstep]
      exact List.isChain_pair.2 .stay
    | ok sig =>
      -- Behind the sessions inside the scope is the last of them, outside again.
      let s₁ : Session := { s with scope := s.scope.inside sig }
      have hguarded : s.guarded (.within m ops) = s₁.course ops := by rw [guarded, hm]
      have hstep : (s.step (.within m ops)).2 =
          { (s₁.run ops).2 with scope := (s₁.run ops).2.scope.outside } := by rw [step, hm]
      have hchain := isChain_course s₁ ops
      have hlast := getLast?_course s₁ ops
      obtain ⟨rest, hrest⟩ := List.head?_eq_some_iff.1 (head?_course s₁ ops)
      rw [hguarded, hstep]
      rw [hrest] at hchain hlast ⊢
      refine List.isChain_append.2 ⟨List.isChain_cons_cons.2 ⟨.enter hm, hchain⟩, .singleton _, ?_⟩
      rw [List.getLast?_cons_cons, hlast]
      rintro _ ⟨⟩ _ ⟨⟩
      exact .leave
  | .enter m => by
    rw [step]
    cases hm : s.scope.enter m with
    | error e => exact List.isChain_pair.2 .stay
    | ok sig => exact List.isChain_pair.2 (.enter hm)
  | .exit => by
    rw [step]
    cases s.scope.active with
    | none => exact List.isChain_pair.2 .stay
    | some m => exact List.isChain_pair.2 .leave
  | .scratch x => List.isChain_pair.2 (move_take (orderly_scratch x) rfl)
  | .fresh stem => List.isChain_pair.2 (move_take (orderly_fresh stem) rfl)
  | .emit node => List.isChain_pair.2 (.emit (node.orderly s.scope s.labels))
  | .resolve _ | .method _ | .globals | .wordSize | .active | .localCount | .frameSize
  | .methodLabel _ | .variableLabel _ | .scratchWords | .code => List.isChain_pair.2 .stay

end

/-! ## What moves keep -/

/-- What holds of a session on the table `t` at every moment. -/
structure Sound (t : Table) (s : Session) : Prop where
  table : s.scope.table = t
  active : ∀ m ∈ s.scope.active, t.method? m.name = some m
  taken : Numbered 0 s.labels.next s.taken
  used : ∀ l ∈ s.code.places ++ s.code.targets, IsMethodLabel l ∨ l ∈ s.taken
  named : s.labels.ScratchNamed

/-- What is taken and declared at one moment still is at a later one, and what comes to it comes at the
end. -/
structure Grows (s s' : Session) : Prop where
  table : s'.scope.table = s.scope.table
  taken : s.taken <+: s'.taken
  scratch : s.labels.scratch <+: s'.labels.scratch

theorem sound_start (t : Table) : (start t).Sound t where
  table := rfl
  active := by simp [start]
  taken := .nil _ _
  used := by simp [start, Assembly.places, Assembly.targets]
  named := by simp [start, Labels.ScratchNamed]

theorem Move.sound (h : Move s s') (hs : s.Sound t) : s'.Sound t := by
  cases h with
  | stay => exact hs
  | @enter m sig hm =>
    have hfind := (enter_eq_ok.1 hm).1
    rw [hs.table] at hfind
    have hname : sig.name = m := by simpa using List.find?_some hfind
    refine { hs with active := ?_ }
    rintro _ ⟨⟩
    rw [hname]
    exact hfind
  | leave => exact { hs with active := by simp [Scope.outside] }
  | @emit α e he =>
    refine { hs with taken := ?_, used := fun l hl => ?_, named := he.named hs.named }
    · rw [taken, takenIn_append]
      exact hs.taken.append he.taken (Nat.zero_le _) he.next_le
    · rw [taken, takenIn_append, List.mem_append]
      simp only [Assembly.places_append, Assembly.targets_append, List.mem_append] at hl
      have hused := hs.used l
      have hused' := he.used l
      rw [List.mem_append] at hused hused'
      rcases or_or_or_comm.1 hl with hl | hl
      · exact (hused hl).imp_right .inl
      · exact (hused' hl).imp_right .inr

theorem Move.grows (h : Move s s') : Grows s s' := by
  cases h with
  | stay | enter | leave => exact ⟨rfl, List.prefix_rfl, List.prefix_rfl⟩
  | @emit α e he =>
    refine ⟨rfl, ?_, he.scratch⟩
    rw [taken, taken, takenIn_append]
    exact List.prefix_append _ _

instance : Trans Grows Grows Grows where
  trans h h' := ⟨h'.table.trans h.table, h.taken.trans h'.taken, h.scratch.trans h'.scratch⟩

theorem pairwise_course (s : Session) (ops : List Op) : (s.course ops).Pairwise Grows :=
  ((isChain_course s ops).imp fun _ _ => Move.grows).pairwise

theorem sound_course (hs : s.Sound t) (ops : List Op) : ∀ s' ∈ s.course ops, s'.Sound t := by
  refine (isChain_course s ops).induction _ _ (fun _ _ h => h.sound) fun hne => ?_
  rwa [List.head_of_mem_head? (head?_course s ops)]

theorem Sound.fresh (hs : s.Sound t) (stem : String) :
    ∃ l, (s.step (.fresh stem)).1 = .label l ∧ l ∉ s.taken ∧
      (s.step (.fresh stem)).2.taken = s.taken ++ [l] := by
  refine ⟨placeLabel stem s.labels.next, rfl, fun hl => ?_, takenIn_append _ _⟩
  obtain ⟨x, n, heq, -, hn⟩ := hs.taken.1 _ hl
  exact absurd (placeLabel_inj heq) (by omega)

theorem Sound.ne_of_taken (hs : s.Sound t) {l : String} (hl : l ∈ s.taken) (x : String) :
    l ≠ methodLabel x ∧ l ≠ variableLabel x ∧ l ≠ scratchLabel x := by
  obtain ⟨y, n, rfl, -⟩ := hs.taken.1 l hl
  refine ⟨fun h => ?_, fun h => ?_, fun h => ?_⟩ <;> simpa using congrArg labelMark h

/-- Throughout a session no label is taken twice or is the label of something else, no scratch word is
listed twice, the table is that of the program, and an active method is the one of the program that is
found under its name. Labels and scratch words are only added, at the end. -/
theorem session_invariants {settings : Settings} {p : Program} {t : Table}
    (h : (Table.ofProgram settings p).result = .ok t) (ops : List Op) :
    ((start t).course ops).getLast? = some ((start t).run ops).2 ∧
    ((start t).course ops).Pairwise Grows ∧
    ∀ s ∈ (start t).course ops,
      s.taken.Nodup ∧
      (∀ l ∈ s.taken, ∀ x, l ≠ methodLabel x ∧ l ≠ variableLabel x ∧ l ≠ scratchLabel x) ∧
      (∀ l ∈ s.code.places ++ s.code.targets, IsMethodLabel l ∨ l ∈ s.taken) ∧
      (∀ stem, ∃ l, (s.step (.fresh stem)).1 = .label l ∧ l ∉ s.taken ∧
        (s.step (.fresh stem)).2.taken = s.taken ++ [l]) ∧
      s.labels.scratch.Nodup ∧
      s.scope.table = t ∧ t.globals = p.globals ∧ t.methods = p.methods.map Method.toSignature ∧
      settings.wordSize = t.wordSize ∧
      (∀ m ∈ s.scope.active,
        (∃ d ∈ p.methods, d.toSignature = m) ∧ s.scope.table.method? m.name = some m) ∧
      ((∃ e, s.scope.localCount = .error e) ↔ s.scope.active = none) ∧
      ((∃ e, s.scope.frameSize = .error e) ↔ s.scope.active = none) := by
  have ht := Table.ofProgram_eq_ok.1 h
  refine ⟨getLast?_course _ ops, pairwise_course _ ops, fun s hs => ?_⟩
  have hs := sound_course (sound_start t) ops s hs
  refine ⟨hs.taken.2, fun l hl => hs.ne_of_taken hl, hs.used, hs.fresh, hs.named.2, hs.table,
    ht.globals, ht.methods, ht.wordSize, fun m hm => ?_, s.scope.localCount_fails, s.scope.frameSize_fails⟩
  have hfind := hs.active m hm
  have hmem := List.mem_of_find?_eq_some hfind
  rw [ht.methods, List.mem_map] at hmem
  exact ⟨hmem, by rw [hs.table, hfind]⟩

/-- One procedure `f`. -/
def oneProcedure : Program where
  globals := []
  body := []
  methods := [⟨⟨"f", none, [], []⟩, [], ⟨1, 11⟩⟩]

/-- Takes a label inside `f`, leaves `f` too early, breaks off in the code of a loop, enters `f` again and
is put out of it by the end of the guarded scope, which leaves nothing to exit from. -/
def strayOps : List Op :=
  [.within "f" [.fresh "a", .exit, .emit (.stmt (.whileDo (.var "x" .start) (.newline .start) .start)),
    .enter "f"], .exit, .scratch "a", .fresh "a", .scratch "a"]

theorem session_invariants_strayOps :
    ∃ t s, (Table.ofProgram {} oneProcedure).result = .ok t ∧ s ∈ (start t).course strayOps ∧
      s.taken = ["$$_a_0", "$$_while_start_1", "$$_while_end_2", "$$_a_3"] ∧ s.taken.Nodup ∧
      s.code = [.label "$$_while_start_1"] ∧
      (∀ l ∈ s.code.places ++ s.code.targets, IsMethodLabel l ∨ l ∈ s.taken) ∧
      s.labels.scratch = ["$s_a"] ∧ s.scope.active = none ∧ (∃ e, s.scope.frameSize = .error e) := by
  have htable : ∃ t, (Table.ofProgram {} oneProcedure).result = .ok t ∧
      ((start t).run strayOps).2.taken = ["$$_a_0", "$$_while_start_1", "$$_while_end_2", "$$_a_3"] ∧
      ((start t).run strayOps).2.code = [.label "$$_while_start_1"] ∧
      ((start t).run strayOps).2.labels.scratch = ["$s_a"] ∧
      ((start t).run strayOps).2.scope.active = none := ⟨_, rfl, by decide +kernel⟩
  obtain ⟨t, ht, htaken, hcode, hscratch, hactive⟩ := htable
  obtain ⟨hlast, -, hsound⟩ := session_invariants ht strayOps
  have hmem := List.mem_of_getLast? hlast
  obtain ⟨hnodup, -, hused, -, -, -, -, -, -, -, -, hframe⟩ := hsound _ hmem
  exact ⟨t, _, ht, hmem, htaken, hnodup, hcode, hused, hscratch, hactive, hframe.2 hactive⟩

end Session

end Lpl
