import Lpl.Table

/-!
# What a checked table guarantees

Building the table of a program succeeds exactly when its declarations are in order. Each check
gets a lemma that says what its success means; `Table.ofProgram_eq_ok` puts them together as
`WellDeclared`.
-/

namespace Lpl

namespace Logged

variable {ε α β : Type}

@[simp] theorem result_pure (a : α) : (pure a : Logged ε α).result = .ok a := rfl

@[simp] theorem result_tell (es : List Event) : (tell es : Logged ε Unit).result = .ok () := rfl

@[simp] theorem result_ofExcept (x : Except ε α) : (ofExcept x).result = x := rfl

theorem bind_eq_ok {x : Logged ε α} {f : α → Logged ε β} {b : β} :
    (x >>= f).result = .ok b ↔ ∃ a, x.result = .ok a ∧ (f a).result = .ok b := by
  show (Logged.bind x f).result = _ ↔ _
  unfold Logged.bind
  obtain ⟨result, events⟩ := x
  cases result <;> simp

/-- A step without a result of its own only has to succeed. -/
theorem unit_bind_eq_ok {x : Logged ε Unit} {f : Unit → Logged ε β} {b : β} :
    (x >>= f).result = .ok b ↔ x.result = .ok () ∧ (f ()).result = .ok b := by
  rw [bind_eq_ok]
  exact ⟨fun ⟨_, hx, hf⟩ => ⟨hx, hf⟩, fun ⟨hx, hf⟩ => ⟨(), hx, hf⟩⟩

/-- The error, if the result is one. -/
def error? (x : Logged ε α) : Option ε :=
  match x.result with
  | .ok _ => none
  | .error e => some e

theorem error?_eq_some {x : Logged ε α} {e : ε} : x.error? = some e ↔ x.result = .error e := by
  unfold error?
  cases x.result <;> simp

end Logged

namespace Table

variable {w : Nat} {policy : Shadowing}

/-- No two declarations have one name, and none has a name of the `earlier` ones. -/
def Distinct (earlier ds : List Decl) : Prop :=
  (ds.map Decl.name).Nodup ∧ ∀ d ∈ ds, ¬ Declares earlier d.name

theorem distinct_cons {earlier ds : List Decl} {d : Decl} :
    Distinct earlier (d :: ds) ↔ ¬ Declares earlier d.name ∧ Distinct (earlier ++ [d]) ds := by
  simp only [Distinct, Declares, List.map_cons, List.nodup_cons, List.mem_cons, forall_eq_or_imp,
    List.map_append, List.mem_append, not_or, List.mem_map, List.map_nil, List.not_mem_nil,
    not_false_eq_true, and_true]
  constructor
  · rintro ⟨⟨hd, hds⟩, he, hes⟩
    exact ⟨he, hds, fun x hx => ⟨hes x hx, fun h => hd ⟨x, hx, h⟩⟩⟩
  · rintro ⟨he, hds, hes⟩
    exact ⟨⟨fun ⟨x, hx, h⟩ => (hes x hx).2 h, hds⟩, he, fun x hx => (hes x hx).1⟩

/-- Every position of a declaration is in range, the first of them being `n`. -/
theorem forall_range_cons {P : Nat → Prop} {ds : List Decl} {d : Decl} (n : Nat) :
    (∀ i < (d :: ds).length, P (n + i)) ↔ P n ∧ ∀ i < ds.length, P (n + 1 + i) := by
  constructor
  · intro h
    exact ⟨h 0 (by simp), fun i hi => by
      have := h (i + 1) (by simpa using hi)
      rwa [show n + 1 + i = n + (i + 1) by omega]⟩
  · rintro ⟨h0, h⟩ i hi
    cases i with
    | zero => exact h0
    | succ i =>
      rw [show n + (i + 1) = n + 1 + i by omega]
      exact h i (by simpa using hi)

theorem checkGlobals_eq_ok {earlier ds : List Decl} :
    checkGlobals w earlier ds = .ok () ↔
      Distinct earlier ds ∧ ∀ i < ds.length, InRange w (earlier.length + i) := by
  induction ds generalizing earlier with
  | nil => simp [checkGlobals, Distinct]
  | cons d ds ih =>
    rw [distinct_cons, forall_range_cons, checkGlobals]
    have hlen : (earlier ++ [d]).length = earlier.length + 1 := by simp
    by_cases hd : Declares earlier d.name
    · simp [hd]
    · by_cases hr : InRange w earlier.length
      · simp only [hd, hr, if_true, if_false, ih, hlen, not_false_eq_true, true_and]
      · simp [hd, hr]

theorem checkSlots_eq_ok {region : CompileError.Region} {earlier ds : List Decl} :
    checkSlots w region earlier ds = .ok () ↔
      Distinct earlier ds ∧ ∀ i < ds.length, InRange w (earlier.length + i + 1 + linkageWords) := by
  induction ds generalizing earlier with
  | nil => simp [checkSlots, Distinct]
  | cons d ds ih =>
    rw [distinct_cons, forall_range_cons (P := fun n => InRange w (n + 1 + linkageWords)), checkSlots]
    have hlen : (earlier ++ [d]).length = earlier.length + 1 := by simp
    by_cases hr : InRange w (earlier.length + 1 + linkageWords)
    · by_cases hd : Declares earlier d.name
      · simp [hd, hr]
      · simp only [hd, hr, if_false, ih, hlen, not_true_eq_false, not_false_eq_true, true_and]
    · simp [hr]

/-- The parameters and locals of a method are in order, and hide no global where that is an
error. -/
structure MethodOk (w : Nat) (globals : List Decl) (policy : Shadowing) (m : Signature) : Prop where
  params : Distinct [] m.params
  params_inRange : ∀ i < m.params.length, InRange w (i + 1 + linkageWords)
  locals : Distinct [] m.locals
  locals_inRange : ∀ i < m.locals.length, InRange w (i + 1 + linkageWords)
  disjoint : ∀ d ∈ m.locals, ¬ Declares m.params d.name
  visible : policy = .reject → ∀ d ∈ m.params ++ m.locals, ¬ Declares globals d.name

theorem checkMethod_eq_ok {globals : List Decl} {m : Signature} :
    (checkMethod w globals policy m).result = .ok () ↔ MethodOk w globals policy m := by
  have hshadow : shadowing globals m = [] ↔ ∀ d ∈ m.params ++ m.locals, ¬ Declares globals d.name := by
    simp [shadowing, List.filter_eq_nil_iff, or_imp, forall_and]
  unfold checkMethod
  rw [Logged.unit_bind_eq_ok, Logged.unit_bind_eq_ok, Logged.result_ofExcept,
    Logged.result_ofExcept, checkSlots_eq_ok, checkSlots_eq_ok]
  simp only [List.length_nil, Nat.zero_add]
  cases hfind : m.locals.find? (fun d => Declares m.params d.name) with
  | some d =>
    simp only [Logged.result_ofExcept, reduceCtorEq, and_false, false_iff]
    intro h
    exact h.disjoint d (List.mem_of_find?_eq_some hfind) (by simpa using List.find?_some hfind)
  | none =>
    have hdis : ∀ d ∈ m.locals, ¬ Declares m.params d.name := by
      simpa [List.find?_eq_none] using hfind
    constructor
    · rintro ⟨⟨hp, hpr⟩, ⟨hl, hlr⟩, hv⟩
      refine ⟨hp, hpr, hl, hlr, hdis, ?_⟩
      rintro rfl
      rw [← hshadow]
      cases hs : shadowing globals m with
      | nil => rfl
      | cons d ds => simp [hs] at hv
    · rintro ⟨hp, hpr, hl, hlr, -, hv⟩
      refine ⟨⟨hp, hpr⟩, ⟨hl, hlr⟩, ?_⟩
      cases policy with
      | allow => rfl
      | warn => rfl
      | reject => rw [hshadow.2 (hv rfl)]; rfl

theorem checkMethods_eq_ok {globals : List Decl} {earlier : List String} {ms : List Method} :
    (checkMethods w globals policy earlier ms).result = .ok () ↔
      ((ms.map fun m => m.name).Nodup ∧ ∀ m ∈ ms, m.name ∉ earlier) ∧
        ∀ m ∈ ms, MethodOk w globals policy m.toSignature := by
  induction ms generalizing earlier with
  | nil => simp [checkMethods]
  | cons m ms ih =>
    rw [checkMethods]
    by_cases hm : m.name ∈ earlier
    · simp [hm]
    · rw [if_neg hm, Logged.unit_bind_eq_ok, checkMethod_eq_ok, ih]
      simp only [List.map_cons, List.nodup_cons, List.mem_cons, forall_eq_or_imp, List.mem_append,
        not_or, List.mem_map, hm, List.not_mem_nil, not_false_eq_true, true_and, and_true]
      constructor
      · rintro ⟨hok, ⟨hnd, hms⟩, hoks⟩
        exact ⟨⟨⟨fun ⟨x, hx, h⟩ => (hms x hx).2 h, hnd⟩, fun x hx => (hms x hx).1⟩, hok, hoks⟩
      · rintro ⟨⟨⟨hne, hnd⟩, hms⟩, hok, hoks⟩
        exact ⟨hok, ⟨hnd, fun x hx => ⟨hms x hx, fun h => hne ⟨x, hx, h⟩⟩⟩, hoks⟩

end Table

/-- The declarations of a program are in order under the settings, and `t` is their table. -/
structure WellDeclared (s : Settings) (p : Program) (t : Table) : Prop where
  wordSize : s.wordSize = t.wordSize
  one_le_wordSize : 1 ≤ t.wordSize
  wordSize_le : t.wordSize ≤ Settings.maxWordSize
  globals : t.globals = p.globals
  methods : t.methods = p.methods.map Method.toSignature
  globals_nodup : (p.globals.map Decl.name).Nodup
  globals_inRange : ∀ i < p.globals.length, Table.InRange t.wordSize i
  methods_nodup : (p.methods.map fun m => m.name).Nodup
  methods_ok : ∀ m ∈ p.methods, Table.MethodOk t.wordSize p.globals s.shadowing m.toSignature

theorem Table.ofProgram_eq_ok {s : Settings} {p : Program} {t : Table} :
    (Table.ofProgram s p).result = .ok t ↔ WellDeclared s p t := by
  unfold Table.ofProgram
  by_cases hw : 1 ≤ s.wordSize ∧ s.wordSize ≤ Settings.maxWordSize
  · rw [if_pos hw]
    simp only [Logged.unit_bind_eq_ok, Logged.result_ofExcept, Logged.result_tell, Logged.result_pure,
      checkGlobals_eq_ok, checkMethods_eq_ok, List.length_nil, Nat.zero_add, List.not_mem_nil,
      not_false_eq_true, implies_true, and_true, true_and, Except.ok.injEq]
    constructor
    · rintro ⟨⟨⟨hg, -⟩, hgr⟩, ⟨hm, hok⟩, rfl⟩
      exact {
        wordSize := by show s.wordSize = (s.wordSize.toNat : Int); omega
        one_le_wordSize := by show 1 ≤ s.wordSize.toNat; omega
        wordSize_le := by show s.wordSize.toNat ≤ _; omega
        globals := rfl
        methods := rfl
        globals_nodup := hg
        globals_inRange := hgr
        methods_nodup := hm
        methods_ok := hok }
    · intro h
      have hnat : s.wordSize.toNat = t.wordSize := by rw [h.wordSize]; rfl
      rw [hnat]
      refine ⟨⟨⟨h.globals_nodup, by simp [Declares]⟩, h.globals_inRange⟩,
        ⟨h.methods_nodup, h.methods_ok⟩, ?_⟩
      rw [← h.globals, ← h.methods]
  · rw [if_neg hw]
    simp only [Logged.result_ofExcept, reduceCtorEq, false_iff]
    intro h
    refine hw ⟨?_, ?_⟩
    · rw [h.wordSize]; exact_mod_cast h.one_le_wordSize
    · rw [h.wordSize]; exact_mod_cast h.wordSize_le

end Lpl
