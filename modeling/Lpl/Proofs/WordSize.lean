import Lpl.Proofs.Blame.Faults
import Lpl.Proofs.Coupling
import Lpl.Proofs.Simulation.Frames

/-!
# The word size scales addresses

Compiling a program for another word size changes the displacements of variables from their base, in
proportion, and nothing else: the error is the same, or the code is the same line by line but for the
numbers behind `get_fp` and `get_dp` (`compile_scales`). Only a layout that does not fit one of the word
sizes comes between.

The tables agree because no check but that of the range looks at the word size (`Agrees`). The code agrees
by the coupling of two runs whose addresses are in proportion.
-/

namespace Lpl

/-! ## Code with addresses in proportion -/

/-- A line that an address starts with. -/
def Instruction.isBase : Instruction → Bool
  | getFp | getDp => true
  | _ => false

/-- The same code for word sizes `w` and `w'`: all lines are equal, except that each address has its own
displacement, and the displacements are in proportion. -/
inductive Scaled (w w' : Int) : Assembly → Assembly → Prop
  | nil : Scaled w w' [] []
  | line {i F F'} : i.isBase = false → Scaled w w' F F' → Scaled w w' (i :: F) (i :: F')
  | address {b d d' F F'} : b.isBase = true → d.toInt * w' = d'.toInt * w → Scaled w w' F F' →
    Scaled w w' (b :: .push d :: .add :: F) (b :: .push d' :: .add :: F')

namespace Scaled

variable {w w' : Int} {F F' G G' : Assembly}

theorem append (hF : Scaled w w' F F') (hG : Scaled w w' G G') : Scaled w w' (F ++ G) (F' ++ G') := by
  induction hF with
  | nil => exact hG
  | line hi _ ih => exact .line hi ih
  | address hb hd _ ih => exact .address hb hd ih

theorem same (h : ∀ i ∈ F, i.isBase = false) : Scaled w w' F F := by
  induction F with
  | nil => exact .nil
  | cons i F ih =>
    exact .line (h i List.mem_cons_self) (ih fun j hj => h j (List.mem_cons_of_mem i hj))

theorem symm (h : Scaled w w' F F') : Scaled w' w F' F := by
  induction h with
  | nil => exact .nil
  | line hi _ ih => exact .line hi ih
  | address hb hd _ ih => exact .address hb hd.symm ih

theorem length_eq (h : Scaled w w' F F') : F'.length = F.length := by
  induction h with
  | nil => rfl
  | line _ _ ih => rw [List.length_cons, List.length_cons, ih]
  | address _ _ _ ih => simp only [List.length_cons, ih]

/-- Lines that do not follow a base are equal. -/
theorem getElem?_eq (h : Scaled w w' F F') {k : Nat}
    (hk : ∀ j b, k = j + 1 → F[j]? = some b → b.isBase = false) : F'[k]? = F[k]? := by
  induction h generalizing k with
  | nil => rfl
  | line _ _ ih =>
    cases k with
    | zero => rfl
    | succ k =>
      refine ih fun j b hj hb => hk (j + 1) b (by omega) ?_
      simpa using hb
  | @address b d d' F F' hb _ _ ih =>
    -- Of the three lines only the displacement may differ, and it follows the base.
    rcases k with _ | _ | _ | k
    · rfl
    · cases hb.symm.trans (hk 0 b rfl rfl)
    · rfl
    · refine ih fun j c hj hc => hk (j + 3) c (by omega) ?_
      simpa using hc

/-- A base is followed by a displacement and an addition. -/
theorem exists_address (h : Scaled w w' F F') {k : Nat} {b : Instruction} (hb : b.isBase = true)
    (hk : F[k]? = some b) :
    ∃ d d' : Int32, F[k + 1]? = some (.push d) ∧ F'[k + 1]? = some (.push d') ∧
      d.toInt * w' = d'.toInt * w ∧ F[k + 2]? = some .add ∧ F'[k + 2]? = some .add := by
  induction h generalizing k with
  | nil => cases hk
  | @line i F F' hi _ ih =>
    cases k with
    | zero =>
      cases hk
      cases hb.symm.trans hi
    | succ k => exact ih hk
  | @address b' d d' F F' _ hd _ ih =>
    rcases k with _ | _ | _ | k
    · exact ⟨d, d', rfl, rfl, hd, rfl, rfl⟩
    · cases hk
      cases hb
    · cases hk
      cases hb
    · exact ih hk

end Scaled

/-! ## Checks of declarations -/

namespace Logged

variable {α β γ δ : Type}

/-- Unless one of them fails for its layout, both fail with the same error or none fails. -/
def Agrees (x : Logged CompileError α) (y : Logged CompileError β) : Prop :=
  (∀ f, x.error? ≠ some (.layout f)) → (∀ f, y.error? ≠ some (.layout f)) → x.error? = y.error?

theorem error?_of_ok {x : Logged CompileError α} {a : α} (h : x.result = .ok a) : x.error? = none := by
  rw [error?, h]

theorem error?_bind_ok {x : Logged CompileError α} {k : α → Logged CompileError γ} {a : α}
    (h : x.result = .ok a) : (x >>= k).error? = (k a).error? := by
  show (Logged.bind x k).error? = _
  rw [Logged.bind, h]
  rfl

theorem error?_bind_error {x : Logged CompileError α} {k : α → Logged CompileError γ}
    {e : CompileError} (h : x.result = .error e) : (x >>= k).error? = some e :=
  error?_eq_some.2 (bind_eq_error.2 (.inl h))

variable {x : Logged CompileError α} {y : Logged CompileError β} {k : α → Logged CompileError γ}
  {k' : β → Logged CompileError δ}

theorem Agrees.refl (x : Logged CompileError α) : Agrees x x := fun _ _ => rfl

theorem Agrees.bind (hx : Agrees x y)
    (hk : ∀ a b, x.result = .ok a → y.result = .ok b → Agrees (k a) (k' b)) :
    Agrees (x >>= k) (y >>= k') := by
  intro hl hl'
  cases hxr : x.result with
  | error e =>
    have hxe : x.error? = some e := error?_eq_some.2 hxr
    rw [error?_bind_error hxr, ← hxe] at hl ⊢
    cases hyr : y.result with
    | error e' =>
      rw [error?_bind_error hyr, ← error?_eq_some.2 hyr] at hl' ⊢
      exact hx hl hl'
    | ok b =>
      have hye : y.error? = none := error?_of_ok hyr
      have heq := hx hl (by simp [hye])
      rw [hxe, hye] at heq
      cases heq
  | ok a =>
    have hxe : x.error? = none := error?_of_ok hxr
    rw [error?_bind_ok hxr] at hl ⊢
    cases hyr : y.result with
    | error e' =>
      have hye : y.error? = some e' := error?_eq_some.2 hyr
      rw [error?_bind_error hyr, ← hye] at hl'
      have heq := hx (by simp [hxe]) hl'
      rw [hxe, hye] at heq
      cases heq
    | ok b =>
      rw [error?_bind_ok hyr] at hl' ⊢
      exact hk a b hxr hyr hl hl'

/-- A failure for the layout agrees with everything. -/
theorem agrees_layout_left (f : CompileError.LayoutFault) (y : Logged CompileError β) :
    Agrees (ofExcept (.error (.layout f)) : Logged CompileError α) y :=
  fun hl _ => absurd rfl (hl f)

theorem agrees_layout_right (x : Logged CompileError α) (f : CompileError.LayoutFault) :
    Agrees x (ofExcept (.error (.layout f)) : Logged CompileError β) :=
  fun _ hl => absurd rfl (hl f)

end Logged

namespace Table

open Logged

variable (w w' : Nat)

theorem agrees_checkGlobals (earlier ds : List Decl) :
    Agrees (ofExcept (checkGlobals w earlier ds)) (ofExcept (checkGlobals w' earlier ds)) := by
  induction ds generalizing earlier with
  | nil => exact .refl _
  | cons d ds ih =>
    unfold checkGlobals
    by_cases hd : Declares earlier d.name
    · rw [if_pos hd, if_pos hd]
      exact .refl _
    rw [if_neg hd, if_neg hd]
    by_cases hw : InRange w earlier.length
    · by_cases hw' : InRange w' earlier.length
      · rw [if_pos hw, if_pos hw']
        exact ih _
      · rw [if_neg hw']
        exact agrees_layout_right _ _
    · rw [if_neg hw]
      exact agrees_layout_left _ _

theorem agrees_checkSlots (region : CompileError.Region) (earlier ds : List Decl) :
    Agrees (ofExcept (checkSlots w region earlier ds)) (ofExcept (checkSlots w' region earlier ds)) := by
  induction ds generalizing earlier with
  | nil => exact .refl _
  | cons d ds ih =>
    unfold checkSlots
    by_cases hw : InRange w (earlier.length + 1 + linkageWords)
    · by_cases hw' : InRange w' (earlier.length + 1 + linkageWords)
      · rw [if_neg (not_not.2 hw), if_neg (not_not.2 hw')]
        by_cases hd : Declares earlier d.name
        · rw [if_pos hd, if_pos hd]
          exact .refl _
        · rw [if_neg hd, if_neg hd]
          exact ih _
      · rw [if_pos hw']
        exact agrees_layout_right _ _
    · rw [if_pos hw]
      exact agrees_layout_left _ _

theorem agrees_checkMethod (globals : List Decl) (policy : Shadowing) (m : Signature) :
    Agrees (checkMethod w globals policy m) (checkMethod w' globals policy m) :=
  (agrees_checkSlots w w' _ [] m.params).bind fun _ _ _ _ =>
    (agrees_checkSlots w w' _ [] m.locals).bind fun _ _ _ _ => .refl _

theorem agrees_checkMethods (globals : List Decl) (policy : Shadowing) (earlier : List String)
    (ms : List Method) :
    Agrees (checkMethods w globals policy earlier ms) (checkMethods w' globals policy earlier ms) := by
  induction ms generalizing earlier with
  | nil => exact .refl _
  | cons m ms ih =>
    unfold checkMethods
    by_cases hm : m.name ∈ earlier
    · rw [if_pos hm, if_pos hm]
      exact .refl _
    · rw [if_neg hm, if_neg hm]
      exact (agrees_checkMethod w w' globals policy m.toSignature).bind fun _ _ _ _ => ih _

theorem agrees_ofProgram (w w' : Int) (policy : Shadowing) (p : Program) :
    Agrees (ofProgram ⟨w, policy⟩ p) (ofProgram ⟨w', policy⟩ p) := by
  unfold ofProgram
  by_cases hw : 1 ≤ w ∧ w ≤ Settings.maxWordSize
  · by_cases hw' : 1 ≤ w' ∧ w' ≤ Settings.maxWordSize
    · rw [if_pos hw, if_pos hw']
      refine (agrees_checkGlobals _ _ [] p.globals).bind fun _ _ _ _ =>
        (agrees_checkMethods _ _ p.globals policy [] p.methods).bind fun _ _ _ _ => ?_
      exact (Agrees.refl _).bind fun _ _ _ _ _ _ => rfl
    · rw [if_neg hw']
      exact agrees_layout_right _ _
  · rw [if_neg hw]
    exact agrees_layout_left _ _

end Table

/-! ## Emitted code -/

open Emitter

theorem isBase_of_isBare {i : Instruction} (h : i.isBare) : i.isBase = false := by
  revert h
  cases i <;> simp [Instruction.isBare, Instruction.isBase]

theorem isBase_dataSegment (labels : List String) : ∀ i ∈ dataSegment labels, i.isBase = false := by
  intro i hi
  cases labels with
  | nil => cases hi
  | cons l labels =>
    rcases List.mem_cons.1 hi with rfl | hi
    · rfl
    · obtain ⟨l', -, rfl⟩ := List.mem_map.1 hi
      rfl

/-- Two runs for word sizes `w` and `w'`. -/
def scaleCoupling (w w' : Int) : Coupling where
  supply ls ls' := ls' = ls
  label l l' := l' = l
  code := Scaled w w'
  nil := .nil
  append := .append
  line {i i'} h := by
    cases h with
    | bare hi => exact .line (isBase_of_isBare hi) .nil
    | call => exact .line rfl .nil
    | place hl | jump hl | jumpIfZero hl | loadi hl | storei hl =>
      subst hl
      exact .line rfl .nil
  fresh stem h := by
    subst h
    exact ⟨rfl, rfl⟩
  scratch name h := by
    subst h
    exact ⟨rfl, rfl⟩

/-- The displacement of a place is a word. -/
def Place.Fits (w : Nat) (p : Place) : Prop := FitsWord (p.displacement w)

theorem Place.Fits.toInt_ofInt {w : Nat} {p : Place} (h : p.Fits w) :
    (Int32.ofInt (p.displacement w)).toInt = p.displacement w :=
  Int32.toInt_ofInt_of_le h.1 h.2

/-- Addresses of places with displacements that are words and in proportion. -/
theorem scaled_address {w w' : Nat} {u v : Place} (hbase : v.base = u.base) (hu : u.Fits w)
    (hv : v.Fits w') (h : u.displacement w * w' = v.displacement w' * w) :
    Scaled w w' (u.address w) (v.address w') := by
  unfold Place.address
  rw [hbase]
  refine .address ?_ ?_ .nil
  · cases u <;> rfl
  · rw [hu.toInt_ofInt, hv.toInt_ofInt, h]

theorem natCast_mul_right_comm (n w w' : Nat) :
    ((n * w : Nat) : Int) * w' = ((n * w' : Nat) : Int) * w := by
  rw [Int.natCast_mul, Int.natCast_mul, Int.mul_right_comm]

/-- The displacements of a parameter or local are in proportion to the word size. -/
theorem displacement_mul {m : Signature} {x : String} {v : Variable}
    (h : Scope.inMethod? m x = some v) (w w' : Nat) :
    v.place.displacement w * w' = v.place.displacement w' * w := by
  unfold Scope.inMethod? at h
  split at h
  · cases h
    simp only [Place.displacement, Int.neg_mul, natCast_mul_right_comm _ w w']
  · cases h
    exact natCast_mul_right_comm _ w w'
  · cases h

/-- A parameter or local of a checked method fits. -/
theorem fits_inMethod? {w : Nat} {globals : List Decl} {policy : Shadowing} {m : Signature}
    (hm : Table.MethodOk w globals policy m) {x : String} {v : Variable}
    (h : Scope.inMethod? m x = some v) : v.place.Fits w := by
  unfold Place.Fits FitsWord Numeral.Within Numeral.half32
  have hmono : ∀ i j : Nat, i ≤ j → i * w ≤ j * w := fun i j hij => Nat.mul_le_mul_right w hij
  rcases inMethod?_cases w h with ⟨i, _, -, hi, hδ⟩ | ⟨i, _, -, -, hi, hδ⟩
  · have hr : (i + 1 + linkageWords) * w < 2147483648 := hm.locals_inRange i hi
    have := hmono (i + 1) (i + 1 + linkageWords) (Nat.le_add_right _ _)
    rw [hδ, ← Int.natCast_mul]
    omega
  · have hr : (i + 1 + linkageWords) * w < 2147483648 := hm.params_inRange i hi
    have := hmono (i + 2) (i + 1 + linkageWords) (by rw [linkageWords]; omega)
    rw [hδ, ← Int.natCast_mul]
    omega

/-- So does a global. -/
theorem fits_global {w i : Nat} (h : Table.InRange w i) : (Place.global (i * w)).Fits w := by
  have h : i * w < 2147483648 := h
  show -2147483648 ≤ ((i * w : Nat) : Int) ∧ ((i * w : Nat) : Int) < 2147483648
  omega

theorem WellDeclared.methodOk {s : Settings} {p : Program} {t : Table} (h : WellDeclared s p t)
    {m : Signature} (hm : m ∈ t.methods) : Table.MethodOk t.wordSize p.globals s.shadowing m := by
  rw [h.methods] at hm
  obtain ⟨m', hm', rfl⟩ := List.mem_map.1 hm
  exact h.methods_ok m' hm'

section

variable {policy : Shadowing} {w w' : Int} {p : Program} {t t' : Table}
  (ht : WellDeclared ⟨w, policy⟩ p t) (ht' : WellDeclared ⟨w', policy⟩ p t')

include ht ht'

/-- A global has a place in both tables. -/
theorem exists_global?_scaled {x : String} {v : Variable} (h : Scope.global? t x = some v) :
    ∃ v', Scope.global? t' x = some v' ∧
      Scaled t.wordSize t'.wordSize (v.place.address t.wordSize) (v'.place.address t'.wordSize) := by
  obtain ⟨⟨i, ty⟩, hi, rfl⟩ := Option.map_eq_some_iff.1 h
  have hlt : i < p.globals.length := by
    rw [← ht.globals]
    exact slot?_lt hi
  rw [ht.globals, ← ht'.globals] at hi
  refine ⟨⟨.global (i * t'.wordSize), ty⟩, ?_, scaled_address rfl
    (fits_global (ht.globals_inRange i hlt)) (fits_global (ht'.globals_inRange i hlt))
    (natCast_mul_right_comm i t.wordSize t'.wordSize)⟩
  rw [Scope.global?, hi]
  rfl

theorem scaleCoupling_scopes {active : Option Signature} (hactive : ∀ m ∈ active, m ∈ t.methods) :
    (scaleCoupling t.wordSize t'.wordSize).Scopes ⟨t, active⟩ ⟨t', active⟩ where
  methods := ht'.methods.trans ht.methods.symm
  active := rfl
  none {x} h := by
    obtain ⟨hmethod, hglobal⟩ := Option.or_eq_none_iff.1 h
    refine Option.or_eq_none_iff.2 ⟨hmethod, ?_⟩
    rw [Scope.global?, Option.map_eq_none_iff] at hglobal ⊢
    rwa [ht'.globals, ← ht.globals]
  some {x v} h := by
    rcases find?_cases h with ⟨m, hm, hv⟩ | ⟨hnone, hv⟩
    · have hok : m ∈ t.methods := hactive m hm
      have hok' : m ∈ t'.methods := by rwa [ht'.methods, ← ht.methods]
      refine ⟨v, Option.or_eq_some_iff.2 (.inl (Option.bind_eq_some_iff.2 ⟨m, hm, hv⟩)), ?_⟩
      exact scaled_address rfl (fits_inMethod? (ht.methodOk hok) hv)
        (fits_inMethod? (ht'.methodOk hok') hv) (displacement_mul hv _ _)
    · obtain ⟨v', hv', hscaled⟩ := exists_global?_scaled ht ht' hv
      exact ⟨v', Option.or_eq_some_iff.2 (.inr ⟨hnone, hv'⟩), hscaled⟩

theorem scaleCoupling_entered :
    (scaleCoupling t.wordSize t'.wordSize).Entered ⟨t, none⟩ ⟨t', none⟩ where
  main := scaleCoupling_scopes ht ht' (by simp)
  label _ := .line rfl .nil
  inside {f m} h := scaleCoupling_scopes ht ht' (by
    intro s hs
    cases hs
    exact List.mem_of_find?_eq_some (enter_eq_ok.1 h).1)

theorem Program.coupled :
    Coupled (scaleCoupling t.wordSize t'.wordSize) Eq (p.code ⟨t, none⟩) (p.code ⟨t', none⟩) := by
  have hentered := scaleCoupling_entered ht ht'
  have hwords : Coupled (scaleCoupling t.wordSize t'.wordSize) Eq scratchWords scratchWords := by
    intro ls ls' hls
    have hls : ls' = ls := hls
    rw [hls]
    exact ⟨.inl ⟨_, _, rfl, rfl, rfl⟩, .nil, rfl⟩
  refine (coupled_bodyCode hentered.main p.body).seq <| (coupled_bare rfl).seq <|
    (coupled_methodsCode hentered p.methods).seq <| hwords.bind ?_
  intro words words' h
  subst h
  refine coupled_emit ?_
  show Scaled _ _ (dataSegment (t.globals.map _ ++ words)) (dataSegment (t'.globals.map _ ++ words))
  rw [ht.globals, ht'.globals]
  exact .same (isBase_dataSegment _)

theorem agrees_assembly :
    Logged.Agrees (p.code ⟨t, none⟩).assembly (p.code ⟨t', none⟩).assembly := by
  intro _ _
  unfold Logged.error? assembly
  rcases (Program.coupled ht ht' {} {} rfl).result with ⟨_, _, hok, hok', -⟩ | ⟨e, herror, herror'⟩
  · simp only [hok, hok', Except.map]
  · simp only [herror, herror', Except.map]

end

theorem agrees_compile (w w' : Int) (policy : Shadowing) (p : Program) :
    Logged.Agrees (p.compile ⟨w, policy⟩) (p.compile ⟨w', policy⟩) := by
  refine (Table.agrees_ofProgram w w' policy p).bind fun t t' ht ht' => ?_
  have ht := Table.ofProgram_eq_ok.1 ht
  have ht' := Table.ofProgram_eq_ok.1 ht'
  refine (agrees_assembly ht ht').bind fun _ _ _ _ => ?_
  intro _ _
  rfl

/-- Code for two word sizes, if the layout fits both. -/
theorem compile_scaled {p : Program} {policy : Shadowing} {w w' : Int} {code code' : Assembly}
    (h : (p.compile ⟨w, policy⟩).result = .ok code) (h' : (p.compile ⟨w', policy⟩).result = .ok code') :
    Scaled w w' code code' := by
  obtain ⟨t, ls, ht, hcode⟩ := Program.compile_eq_ok.1 h
  obtain ⟨t', ls', ht', hcode'⟩ := Program.compile_eq_ok.1 h'
  have hw : w = t.wordSize := ht.wordSize
  have hw' : w' = t'.wordSize := ht'.wordSize
  rw [hw, hw']
  exact ((Program.coupled ht ht').emits rfl hcode hcode').1

/-- For two word sizes that the layout fits, compiling fails with one error, or the code is the same but
for the displacements behind `get_fp` and `get_dp`, which are in proportion. -/
theorem compile_scales (p : Program) (policy : Shadowing) (w w' : Int)
    (h : ∀ f, (p.compile ⟨w, policy⟩).result ≠ .error (.layout f))
    (h' : ∀ f, (p.compile ⟨w', policy⟩).result ≠ .error (.layout f)) :
    (∃ e, (p.compile ⟨w, policy⟩).result = .error e ∧ (p.compile ⟨w', policy⟩).result = .error e) ∨
    ∃ code code' : Assembly, (p.compile ⟨w, policy⟩).result = .ok code ∧
      (p.compile ⟨w', policy⟩).result = .ok code' ∧
      code'.length = code.length ∧
      (∀ k : Nat, (∀ (j : Nat) b, k = j + 1 → code[j]? = some b → b.isBase = false) →
        code'[k]? = code[k]?) ∧
      ∀ (k : Nat) b, b.isBase = true → code[k]? = some b ∨ code'[k]? = some b →
        ∃ d d' : Int32, code[k + 1]? = some (.push d) ∧ code'[k + 1]? = some (.push d') ∧
          d.toInt * w' = d'.toInt * w ∧ code[k + 2]? = some .add ∧ code'[k + 2]? = some .add := by
  have hagrees := agrees_compile w w' policy p (fun f hf => h f (Logged.error?_eq_some.1 hf))
    (fun f hf => h' f (Logged.error?_eq_some.1 hf))
  cases hresult : (p.compile ⟨w, policy⟩).result with
  | error e =>
    rw [Logged.error?_eq_some.2 hresult] at hagrees
    exact .inl ⟨e, rfl, Logged.error?_eq_some.1 hagrees.symm⟩
  | ok code =>
    rw [Logged.error?_of_ok hresult] at hagrees
    cases hresult' : (p.compile ⟨w', policy⟩).result with
    | error e =>
      rw [Logged.error?_eq_some.2 hresult'] at hagrees
      cases hagrees
    | ok code' =>
      have hscaled := compile_scaled hresult hresult'
      refine .inr ⟨code, code', rfl, rfl, hscaled.length_eq, fun k hk => hscaled.getElem?_eq hk, ?_⟩
      intro k b hb hk
      rcases hk with hk | hk
      · exact hscaled.exists_address hb hk
      · obtain ⟨d', d, hd', hd, heq, hadd', hadd⟩ := hscaled.symm.exists_address hb hk
        exact ⟨d, d', hd, hd', heq.symm, hadd, hadd'⟩

/-- A function that adds a global to its parameter in a local. -/
def sumInLocal : Program where
  globals := [⟨"x", ⟨0⟩, ⟨1, 1⟩⟩, ⟨"y", ⟨0⟩, ⟨1, 8⟩⟩]
  body := [.assign "y" (.call "f" [.int 3 ⟨2, 7⟩] ⟨2, 5⟩) ⟨2, 1⟩]
  methods := [⟨⟨"f", some ⟨0⟩, [⟨"n", ⟨0⟩, ⟨3, 8⟩⟩], [⟨"i", ⟨0⟩, ⟨3, 20⟩⟩]⟩,
    [.assign "i" (.binary .add (.var "n" ⟨4, 5⟩) (.var "y" ⟨4, 9⟩) ⟨4, 7⟩) ⟨4, 1⟩,
      .ret (some (.var "i" ⟨5, 8⟩)) ⟨5, 1⟩], ⟨3, 1⟩⟩]

/-- For words of 8 bytes its global, local and parameter are twice as far from their base as for words of
4 bytes. -/
theorem compile_scales_sumInLocal :
    ∃ code code' : Assembly, (sumInLocal.compile ⟨4, .warn⟩).result = .ok code ∧
      (sumInLocal.compile ⟨8, .warn⟩).result = .ok code' ∧ code'.length = code.length ∧
      (code.zip code').filter (fun q => q.1 ≠ q.2) =
        [(.push 4, .push 8), (.push (-4), .push (-8)), (.push 8, .push 16), (.push 4, .push 8),
          (.push (-4), .push (-8))] ∧
      ∃ d d' : Int32, code[14]? = some (.push d) ∧ code'[14]? = some (.push d') ∧
        d.toInt * 8 = d'.toInt * 4 ∧ code[15]? = some .add ∧ code'[15]? = some .add := by
  have hvalue : ∃ code code' : Assembly, (sumInLocal.compile ⟨4, .warn⟩).result = .ok code ∧
      (sumInLocal.compile ⟨8, .warn⟩).result = .ok code' ∧
      ((code.zip code').filter (fun q => q.1 ≠ q.2) =
        [(.push 4, .push 8), (.push (-4), .push (-8)), (.push 8, .push 16), (.push 4, .push 8),
          (.push (-4), .push (-8))] ∧ code[13]? = some .getFp) :=
    ⟨_, _, rfl, rfl, by decide +kernel⟩
  obtain ⟨code, code', hcode, hcode', hdiffer, hbase⟩ := hvalue
  have hlayout : ∀ f, (sumInLocal.compile ⟨4, .warn⟩).result ≠ .error (.layout f) := by simp [hcode]
  have hlayout' : ∀ f, (sumInLocal.compile ⟨8, .warn⟩).result ≠ .error (.layout f) := by simp [hcode']
  rcases compile_scales sumInLocal .warn 4 8 hlayout hlayout' with
    ⟨e, he, -⟩ | ⟨c, c', hc, hc', hlength, -, haddress⟩
  · rw [hcode] at he
    cases he
  · cases hcode.symm.trans hc
    cases hcode'.symm.trans hc'
    exact ⟨code, code', hcode, hcode', hlength, hdiffer, haddress 13 .getFp rfl (.inl hbase)⟩

end Lpl
