import Lpl.Proofs.Coupling
import Lpl.Proofs.Labels

/-!
# Sections of a listing

The code of a program is its main section, one section for each method, and its data. A method's label
or the start of the data opens the next section, so a listing can be cut into its sections without the
program. `code_eq_sections` says that nothing is left over, and `methodSection_eq` that the section under
a method's name is the code that was emitted for it.
-/

namespace Lpl

/-- A line that opens a section: a method's label or the start of the data. -/
def Instruction.opens : Instruction → Bool
  | label l => labelMark l == some '_'
  | data => true
  | _ => false

namespace Assembly

/-- The lines before the first line that opens a section. -/
def mainSection (code : Assembly) : Assembly := code.takeWhile (!·.opens)

/-- The lines from a method's label until the next section is opened. -/
def methodSection (name : String) : Assembly → Assembly
  | [] => []
  | i :: code =>
    if i = .label (methodLabel name) then i :: code.takeWhile (!·.opens) else methodSection name code

/-- The lines from the start of the data on. -/
def dataSection (code : Assembly) : Assembly := code.dropWhile (· ≠ .data)

/-- The code opens a section, or there is none. -/
def Opens (code : Assembly) : Prop := ∀ i ∈ code.head?, i.opens

/-- No section is opened in the code. -/
def OpensNone (code : Assembly) : Prop := ∀ i ∈ code, i.opens = false

variable {A B D : Assembly}

theorem OpensNone.append (hA : A.OpensNone) (hB : B.OpensNone) : (A ++ B).OpensNone := by
  intro i hi
  rcases List.mem_append.1 hi with hi | hi
  · exact hA i hi
  · exact hB i hi

theorem takeWhile_append (hA : A.OpensNone) (hD : D.Opens) : (A ++ D).takeWhile (!·.opens) = A := by
  have hlines : ∀ i ∈ A, (!i.opens) = true := by
    intro i hi
    rw [hA i hi]
    rfl
  rw [List.takeWhile_append_of_pos hlines]
  cases D with
  | nil => simp
  | cons i D =>
    have hi : i.opens = true := hD i rfl
    simp [hi]

theorem methodSection_append {name : String} (hA : .label (methodLabel name) ∉ A) (hB : B.OpensNone)
    (hD : D.Opens) : methodSection name (A ++ (.label (methodLabel name) :: (B ++ D))) =
      .label (methodLabel name) :: B := by
  induction A with
  | nil => rw [List.nil_append, methodSection, if_pos rfl, takeWhile_append hB hD]
  | cons i A ih =>
    rw [List.mem_cons, not_or] at hA
    rw [List.cons_append, methodSection, if_neg (Ne.symm hA.1), ih hA.2]

theorem opens_dataSegment (labels : List String) : Opens (dataSegment labels) := by
  intro i hi
  cases labels with
  | nil => cases hi
  | cons l labels =>
    cases hi
    rfl

theorem dataSection_append {labels : List String} (hA : .data ∉ A) :
    dataSection (A ++ dataSegment labels) = dataSegment labels := by
  have hlines : ∀ i ∈ A, decide (i ≠ .data) = true := by
    intro i hi
    exact decide_eq_true fun h => hA (h ▸ hi)
  rw [dataSection, List.dropWhile_append_of_pos hlines]
  cases labels <;> rfl

end Assembly

open Assembly

/-! ## Code of bodies -/

theorem opens_of_isBare {i : Instruction} (h : i.isBare) : i.opens = false := by
  revert h
  cases i <;> simp [Instruction.isBare, Instruction.opens]

theorem opensNone_address (w : Nat) (p : Place) : OpensNone (p.address w) := by
  cases p <;> simp [OpensNone, Place.address, Place.base, Instruction.opens]

/-- Two runs of which the first opens no section. -/
def bodyCoupling : Coupling where
  supply _ _ := True
  label l _ := labelMark l ≠ some '_'
  code F _ := F.OpensNone
  nil := by simp [OpensNone]
  append := OpensNone.append
  line {i i'} h := by
    intro j hj
    rw [List.mem_singleton.1 hj]
    cases h with
    | bare hi => exact opens_of_isBare hi
    | place hl => simpa [Instruction.opens] using hl
    | call | jump | jumpIfZero | loadi | storei => rfl
  fresh _ _ := by simp
  scratch _ _ := by simp

theorem bodyCoupling_scopes (σ : Scope) : bodyCoupling.Scopes σ σ where
  methods := rfl
  active := rfl
  none h := h
  some {_ v} h := ⟨v, h, opensNone_address _ v.place⟩

variable {σ : Scope} {ls ls' : Labels} {F G : Assembly}

/-- The statements of a body open no section. -/
theorem opensNone_codeAll {ss : List Stmt} (h : Emits (Stmt.codeAll σ ss) ls () F ls') : F.OpensNone :=
  ((Stmt.coupled_all (bodyCoupling_scopes σ) ss).emits trivial h h).1

/-- The code of a method is its label and lines that open no section. -/
theorem emits_method_section {m : Method} (h : Emits (m.code σ) ls () F ls') :
    ∃ B : Assembly, F = .label (methodLabel m.name) :: B ∧ B.OpensNone := by
  obtain ⟨s, B, -, -, hB, rfl⟩ := emits_method.1 h
  refine ⟨_, rfl, OpensNone.append (OpensNone.append ?_ (opensNone_codeAll hB)) ?_⟩
  · intro i hi
    rw [List.eq_of_mem_replicate hi]
    rfl
  · simp [OpensNone, Instruction.opens]

/-! ## Code of methods -/

theorem emits_methodsCode_append {ms ms' : List Method} :
    Emits (methodsCode σ (ms ++ ms')) ls () G ls' ↔
      ∃ G₁ ls₁ G₂, Emits (methodsCode σ ms) ls () G₁ ls₁ ∧ Emits (methodsCode σ ms') ls₁ () G₂ ls' ∧
        G = G₁ ++ G₂ := by
  induction ms generalizing ls G with
  | nil =>
    constructor
    · intro h
      exact ⟨[], ls, G, (emits_pure _ _).2 ⟨rfl, rfl, rfl⟩, h, rfl⟩
    · intro h
      obtain ⟨G₁, ls₁, G₂, h₁, h₂, rfl⟩ := h
      obtain ⟨-, rfl, rfl⟩ := (emits_pure _ _).1 h₁
      exact h₂
  | cons m ms ih =>
    rw [List.cons_append, methodsCode, methodsCode, emits_bind]
    simp only [ih, emits_bind]
    constructor
    · intro h
      obtain ⟨u, F, ls₁, G, hF, ⟨G₁, ls₂, G₂, h₁, h₂, rfl⟩, rfl⟩ := h
      exact ⟨F ++ G₁, ls₂, G₂, ⟨u, F, ls₁, G₁, hF, h₁, rfl⟩, h₂, (List.append_assoc ..).symm⟩
    · intro h
      obtain ⟨G₁, ls₁, G₂, ⟨u, F, ls₂, G₃, hF, h₁, rfl⟩, h₂, rfl⟩ := h
      exact ⟨u, F, ls₂, G₃ ++ G₂, hF, ⟨G₃, ls₁, G₂, h₁, h₂, rfl⟩, List.append_assoc ..⟩

/-- The methods that a list ends with start a section. -/
theorem opens_methods {ms : List Method} (h : Emits (methodsCode σ ms) ls () G ls')
    (labels : List String) : Opens (G ++ dataSegment labels) := by
  cases ms with
  | nil =>
    obtain ⟨-, rfl, -⟩ := (emits_pure _ _).1 h
    exact opens_dataSegment labels
  | cons m ms =>
    obtain ⟨_, F, _, G, hF, -, rfl⟩ := emits_bind.1 h
    obtain ⟨B, rfl, -⟩ := emits_method_section hF
    intro i hi
    cases hi
    simp [Instruction.opens]

theorem data_not_mem_methods {ms : List Method} (h : Emits (methodsCode σ ms) ls () G ls') :
    .data ∉ G := by
  induction ms generalizing ls G with
  | nil =>
    obtain ⟨-, rfl, -⟩ := (emits_pure _ _).1 h
    exact List.not_mem_nil
  | cons m ms ih =>
    obtain ⟨_, F, _, G, hF, hG, rfl⟩ := emits_bind.1 h
    obtain ⟨B, rfl, hB⟩ := emits_method_section hF
    intro hmem
    rcases List.mem_append.1 hmem with hmem | hmem
    · rcases List.mem_cons.1 hmem with hmem | hmem
      · cases hmem
      · cases hB _ hmem
    · exact ih hG hmem

/-! ## Sections of a program -/

section

variable {s : Settings} {p : Program} {t : Table} {code A D : Assembly}

/-- The code of a method is what stands under its name, if no label is placed twice. -/
theorem methodSection_eq {m : Method} (hcode : code = A ++ (F ++ D)) (hnodup : code.places.Nodup)
    (hF : Emits (m.code σ) ls () F ls') (hD : D.Opens) : code.methodSection m.name = F := by
  obtain ⟨B, rfl, hB⟩ := emits_method_section hF
  -- The label is placed in `F`, so it is not placed before it too.
  have hA : .label (methodLabel m.name) ∉ A := by
    intro hmem
    have hplaced : methodLabel m.name ∈ A.places := List.mem_filterMap.2 ⟨_, hmem, rfl⟩
    rw [hcode, places_append] at hnodup
    exact (List.nodup_append.1 hnodup).2.2 _ hplaced _ List.mem_cons_self rfl
  rw [hcode, List.cons_append, methodSection_append hA hB hD]

/-- The code of some methods is their sections. -/
theorem methods_eq_sections {ms : List Method} {labels : List String}
    (hcode : code = A ++ (G ++ dataSegment labels)) (hnodup : code.places.Nodup)
    (h : Emits (methodsCode σ ms) ls () G ls') :
    G = ms.flatMap fun m => code.methodSection m.name := by
  induction ms generalizing A G ls with
  | nil => exact ((emits_pure _ _).1 h).2.1
  | cons m ms ih =>
    obtain ⟨_, F, _, G, hF, hG, rfl⟩ := emits_bind.1 h
    rw [List.append_assoc] at hcode
    have hrest := ih (A := A ++ F) (by rw [hcode, List.append_assoc]) hG
    rw [List.flatMap_cons, methodSection_eq hcode hnodup hF (opens_methods hG labels), ← hrest]

theorem data_not_mem_program {ss : List Stmt} {ms : List Method} {B : Assembly} {ls₁ : Labels}
    (hB : Emits (Stmt.codeAll σ ss) ls () B ls₁) (hG : Emits (methodsCode σ ms) ls₁ () G ls') :
    .data ∉ B ++ [Instruction.halt] ++ G := by
  intro hmem
  rcases List.mem_append.1 hmem with hmem | hmem
  · rcases List.mem_append.1 hmem with hmem | hmem
    · cases opensNone_codeAll hB _ hmem
    · cases List.mem_singleton.1 hmem
  · exact data_not_mem_methods hG hmem

/-- The main section is the code of the main body, and the data section is the data segment. -/
theorem emits_program_sections (h : Emits (p.code ⟨t, none⟩) {} () code ls) :
    ∃ B ls₁ G, Emits (Stmt.codeAll ⟨t, none⟩ p.body) {} () B ls₁ ∧
      Emits (methodsCode ⟨t, none⟩ p.methods) ls₁ () G ls ∧
      code.mainSection = B ++ [Instruction.halt] ∧
      code.dataSection = dataSegment (dataLabels t.globals ls.scratch) ∧
      code = B ++ [Instruction.halt] ++ (G ++ dataSegment (dataLabels t.globals ls.scratch)) := by
  obtain ⟨B, ls₁, G, hB, hG, hcode⟩ := emits_program.1 h
  rw [List.append_assoc] at hcode
  have hmain : OpensNone (B ++ [Instruction.halt]) :=
    (opensNone_codeAll hB).append (by simp [OpensNone, Instruction.opens])
  refine ⟨B, ls₁, G, hB, hG, ?_, ?_, hcode⟩
  · rw [hcode, mainSection, takeWhile_append hmain (opens_methods hG _)]
  · rw [hcode, ← List.append_assoc, dataSection_append (data_not_mem_program hB hG)]

/-- The sections of a program's listing, in the order of its methods, are all of it. -/
theorem code_eq_sections (ht : WellDeclared s p t) (h : Emits (p.code ⟨t, none⟩) {} () code ls) :
    code = code.mainSection ++ (p.methods.flatMap fun m => code.methodSection m.name) ++
      code.dataSection := by
  obtain ⟨B, ls₁, G, -, hG, hmain, hdata, hcode⟩ := emits_program_sections h
  rw [← methods_eq_sections hcode (nodup_places_program ht h) hG, hmain, hdata, List.append_assoc]
  exact hcode

/-- The code of a method starts with the labels that the main body and the methods before it leave. -/
theorem exists_section (ht : WellDeclared s p t) (h : Emits (p.code ⟨t, none⟩) {} () code ls)
    {before after : List Method} {m : Method} (hp : p.methods = before ++ m :: after) :
    ∃ B ls₁ G₁ ls₂ ls₃, Emits (Stmt.codeAll ⟨t, none⟩ p.body) {} () B ls₁ ∧
      Emits (methodsCode ⟨t, none⟩ before) ls₁ () G₁ ls₂ ∧
      Emits (m.code ⟨t, none⟩) ls₂ () (code.methodSection m.name) ls₃ := by
  obtain ⟨B, ls₁, G, hB, hG, -, -, hcode⟩ := emits_program_sections h
  rw [hp] at hG
  obtain ⟨G₁, ls₂, G₂, hG₁, hG₂, rfl⟩ := emits_methodsCode_append.1 hG
  obtain ⟨_, F, ls₃, G₃, hF, hG₃, rfl⟩ := emits_bind.1 hG₂
  have hcode : code = (B ++ [Instruction.halt] ++ G₁) ++
      (F ++ (G₃ ++ dataSegment (dataLabels t.globals ls.scratch))) := by
    simpa only [List.append_assoc] using hcode
  refine ⟨B, ls₁, G₁, ls₂, ls₃, hB, hG₁, ?_⟩
  rw [methodSection_eq hcode (nodup_places_program ht h) hF (opens_methods hG₃ _)]
  exact hF

end

end Lpl
