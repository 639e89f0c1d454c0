import Mathlib.Data.List.Induction
import Lpl.Proofs.Linking
import Lpl.Proofs.Sections

/-!
# Where data words stand

Three computations have to agree on the data words of a program: the table gives each global an offset
when it is built, the code generator writes the data segment once it has found all scratch words, and
loading gives each word of the segment an address by its place there. `compile_data_layout` says that
they do: globals come first, in the order of their declarations, then the scratch words in the order in
which the code first uses them.

That order is carried through the code generator as an equation (`Collects`): the scratch words behind a
stretch of code are those before it and the new ones among the words that it uses.
-/

namespace Lpl

open Assembly Machine

/-! ## Scratch words in the order of first use -/

/-- A list of words with one more in use. -/
def addWord (words : List String) (l : String) : List String :=
  if l ∈ words then words else words ++ [l]

theorem foldl_addWord_of_mem {words uses : List String} (h : ∀ l ∈ uses, l ∈ words) :
    uses.foldl addWord words = words := by
  induction uses with
  | nil => rfl
  | cons l uses ih =>
    rw [List.foldl_cons, addWord, if_pos (h l List.mem_cons_self)]
    exact ih fun l' hl' => h l' (List.mem_cons_of_mem l hl')

/-- Adding words one by one leaves each at its first use. -/
theorem foldl_addWord_nil (uses : List String) : uses.foldl addWord [] = uses.eraseDups := by
  induction uses using List.reverseRecOn with
  | nil => rfl
  | append_singleton uses l ih =>
    rw [List.foldl_append, List.foldl_cons, List.foldl_nil, ih, List.eraseDups_append, addWord]
    by_cases hl : l ∈ uses
    · rw [if_pos (List.mem_eraseDups.2 hl)]
      simp [List.removeAll, hl]
    · rw [if_neg fun h => hl (List.mem_eraseDups.1 h)]
      simp [List.removeAll, hl, List.eraseDups_cons]

theorem eraseDups_eq_nil_iff {uses : List String} : uses.eraseDups = [] ↔ uses = [] := by
  cases uses with
  | nil => exact Iff.rfl
  | cons l uses => simp [List.eraseDups_cons]

/-- The scratch words behind the code `F` are those before it and the new ones among its words. -/
def Collects (ls : Labels) (F : Assembly) (ls' : Labels) : Prop :=
  ls'.scratch = F.words.foldl addWord ls.scratch

namespace Collects

variable {ls ls₁ ls' : Labels} {F G : Assembly}

theorem append (hF : Collects ls F ls₁) (hG : Collects ls₁ G ls') : Collects ls (F ++ G) ls' := by
  have hF : ls₁.scratch = _ := hF
  have hG : ls'.scratch = _ := hG
  rw [Collects, words_append, List.foldl_append, ← hF, hG]

theorem wordless (h : F.words = []) : Collects ls F ls := by
  rw [Collects, h]
  rfl

theorem straight (h : Straight F) : Collects ls F ls := .wordless h.words

theorem storei (name : String) : Collects ls [.storei (scratchLabel name)] (ls.withScratch name) := rfl

theorem dispatch {word : String} (hword : word ∈ ls.scratch) (cs : List SwitchCase)
    (labels : List String) : Collects ls (dispatch word cs labels) ls :=
  (foldl_addWord_of_mem (Fragment.dispatch hword cs labels).words).symm

end Collects

theorem Expr.collects {σ : Scope} {e : Expr} {ls ls' ls₁ : Labels} {F : Assembly}
    (h : Emits (e.code σ) ls () F ls') : Collects ls₁ F ls₁ :=
  .straight ((Expr.straightRules σ).code e h).1

/-- The code of a statement collects its scratch words. -/
theorem Stmt.collectsRules (σ : Scope) :
    Stmt.Rules σ (fun _ => Collects) (fun _ => Collects) (fun _ _ _ => Collects) where
  assign _ he := ((Collects.straight (straight_address _ _)).append (Expr.collects he)).append
    (.wordless rfl)
  assignAt _ hes he := by
    have hes := ((Expr.straightRules σ).element _ hes).1
    exact (((Collects.straight (straight_address _ _)).append (.straight hes)).append
      (Expr.collects he)).append (.wordless rfl)
  ifThen {c s l ls ls' F S} hc hs := by
    have hs : Collects ls S ls' := hs
    exact (((Expr.collects hc).append (.wordless rfl)).append hs).append (.wordless rfl)
  ifElse {c s t l ls ls₁ ls' F S T} hc hs ht := by
    have hs : Collects ls S ls₁ := hs
    exact (((((Expr.collects hc).append (.wordless rfl)).append hs).append (.wordless rfl)).append
      ht).append (.wordless rfl)
  whileDo {c s l ls ls' F S} hc hs := by
    have hs : Collects ls S ls' := hs
    exact ((((Collects.wordless rfl).append (Expr.collects hc)).append (.wordless rfl)).append
      hs).append (.wordless rfl)
  switch {e cs d l ls ls₁ ls' G E D} _ hG he hd := by
    have hG : Collects ls G ls₁ := hG
    -- The arms stand first, so their words are in use before that of the switch.
    have harms : Collects ls ([Instruction.jump (placeLabel "switch_dispatch" ls.next)] ++ G ++
        [Instruction.label (placeLabel "switch_dispatch" ls.next)] ++ E) ls₁ :=
      (((Collects.wordless rfl).append hG).append (.wordless rfl)).append (Expr.collects he)
    have hdispatch := (harms.append (.storei "switch")).append
      (.dispatch (ls₁.mem_withScratch "switch") cs (caseLabelsFrom (ls.next + 3) cs))
    exact ((hdispatch.append (.wordless rfl)).append hd).append (.wordless rfl)
  block h := h
  print he := (Expr.collects he).append (.straight (straight_print _))
  newline := .wordless rfl
  ret_some _ he := (Expr.collects he).append (.wordless rfl)
  ret_none _ := .wordless rfl
  call _ hes := by
    have hes := ((Expr.straightRules σ).reversed _ hes).1
    exact ((Collects.straight hes).append (.wordless rfl)).append (.storei "discard")
  all_nil := .wordless rfl
  all_cons hs hss := hs.append hss
  cases_nil := .wordless rfl
  cases_cons hs hcs := (((Collects.wordless rfl).append hs).append (.wordless rfl)).append hcs

theorem collects_methods {σ : Scope} {ms : List Method} {ls ls' : Labels} {G : Assembly}
    (h : Emits (methodsCode σ ms) ls () G ls') : Collects ls G ls' := by
  induction ms generalizing ls G with
  | nil =>
    obtain ⟨-, rfl, rfl⟩ := (emits_pure _ _).1 h
    exact .wordless rfl
  | cons m ms ih =>
    obtain ⟨_, F, ls₁, G, hm, hms, rfl⟩ := emits_bind.1 h
    obtain ⟨s, B, -, -, hB, rfl⟩ := emits_method.1 hm
    have hB := (Stmt.collectsRules (σ.inside s)).all _ hB
    have hm : Collects ls (methodCode m.name s B) ls₁ :=
      (((Collects.wordless rfl).append (.straight (straight_replicate_push _ _))).append hB).append
        (.wordless rfl)
    exact hm.append (ih hms)

section

variable {s : Settings} {p : Program} {t : Table} {code : Assembly} {ls : Labels}

/-- The scratch words of a program are the words of its code in the order of first use. -/
theorem scratch_program (h : Emits (p.code ⟨t, none⟩) {} () code ls) :
    ls.scratch = code.words.eraseDups := by
  obtain ⟨B, ls₁, G, hB, hG, rfl⟩ := emits_program.1 h
  have hmain : Collects {} (B ++ [Instruction.halt]) ls₁ :=
    ((Stmt.collectsRules ⟨t, none⟩).all _ hB).append (.wordless rfl)
  have hcode : ls.scratch = (words (B ++ [Instruction.halt] ++ G)).foldl addWord [] :=
    hmain.append (collects_methods hG)
  rw [hcode, foldl_addWord_nil, words_append _ (dataSegment _), words_dataSegment, List.append_nil]

/-! ## The data segment -/

/-- The data segment is all that has data words. -/
theorem exists_before_data (ht : WellDeclared s p t) (h : Emits (p.code ⟨t, none⟩) {} () code ls) :
    ∃ X, code = X ++ dataSegment (dataLabels t.globals ls.scratch) ∧ .data ∉ X ∧ X.reserved = [] := by
  obtain ⟨X, hX, hfragment, -⟩ := program_labels ht h
  obtain ⟨B, ls₁, G, hB, hG, hcode⟩ := emits_program.1 h
  obtain rfl : B ++ [Instruction.halt] ++ G = X := List.append_cancel_right (hcode.symm.trans hX)
  exact ⟨_, hX, data_not_mem_program hB hG, hfragment.reserved⟩

/-- There is one start of the data, if there are data words at all. -/
theorem count_data_dataSegment (labels : List String) :
    (dataSegment labels).count .data = if labels = [] then 0 else 1 := by
  cases labels with
  | nil => rfl
  | cons l labels =>
    have hwords : .data ∉ (l :: labels).map fun l => Instruction.word l 0 := by
      intro hmem
      obtain ⟨_, -, hword⟩ := List.mem_map.1 hmem
      cases hword
    show (.data :: (l :: labels).map fun l => Instruction.word l 0).count .data = _
    rw [List.count_cons_self, List.count_eq_zero_of_not_mem hwords, if_neg (List.cons_ne_nil l labels)]

/-- A data word stands behind the start of the data. -/
theorem exists_data_lt {X : Assembly} {labels : List String} (hX : X.reserved = []) {k : Nat}
    {l : String} {v : Int32} (hk : (X ++ dataSegment labels)[k]? = some (.word l v)) :
    ∃ j < k, (X ++ dataSegment labels)[j]? = some .data := by
  have hle : X.length ≤ k := by
    by_contra hlt
    rw [List.getElem?_append_left (by omega)] at hk
    have hmem : l ∈ X.reserved := List.mem_filterMap.2 ⟨_, List.mem_of_getElem? hk, rfl⟩
    rw [hX] at hmem
    cases hmem
  rw [List.getElem?_append_right hle] at hk
  cases labels with
  | nil => cases hk
  | cons l' labels =>
    have hne : k ≠ X.length := by
      rintro rfl
      rw [Nat.sub_self] at hk
      cases hk
    refine ⟨X.length, by omega, ?_⟩
    rw [List.getElem?_append_right (Nat.le_refl _), Nat.sub_self]
    rfl

/-! ## Addresses -/

/-- The addresses of the data words are one word after another. -/
theorem map_address (ht : WellDeclared s p t) (h : Emits (p.code ⟨t, none⟩) {} () code ls) :
    (dataLabels t.globals ls.scratch).map (Image.ofAssembly t.wordSize code).address =
      (List.range (dataLabels t.globals ls.scratch).length).map fun k : Nat => (k : Int) * t.wordSize := by
  apply List.ext_getElem?
  intro k
  rw [List.getElem?_map, List.getElem?_map]
  cases hk : (dataLabels t.globals ls.scratch)[k]? with
  | none =>
    rw [List.getElem?_eq_none (by simpa using List.getElem?_eq_none_iff.1 hk)]
    rfl
  | some l =>
    rw [List.getElem?_range (List.getElem?_eq_some_iff.1 hk).1, Option.map_some, Option.map_some,
      Image.address, Std.HashMap.getD_eq_getD_getElem?, getElem?_addresses ht h hk]
    rfl

theorem nodup_address (ht : WellDeclared s p t) (h : Emits (p.code ⟨t, none⟩) {} () code ls) :
    ((dataLabels t.globals ls.scratch).map (Image.ofAssembly t.wordSize code).address).Nodup := by
  have hw := ht.one_le_wordSize
  rw [map_address ht h]
  refine List.nodup_range.map ?_
  intro i j hij
  have hij : (i : Int) = j := Int.eq_of_mul_eq_mul_right (by omega) hij
  omega

theorem slot?_of_getElem? {ds : List Decl} (hnodup : (ds.map Decl.name).Nodup) {i : Nat} {d : Decl}
    (h : ds[i]? = some d) : Scope.slot? d.name ds = some (i, d.type) := by
  induction ds generalizing i with
  | nil => cases h
  | cons d' ds ih =>
    rw [List.map_cons, List.nodup_cons] at hnodup
    cases i with
    | zero =>
      cases h
      rw [Scope.slot?, if_pos rfl]
    | succ i =>
      have hne : d'.name ≠ d.name := by
        intro heq
        exact hnodup.1 (heq ▸ List.mem_map_of_mem (List.mem_of_getElem? h))
      rw [Scope.slot?, if_neg hne, ih hnodup.2 h]
      rfl

/-- A global resolves to its offset, and its address is the sum of the data pointer and the offset. -/
theorem resolve_global (ht : WellDeclared s p t) {i : Nat} {g : Decl} (hg : p.globals[i]? = some g) :
    (⟨t, none⟩ : Scope).resolve g.name = .ok ⟨.global (i * t.wordSize), g.type⟩ ∧
      ∀ l ls, ∃ d : Int32, d.toInt = (i * t.wordSize : Nat) ∧
        Emits ((⟨t, none⟩ : Scope).address g.name l) ls () [.getDp, .push d, .add] ls := by
  have hslot : Scope.slot? g.name t.globals = some (i, g.type) := by
    rw [ht.globals]
    exact slot?_of_getElem? ht.globals_nodup hg
  have hfind : (⟨t, none⟩ : Scope).find? g.name = some ⟨.global (i * t.wordSize), g.type⟩ := by
    show (Scope.slot? g.name t.globals).map _ = _
    rw [hslot]
    rfl
  have hrange : i * t.wordSize < 2147483648 :=
    ht.globals_inRange i (List.getElem?_eq_some_iff.1 hg).1
  refine ⟨resolve_eq_ok.2 hfind, fun l ls => ⟨.ofInt (i * t.wordSize : Nat), ?_, ?_⟩⟩
  · exact Int32.toInt_ofInt_of_le (by omega) (by omega)
  · exact emits_address.2 ⟨_, hfind, rfl, rfl⟩

theorem dataLabels_program (ht : WellDeclared s p t) (h : Emits (p.code ⟨t, none⟩) {} () code ls) :
    dataLabels t.globals ls.scratch =
      (p.globals.map fun g => variableLabel g.name) ++ code.words.eraseDups := by
  rw [dataLabels, ht.globals, scratch_program h]

theorem reserved_program (ht : WellDeclared s p t) (h : Emits (p.code ⟨t, none⟩) {} () code ls) :
    code.reserved = dataLabels t.globals ls.scratch := by
  rw [← fst_dataWords, dataWords_program ht h, List.map_map]
  exact List.map_id _

/-- The word of a global is as many words from the start as there are globals before it. -/
theorem address_global (ht : WellDeclared s p t) (h : Emits (p.code ⟨t, none⟩) {} () code ls) {i : Nat}
    {g : Decl} (hg : p.globals[i]? = some g) :
    (Image.ofAssembly t.wordSize code).addresses[variableLabel g.name]? =
      some ((i : Int) * t.wordSize) := by
  have hlt := (List.getElem?_eq_some_iff.1 hg).1
  refine getElem?_addresses ht h ?_
  rw [dataLabels_program ht h, List.getElem?_append_left (by simpa using hlt), List.getElem?_map, hg]
  rfl

/-- Scratch words follow the globals, in the order of first use. -/
theorem address_scratch (ht : WellDeclared s p t) (h : Emits (p.code ⟨t, none⟩) {} () code ls) {k : Nat}
    {l : String} (hk : code.words.eraseDups[k]? = some l) :
    (Image.ofAssembly t.wordSize code).addresses[l]? =
      some ((p.globals.length + k : Nat) * (t.wordSize : Int)) := by
  refine getElem?_addresses ht h ?_
  rw [dataLabels_program ht h, List.getElem?_append_right (by simp), List.length_map,
    Nat.add_sub_cancel_left, hk]

/-- The data starts once, if the program has globals or uses scratch words. -/
theorem count_data_program (ht : WellDeclared s p t) (h : Emits (p.code ⟨t, none⟩) {} () code ls) :
    code.count .data = if p.globals = [] ∧ code.words = [] then 0 else 1 := by
  obtain ⟨X, hX, hdata, -⟩ := exists_before_data ht h
  have hnil : dataLabels t.globals ls.scratch = [] ↔ p.globals = [] ∧ code.words = [] := by
    rw [dataLabels_program ht h, List.append_eq_nil_iff, List.map_eq_nil_iff, eraseDups_eq_nil_iff]
  calc code.count .data = (dataSegment (dataLabels t.globals ls.scratch)).count .data := by
        rw [hX, List.count_append, List.count_eq_zero_of_not_mem hdata, Nat.zero_add]
    _ = if dataLabels t.globals ls.scratch = [] then 0 else 1 := count_data_dataSegment _
    _ = if p.globals = [] ∧ code.words = [] then 0 else 1 := if_congr hnil rfl rfl

/-- The table, the data segment and the machine agree on the data words of a program. -/
theorem compile_data_layout (h : (p.compile s).result = .ok code) :
    ∃ t, (Table.ofProgram s p).result = .ok t ∧
      (∀ (i : Nat) g, p.globals[i]? = some g →
        (Image.ofAssembly s.wordSize code).addresses[variableLabel g.name]? = some (i * s.wordSize) ∧
        ∃ offset : Nat, offset = i * s.wordSize ∧
          (⟨t, none⟩ : Scope).resolve g.name = .ok ⟨.global offset, g.type⟩ ∧
          ∀ l ls, ∃ d : Int32, d.toInt = offset ∧
            Emits ((⟨t, none⟩ : Scope).address g.name l) ls () [.getDp, .push d, .add] ls) ∧
      (∀ (k : Nat) l, code.words.eraseDups[k]? = some l →
        (Image.ofAssembly s.wordSize code).addresses[l]? =
          some ((p.globals.length + k : Nat) * s.wordSize)) ∧
      code.reserved = (p.globals.map fun g => variableLabel g.name) ++ code.words.eraseDups ∧
      (code.reserved.map (Image.ofAssembly s.wordSize code).address).Nodup ∧
      (∀ a, (initial (Image.ofAssembly s.wordSize code)).memory.read a = 0) ∧
      code.count .data ≤ 1 ∧
      (.data ∈ code ↔ p.globals ≠ [] ∨ code.words ≠ []) ∧
      ∀ (k : Nat) l v, code[k]? = some (.word l v) → ∃ j < k, code[j]? = some .data := by
  obtain ⟨t, ls, ht, hcode⟩ := Program.compile_eq_ok.1 h
  have hreserved := reserved_program ht hcode
  have hcount := count_data_program ht hcode
  rw [ht.wordSize]
  refine ⟨t, Table.ofProgram_eq_ok.2 ht, ?_, fun k l hk => address_scratch ht hcode hk,
    hreserved.trans (dataLabels_program ht hcode), ?_, read_initial ht hcode, ?_, ?_, ?_⟩
  · intro i g hg
    obtain ⟨hresolve, haddress⟩ := resolve_global ht hg
    exact ⟨address_global ht hcode hg, i * t.wordSize, Int.natCast_mul _ _, hresolve, haddress⟩
  · rw [hreserved]
    exact nodup_address ht hcode
  · rw [hcount]
    split <;> omega
  · rw [← List.count_pos_iff, hcount, ← not_and_or]
    by_cases hnone : p.globals = [] ∧ code.words = [] <;> simp [hnone]
  · intro k l v hk
    obtain ⟨X, rfl, -, hX⟩ := exists_before_data ht hcode
    exact exists_data_lt hX hk

end

/-- Two globals, a call as a statement, and a switch with another switch in an arm. -/
def twoScratchWords : Program where
  globals := [⟨"x", ⟨0⟩, ⟨1, 1⟩⟩, ⟨"y", ⟨1⟩, ⟨1, 8⟩⟩]
  body := [.call "f" [] ⟨2, 1⟩,
    .switch (.var "x" ⟨3, 9⟩)
      [.mk 1 (.switch (.int 2 ⟨4, 20⟩) [] (.newline ⟨4, 30⟩) ⟨4, 10⟩) ⟨4, 1⟩] (.newline ⟨5, 10⟩) ⟨3, 1⟩]
  methods := [⟨⟨"f", none, [], []⟩, [], ⟨6, 1⟩⟩]

/-- With words of 8 bytes its globals are at 0 and 8, and the scratch words of the call and of the
switches at 16 and 24. -/
theorem compile_data_layout_twoScratchWords :
    ∃ code, (twoScratchWords.compile ⟨8, .warn⟩).result = .ok code ∧
      code.words = ["$s_discard", "$s_switch", "$s_switch", "$s_switch"] ∧
      (Image.ofAssembly 8 code).addresses["$v_y"]? = some 8 ∧
      (Image.ofAssembly 8 code).addresses["$s_discard"]? = some 16 ∧
      (Image.ofAssembly 8 code).addresses["$s_switch"]? = some 24 ∧
      code.reserved = ["$v_x", "$v_y", "$s_discard", "$s_switch"] ∧ .data ∈ code := by
  have hcode : ∃ code, (twoScratchWords.compile ⟨8, .warn⟩).result = .ok code ∧
      code.words = ["$s_discard", "$s_switch", "$s_switch", "$s_switch"] :=
    ⟨_, rfl, by decide +kernel⟩
  obtain ⟨code, h, hwords⟩ := hcode
  obtain ⟨t, -, hglobals, hscratch, hreserved, -, -, -, hdata, -⟩ := compile_data_layout h
  have hfirst : code.words.eraseDups = ["$s_discard", "$s_switch"] := by
    rw [hwords]
    decide
  rw [hfirst] at hscratch hreserved
  exact ⟨code, h, hwords, (hglobals 1 _ rfl).1, hscratch 0 _ rfl, hscratch 1 _ rfl, hreserved,
    hdata.2 (.inl (List.cons_ne_nil _ _))⟩

end Lpl
