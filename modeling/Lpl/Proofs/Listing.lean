import Lpl.Proofs.DataLayout
import Lpl.Proofs.Printing.Words

/-!
# The listing of a program

**Theorem (`compile_listing`).** The labels in the code of a source text are `$` followed by letters,
digits, `_` and `$`. Code with such labels is determined by its listing.

Names are words of the source, and the code generator adds its own words and decimal numbers, where a
minus is spelled `m`. So no label has a space, a colon or a line break in it, and a listing can be read
back (`Assembly.ofText?_text`): it is cut at the line breaks, a line that starts with `$` has a label up
to its colon, and the others are told apart by their first word.
-/

namespace Lpl

open Printing (isNumber_toDigits magnitude?_toDigits)

/-! ## The alphabet of labels -/

/-- Letters, digits, `_` and `$`. -/
def isLabelChar (c : Char) : Bool := c.isAlphanum || c = '_' || c = '$'

/-- A text in the alphabet of labels. -/
def IsLabelText (s : String) : Prop := s.toList.all isLabelChar

/-- A text in the alphabet of labels that starts with `$`. -/
def IsLabel (l : String) : Prop := l.toList.head? = some '$' ∧ IsLabelText l

instance (s : String) : Decidable (IsLabelText s) := inferInstanceAs (Decidable (_ = true))

instance (l : String) : Decidable (IsLabel l) := inferInstanceAs (Decidable (_ ∧ _))

namespace IsLabelText

theorem append {s t : String} (hs : IsLabelText s) (ht : IsLabelText t) : IsLabelText (s ++ t) := by
  unfold IsLabelText at *
  rw [String.toList_append, List.all_append, hs, ht, Bool.and_self]

theorem digits (n : Nat) : IsLabelText (toString n) := by
  refine List.all_eq_true.2 fun c hc => ?_
  have hdigit : c.isDigit = true := (isNumber_toDigits n).2 c (by simpa using hc)
  simp [isLabelChar, Char.isAlphanum, hdigit]

end IsLabelText

theorem IsName.isLabelText {x : String} (h : IsName x) : IsLabelText x := by
  refine List.all_eq_true.2 fun c hc => ?_
  have hword := h.word.2 c hc
  unfold isWordChar at hword
  rw [isLabelChar, hword, Bool.true_or]

theorem isLabel_append {s t : String} (hs : IsLabel s) (ht : IsLabelText t) : IsLabel (s ++ t) := by
  refine ⟨?_, hs.2.append ht⟩
  rw [String.toList_append, List.head?_append, hs.1, Option.some_or]

theorem isLabel_methodLabel {x : String} (h : IsLabelText x) : IsLabel (methodLabel x) :=
  isLabel_append (by decide) h

theorem isLabel_variableLabel {x : String} (h : IsLabelText x) : IsLabel (variableLabel x) :=
  isLabel_append (by decide) h

theorem isLabel_scratchLabel {x : String} (h : IsLabelText x) : IsLabel (scratchLabel x) :=
  isLabel_append (by decide) h

theorem isLabel_placeLabel {x : String} (h : IsLabelText x) (n : Nat) : IsLabel (placeLabel x n) :=
  isLabel_append (isLabel_append (isLabel_append (by decide) h) (by decide)) (.digits n)

theorem isLabelText_caseStem (v : Int32) : IsLabelText (caseStem v) := by
  unfold caseStem
  split
  · exact IsLabelText.append (by decide) (.digits _)
  · next hpos =>
    obtain ⟨n, hn⟩ := Int.eq_ofNat_of_zero_le (Int.not_lt.1 hpos)
    rw [hn]
    exact IsLabelText.append (by decide) (.digits n)

theorem isLabel_caseLabelsFrom (n : Nat) (cs : List SwitchCase) :
    ∀ l ∈ caseLabelsFrom n cs, IsLabel l := by
  induction cs generalizing n with
  | nil => simp [caseLabelsFrom]
  | cons c cs ih =>
    simp only [caseLabelsFrom, List.mem_cons, forall_eq_or_imp]
    exact ⟨isLabel_placeLabel (isLabelText_caseStem c.value) n, ih (n + 1)⟩

/-! ## The labels of code -/

/-- The label in a line, be it one that the line defines or one that it uses. -/
def Instruction.mentioned? : Instruction → Option String
  | loadi l | storei l | jump l | jumpIfZero l | call l | label l | word l _ => some l
  | _ => none

namespace Assembly

/-- The labels in the code, repeats kept. -/
def mentioned (F : Assembly) : List String := F.filterMap Instruction.mentioned?

/-- All labels in the code are `$` and then letters, digits, `_` and `$`. -/
def Labelled (F : Assembly) : Prop := ∀ l ∈ F.mentioned, IsLabel l

namespace Labelled

variable {F G : Assembly}

theorem append (hF : Labelled F) (hG : Labelled G) : Labelled (F ++ G) := by
  intro l hl
  rw [mentioned, List.filterMap_append] at hl
  exact (List.mem_append.1 hl).elim (hF l) (hG l)

theorem of_nil (h : F.mentioned = []) : Labelled F := by
  intro l hl
  rw [h] at hl
  cases hl

theorem cons {i : Instruction} {l : String} (hi : i.mentioned? = some l) (hl : IsLabel l)
    (hF : Labelled F) : Labelled (i :: F) := by
  unfold Labelled
  rw [mentioned, List.filterMap_cons_some hi]
  exact List.forall_mem_cons.2 ⟨hl, hF⟩

theorem line {i : Instruction} {l : String} (hi : i.mentioned? = some l) (hl : IsLabel l) :
    Labelled [i] :=
  cons hi hl (of_nil rfl)

theorem of_mem (h : Labelled F) {i : Instruction} (hi : i ∈ F) {l : String}
    (hl : i.mentioned? = some l) : IsLabel l :=
  h l (List.mem_filterMap.2 ⟨i, hi, hl⟩)

theorem address (w : Nat) (p : Place) : Labelled (p.address w) := by
  cases p <;> exact .of_nil rfl

theorem operator (op : BinaryOp) : Labelled op.afterLeft ∧ Labelled op.afterRight := by
  cases op <;> exact ⟨.of_nil rfl, .of_nil rfl⟩

theorem print (k : PrintKind) : Labelled k.code := by
  cases k <;> exact .of_nil rfl

theorem locals (n : Nat) : Labelled (List.replicate n (.push 0)) :=
  .of_nil (List.filterMap_eq_nil_iff.2 fun _ hi => by rw [List.eq_of_mem_replicate hi]; rfl)

theorem dispatch {word : String} (hword : IsLabel word) {labels : List String}
    (hlabels : ∀ l ∈ labels, IsLabel l) (cs : List SwitchCase) :
    Labelled (dispatch word cs labels) := by
  intro l hl
  simp only [mentioned, Lpl.dispatch, List.filterMap_flatMap, Instruction.mentioned?,
    List.filterMap_cons, List.filterMap_nil, List.mem_flatMap, List.mem_cons, List.not_mem_nil,
    or_false] at hl
  obtain ⟨⟨c, m⟩, hm, rfl | rfl⟩ := hl
  · exact hword
  · exact hlabels _ (List.of_mem_zip hm).2

theorem dataSegment {labels : List String} (h : ∀ l ∈ labels, IsLabel l) :
    Labelled (dataSegment labels) := by
  cases labels with
  | nil => exact .of_nil rfl
  | cons l labels =>
    intro l' hl'
    have hwords : mentioned (Lpl.dataSegment (l :: labels)) = l :: labels :=
      filterMap_words (f := Instruction.mentioned?) (fun _ => rfl) (l :: labels)
    rw [hwords] at hl'
    exact h l' hl'

end Labelled

end Assembly

open Assembly

/-- The names of the methods that can be called are in the alphabet of labels. -/
def Table.CallsLabelled (t : Table) : Prop := ∀ f m, t.method? f = some m → IsLabelText f

section Code

variable {σ : Scope}

theorem labelled_callCode {f : String} (argc : Nat) (h : IsLabelText f) :
    Labelled (callCode f argc) :=
  (Labelled.of_nil (F := [.push (.ofNat argc)]) rfl).append (.line rfl (isLabel_methodLabel h))

/-- The labels in the code of an expression are those of the methods that it calls. -/
theorem Expr.labelledRules (hσ : σ.table.CallsLabelled) :
    Expr.Rules σ (fun _ => Labelled) (fun _ => Labelled) (fun _ => Labelled) (fun _ => Labelled) where
  int _ _ := .of_nil rfl
  null _ := .of_nil rfl
  var _ := (Labelled.address _ _).append (.of_nil rfl)
  not h := h.append (.of_nil rfl)
  neg h := ((Labelled.of_nil rfl).append h).append (.of_nil rfl)
  binary ha hb :=
    ((ha.append (Labelled.operator _).1).append hb).append (Labelled.operator _).2
  index _ h := ((Labelled.address _ _).append h).append (.of_nil rfl)
  length h := h.append (.of_nil rfl)
  new h := h.append (.of_nil rfl)
  call hm h := h.append (labelled_callCode _ (hσ _ _ hm))
  all_nil := .of_nil rfl
  all_cons he hes := he.append hes
  reversed_nil := .of_nil rfl
  reversed_cons he hes := hes.append he
  element_nil := .of_nil rfl
  element_cons he hes := (((Labelled.of_nil rfl).append he).append (.of_nil rfl)).append hes

/-- The labels in the code of a statement are made of fixed words, values of cases and numbers. -/
theorem Stmt.labelledRules (hσ : σ.table.CallsLabelled) :
    Stmt.Rules σ (fun _ _ F _ => Labelled F) (fun _ _ F _ => Labelled F)
      (fun done _ labels _ F _ => IsLabel done → (∀ l ∈ labels, IsLabel l) → Labelled F) where
  assign _ he :=
    ((Labelled.address _ _).append ((Expr.labelledRules hσ).code _ he).1).append (.of_nil rfl)
  assignAt _ hes he :=
    (((Labelled.address _ _).append ((Expr.labelledRules hσ).element _ hes).1).append
      ((Expr.labelledRules hσ).code _ he).1).append (.of_nil rfl)
  ifThen hc hs := by
    have hend := isLabel_placeLabel (x := "if_end") (by decide)
    exact ((((Expr.labelledRules hσ).code _ hc).1.append (.line rfl (hend _))).append hs).append
      (.line rfl (hend _))
  ifElse hc hs ht := by
    have helse := isLabel_placeLabel (x := "if_else") (by decide)
    have hend := isLabel_placeLabel (x := "if_end") (by decide)
    exact ((((((Expr.labelledRules hσ).code _ hc).1.append (.line rfl (helse _))).append hs).append
      (.cons rfl (hend _) (.line rfl (helse _)))).append ht).append (.line rfl (hend _))
  whileDo hc hs := by
    have hstart := isLabel_placeLabel (x := "while_start") (by decide)
    have hend := isLabel_placeLabel (x := "while_end") (by decide)
    exact ((((Labelled.line rfl (hstart _)).append ((Expr.labelledRules hσ).code _ hc).1).append
      (.line rfl (hend _))).append hs).append (.cons rfl (hstart _) (.line rfl (hend _)))
  switch {e cs d l ls ls₁ ls' G E D} _ hG he hd := by
    have hchoice := isLabel_placeLabel (x := "switch_dispatch") (by decide) ls.next
    have hend := isLabel_placeLabel (x := "switch_end") (by decide) (ls.next + 1)
    have hdefault := isLabel_placeLabel (x := "switch_default") (by decide) (ls.next + 2)
    have hword := isLabel_scratchLabel (x := "switch") (by decide)
    have hcases := isLabel_caseLabelsFrom (ls.next + 3) cs
    have harms := (((Labelled.line (i := .jump _) rfl hchoice).append (hG hend hcases)).append
      (.line (i := .label _) rfl hchoice)).append ((Expr.labelledRules hσ).code _ he).1
    have hdispatch := (harms.append (.line (i := .storei _) rfl hword)).append
      (.dispatch hword hcases cs)
    exact ((hdispatch.append (.line rfl hdefault)).append hd).append (.line rfl hend)
  block h := h
  print he := ((Expr.labelledRules hσ).code _ he).1.append (.print _)
  newline := .of_nil rfl
  ret_some _ he := ((Expr.labelledRules hσ).code _ he).1.append (.of_nil rfl)
  ret_none _ := .of_nil rfl
  call hm hes :=
    (((Expr.labelledRules hσ).reversed _ hes).1.append (labelled_callCode _ (hσ _ _ hm))).append
      (.line rfl (isLabel_scratchLabel (by decide)))
  all_nil := .of_nil rfl
  all_cons hs hss := hs.append hss
  cases_nil _ _ := .of_nil rfl
  cases_cons hs hcs hdone hlabels := by
    rw [List.forall_mem_cons] at hlabels
    exact (((Labelled.line rfl hlabels.1).append hs).append (.line rfl hdone)).append
      (hcs hdone hlabels.2)

theorem labelled_methods (hσ : σ.table.CallsLabelled) {ms : List Method} {ls ls' : Labels}
    {G : Assembly} (h : Emits (methodsCode σ ms) ls () G ls') : Labelled G := by
  induction ms generalizing ls G with
  | nil =>
    obtain ⟨-, rfl, -⟩ := (emits_pure _ _).1 h
    exact .of_nil rfl
  | cons m ms ih =>
    obtain ⟨_, F, ls₁, G, hm, hms, rfl⟩ := emits_bind.1 h
    obtain ⟨s, B, hs, -, hB, rfl⟩ := emits_method.1 hm
    have hname : Labelled [.label (methodLabel m.name)] :=
      .line rfl (isLabel_methodLabel (hσ _ _ hs))
    have hB := (Stmt.labelledRules (σ := σ.inside s) hσ).all _ hB
    exact (((hname.append (.locals _)).append hB).append (.of_nil rfl)).append (ih hms)

end Code

/-- The code of a program whose names are in the alphabet of labels. -/
theorem labelled_program {s : Settings} {p : Program} {t : Table} {code : Assembly} {ls : Labels}
    (ht : WellDeclared s p t) (h : Emits (p.code ⟨t, none⟩) {} () code ls)
    (hglobals : ∀ d ∈ p.globals, IsLabelText d.name) (hmethods : ∀ m ∈ p.methods, IsLabelText m.name) :
    Labelled code := by
  have hcalls : t.CallsLabelled := by
    intro f sig hsig
    have hmem : sig ∈ t.methods := List.mem_of_find?_eq_some hsig
    have hname : sig.name = f := by simpa using List.find?_some hsig
    rw [ht.methods] at hmem
    obtain ⟨m, hm, rfl⟩ := List.mem_map.1 hmem
    exact hname ▸ hmethods m hm
  have hscratch := scratch_program h
  obtain ⟨B, ls₁, G, hB, hG, rfl⟩ := emits_program.1 h
  have hmain : Labelled (B ++ [Instruction.halt] ++ G) :=
    (((Stmt.labelledRules (σ := ⟨t, none⟩) hcalls).all _ hB).append (.of_nil rfl)).append
      (labelled_methods hcalls hG)
  refine hmain.append (.dataSegment fun l hl => ?_)
  rcases List.mem_append.1 hl with hl | hl
  · obtain ⟨d, hd, rfl⟩ := List.mem_map.1 hl
    rw [ht.globals] at hd
    exact isLabel_variableLabel (hglobals d hd)
  · -- A scratch word is there because some line uses it.
    rw [hscratch, List.mem_eraseDups, words_append, words_dataSegment, List.append_nil] at hl
    obtain ⟨i, hi, hword⟩ := List.mem_filterMap.1 hl
    refine hmain.of_mem hi ?_
    cases i <;> cases hword <;> rfl

/-- A text compiles if it is a program that compiles. -/
theorem compile_eq_ok {s : Settings} {source : String} {code : Assembly}
    (h : (compile s source).result = .ok code) :
    ∃ p, Program.parse source = .ok p ∧ (p.compile s).result = .ok code := by
  rw [result_compile_parse] at h
  cases hparse : Program.parse source with
  | error e =>
    rw [hparse] at h
    cases h
  | ok p =>
    rw [hparse] at h
    have h : (p.compile s).result.mapError Failure.compile = .ok code := h
    refine ⟨p, rfl, ?_⟩
    cases hresult : (p.compile s).result with
    | error e =>
      rw [hresult] at h
      cases h
    | ok code' =>
      rw [hresult] at h
      cases h
      rfl

/-- The names in a source text are in the alphabet of labels. -/
theorem labelled_compile {s : Settings} {source : String} {code : Assembly}
    (h : (compile s source).result = .ok code) : Labelled code := by
  obtain ⟨p, hp, hcode⟩ := compile_eq_ok h
  obtain ⟨t, ls, ht, hcode⟩ := Program.compile_eq_ok.1 hcode
  have hwell := parse_wellFormed hp
  exact labelled_program ht hcode (fun d hd => (hwell.globals d hd).isLabelText)
    fun m hm => (hwell.methods m hm).name.isLabelText

/-! ## Reading a line -/

/-- The word of the machine that a numeral is. -/
def valueOf? (text : String) : Option Int32 :=
  (Numeral.read? Numeral.half32 text).map .ofInt

namespace Instruction

/-- The line with the given words, if it does not start with a label. -/
def ofWords? : List String → Option Instruction
  | ["push", v] => (valueOf? v).map push
  | ["get_fp"] => some getFp
  | ["get_dp"] => some getDp
  | ["load"] => some load
  | ["store"] => some store
  | ["loadi", l] => some (loadi l)
  | ["storei", l] => some (storei l)
  | ["add"] => some add
  | ["sub"] => some sub
  | ["mul"] => some mul
  | ["div"] => some div
  | ["test_z"] => some testZ
  | ["test_n"] => some testN
  | ["jumpi", l] => some (jump l)
  | ["jumpi_z", l] => some (jumpIfZero l)
  | ["calli", l] => some (call l)
  | ["ret"] => some ret
  | ["halt"] => some halt
  | ["array_index"] => some arrayIndex
  | ["array_length"] => some arrayLength
  | ["new_array", n] => (Numeral.magnitude? n.toList).map newArray
  | ["sysc", "OUT_DEC"] => some outDec
  | ["sysc", "OUT_CHAR"] => some outChar
  | [".data"] => some data
  | _ => none

/-- The line that a text is. -/
def ofText? (text : List Char) : Option Instruction :=
  if text.head? = some '$' then
    let l := String.ofList (text.takeWhile isLabelChar)
    match text.dropWhile isLabelChar with
    | [':'] => some (label l)
    | ':' :: ' ' :: v => (valueOf? (String.ofList v)).map (word l)
    | _ => none
  else ofWords? ((text.splitOn ' ').map String.ofList)

end Instruction

theorem toList_toString (v : Int32) : (toString v).toList =
    if 0 ≤ v.toInt then Nat.toDigits 10 v.toInt.toNat else '-' :: Nat.toDigits 10 (-v.toInt).toNat := by
  have hrepr : toString v = v.toInt.repr := rfl
  rw [hrepr, Int.repr_eq_if]
  split <;> simp

theorem valueOf?_toString (v : Int32) : valueOf? (toString v) = some v := by
  have hsigned : Numeral.signed? (toString v).toList = some v.toInt := by
    rw [toList_toString]
    split
    · next hpos =>
      rw [signed?_of_digits (List.all_eq_true.2 (isNumber_toDigits _).2), magnitude?_toDigits]
      exact congrArg some (Int.toNat_of_nonneg hpos)
    · next hneg =>
      have hvalue : -((-v.toInt).toNat : Int) = v.toInt := by omega
      rw [Numeral.signed?, magnitude?_toDigits]
      exact congrArg some hvalue
  have hwithin : Numeral.Within Numeral.half32 v.toInt := ⟨v.le_toInt, v.toInt_lt⟩
  rw [valueOf?, Numeral.read?, hsigned, Option.filter_some, if_pos (decide_eq_true hwithin),
    Option.map_some, Int32.ofInt_toInt]

/-- A text without spaces and line breaks. -/
def OneWord (s : String) : Prop := ' ' ∉ s.toList ∧ '\n' ∉ s.toList

theorem IsLabelText.oneWord {s : String} (h : IsLabelText s) : OneWord s := by
  have hall := List.all_eq_true.1 h
  exact ⟨fun hmem => absurd (hall _ hmem) (by decide), fun hmem => absurd (hall _ hmem) (by decide)⟩

theorem oneWord_value (v : Int32) : OneWord (toString v) := by
  have hdigits : ∀ n c, c.isDigit = false → c ∉ Nat.toDigits 10 n := by
    intro n c hc hmem
    rw [(isNumber_toDigits n).2 c hmem] at hc
    cases hc
  rw [OneWord, toList_toString]
  split
  · exact ⟨hdigits _ _ (by decide), hdigits _ _ (by decide)⟩
  · simp [hdigits _ ' ' (by decide), hdigits _ '\n' (by decide)]

/-- A line that starts with a label is cut behind it. -/
theorem takeWhile_label {l : String} (h : IsLabel l) (rest : List Char) :
    (l.toList ++ ':' :: rest).head? = some '$' ∧
      (l.toList ++ ':' :: rest).takeWhile isLabelChar = l.toList ∧
      (l.toList ++ ':' :: rest).dropWhile isLabelChar = ':' :: rest := by
  have hall := List.all_eq_true.1 h.2
  refine ⟨?_, ?_, ?_⟩
  · rw [List.head?_append, h.1, Option.some_or]
  · rw [List.takeWhile_append_of_pos hall, List.takeWhile_cons_of_neg (by decide), List.append_nil]
  · rw [List.dropWhile_append_of_pos hall, List.dropWhile_cons_of_neg (by decide)]

theorem ofText?_label {l : String} (h : IsLabel l) :
    Instruction.ofText? (l ++ ":").toList = some (.label l) := by
  obtain ⟨hhead, htake, hdrop⟩ := takeWhile_label h []
  have htext : (l ++ ":").toList = l.toList ++ [':'] := by simp
  simp only [Instruction.ofText?, htext, hhead, htake, hdrop, String.ofList_toList, if_true]

theorem ofText?_word {l : String} (h : IsLabel l) (v : Int32) :
    Instruction.ofText? (l ++ ": " ++ toString v).toList = some (.word l v) := by
  obtain ⟨hhead, htake, hdrop⟩ := takeWhile_label h (' ' :: (toString v).toList)
  have htext : (l ++ ": " ++ toString v).toList = l.toList ++ ':' :: ' ' :: (toString v).toList := by
    simp
  simp only [Instruction.ofText?, htext, hhead, htake, hdrop, String.ofList_toList, if_true,
    valueOf?_toString, Option.map_some]

/-- A line of two words comes apart at the space between them. -/
theorem ofText?_operand (head : String) {operand : String} {i : Instruction}
    (hhead : head.toList.head?.any (· ≠ '$') ∧ ' ' ∉ head.toList)
    (hoperand : OneWord operand) (hi : Instruction.ofWords? [head, operand] = some i)
    (htext : i.text = head ++ " " ++ operand) : Instruction.ofText? i.text.toList = some i := by
  have hwords : i.text.toList = [' '].intercalate [head.toList, operand.toList] := by
    simp [htext, List.intercalate]
  have hsplit : i.text.toList.splitOn ' ' = [head.toList, operand.toList] := by
    rw [hwords]
    refine List.splitOn_intercalate ' ' ?_ (List.cons_ne_nil _ _)
    simp [hhead.2, hoperand.1]
  have hstart : i.text.toList.head? ≠ some '$' := by
    obtain ⟨c, hc, hne⟩ := (Option.any_eq_true _ _).1 hhead.1
    have hfirst : i.text.toList.head? = some c := by simp [htext, List.head?_append, hc]
    rw [hfirst, ne_eq, Option.some_inj]
    exact of_decide_eq_true hne
  rw [Instruction.ofText?, if_neg hstart, hsplit, ← hi]
  simp

namespace Instruction

/-- A line is read back from its text. -/
theorem ofText?_text {i : Instruction} (h : ∀ l ∈ i.mentioned?, IsLabel l) :
    ofText? i.text.toList = some i := by
  cases i with
  | push v =>
    refine ofText?_operand "push" (by decide) (oneWord_value v) ?_ rfl
    exact congrArg (Option.map push) (valueOf?_toString v)
  | newArray n =>
    refine ofText?_operand "new_array" (by decide) (IsLabelText.digits n).oneWord ?_ rfl
    have hmagnitude : Numeral.magnitude? (toString n).toList = some n := by
      rw [Nat.toString_eq_repr, Nat.toList_repr, magnitude?_toDigits]
    exact congrArg (Option.map newArray) hmagnitude
  | loadi l => exact ofText?_operand "loadi" (by decide) (h l rfl).2.oneWord rfl rfl
  | storei l => exact ofText?_operand "storei" (by decide) (h l rfl).2.oneWord rfl rfl
  | jump l => exact ofText?_operand "jumpi" (by decide) (h l rfl).2.oneWord rfl rfl
  | jumpIfZero l => exact ofText?_operand "jumpi_z" (by decide) (h l rfl).2.oneWord rfl rfl
  | call l => exact ofText?_operand "calli" (by decide) (h l rfl).2.oneWord rfl rfl
  | label l => exact ofText?_label (h l rfl)
  | word l v => exact ofText?_word (h l rfl) v
  | _ => decide

/-- No line has a line break in it. -/
theorem newline_not_mem_text {i : Instruction} (h : ∀ l ∈ i.mentioned?, IsLabel l) :
    '\n' ∉ i.text.toList := by
  have hlabel : ∀ l, i.mentioned? = some l → '\n' ∉ l.toList := fun l hl => (h l hl).2.oneWord.2
  cases i with
  | push v => simpa [text] using (oneWord_value v).2
  | newArray n => simpa [text] using (IsLabelText.digits n).oneWord.2
  | word l v => simpa [text] using ⟨hlabel l rfl, (oneWord_value v).2⟩
  | loadi l => simpa [text] using hlabel l rfl
  | storei l => simpa [text] using hlabel l rfl
  | jump l => simpa [text] using hlabel l rfl
  | jumpIfZero l => simpa [text] using hlabel l rfl
  | call l => simpa [text] using hlabel l rfl
  | label l => simpa [text] using hlabel l rfl
  | _ => decide

end Instruction

/-! ## Reading a listing -/

/-- The code that a listing is: every line ends with a line break. -/
def Assembly.ofText? (listing : String) : Option Assembly :=
  (listing.toList.splitOn '\n').dropLast.mapM Instruction.ofText?

/-- A listing is its lines with line breaks between them, and nothing behind the last one. -/
theorem Assembly.toList_text (code : Assembly) :
    code.text.toList = ['\n'].intercalate (code.map (fun i => i.text.toList) ++ [[]]) := by
  induction code with
  | nil => rfl
  | cons i code ih =>
    have hcons : text (i :: code) = i.text ++ "\n" ++ text code := String.join_cons
    have hmore : code.map (fun i => i.text.toList) ++ [[]] ≠ [] := by simp
    obtain ⟨line, lines, hlines⟩ := List.exists_cons_of_ne_nil hmore
    rw [hcons, String.toList_append, ih, List.map_cons, List.cons_append, hlines,
      List.intercalate_cons_cons]
    simp

theorem Assembly.ofText?_text {code : Assembly} (h : Labelled code) :
    ofText? code.text = some code := by
  have hline : ∀ i ∈ code, ∀ l ∈ i.mentioned?, IsLabel l := fun i hi l hl => h.of_mem hi hl
  have hsplit : code.text.toList.splitOn '\n' = code.map (fun i => i.text.toList) ++ [[]] := by
    rw [toList_text]
    refine List.splitOn_intercalate '\n' (fun line hmem => ?_) (by simp)
    rcases List.mem_append.1 hmem with hmem | hmem
    · obtain ⟨i, hi, rfl⟩ := List.mem_map.1 hmem
      exact Instruction.newline_not_mem_text (hline i hi)
    · rw [List.mem_singleton.1 hmem]
      exact List.not_mem_nil
  rw [ofText?, hsplit, List.dropLast_concat]
  clear hsplit h
  induction code with
  | nil => rfl
  | cons i code ih =>
    rw [List.forall_mem_cons] at hline
    rw [List.map_cons, List.mapM_cons, Instruction.ofText?_text hline.1, ih hline.2]
    rfl

/-- The labels of compiled source texts are in one alphabet, and code with such labels is determined by
its listing. -/
theorem compile_listing :
    (∀ (s : Settings) (source : String) (code : Assembly), (compile s source).result = .ok code →
      ∀ l ∈ code.mentioned, IsLabel l) ∧
    ∀ code code' : Assembly, (∀ l ∈ code.mentioned, IsLabel l) → (∀ l ∈ code'.mentioned, IsLabel l) →
      code.text = code'.text → code = code' := by
  refine ⟨fun s source code h => labelled_compile h, fun code code' hcode hcode' htext => ?_⟩
  have hread : Assembly.ofText? code.text = some code := Assembly.ofText?_text hcode
  rw [htext, Assembly.ofText?_text hcode'] at hread
  exact (Option.some.inj hread).symm

/-- A switch with a negative case on the result of a call. -/
def negativeCase : String :=
  "BEGIN int x_1; SWITCH (f()) \x7b CASE -1: x_1 = -2; DEFAULT: f(); \x7d END FUN int f() \x7b \x7d"

/-- The minus of the case is spelled `m` in its label, and its listing is that of no other code. -/
theorem compile_listing_negativeCase :
    ∃ code, (compile {} negativeCase).result = .ok code ∧ .label "$$_case_m1_3" ∈ code ∧
      (∀ l ∈ code.mentioned, IsLabel l) ∧
      ∀ code' : Assembly, (∀ l ∈ code'.mentioned, IsLabel l) → code.text = code'.text →
        code = code' := by
  have hcode : (compile {} negativeCase).result.toOption.any (.label "$$_case_m1_3" ∈ ·) := by
    decide +kernel
  cases h : (compile {} negativeCase).result with
  | error e =>
    rw [h] at hcode
    cases hcode
  | ok code =>
  have hlabel : .label "$$_case_m1_3" ∈ code := by
    rw [h] at hcode
    exact of_decide_eq_true hcode
  have hlabels := compile_listing.1 {} negativeCase code h
  exact ⟨code, rfl, hlabel, hlabels, fun code' h' => compile_listing.2 code code' hlabels h'⟩

end Lpl
