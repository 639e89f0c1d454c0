import Lpl.Proofs.Calls
import Mathlib.Data.List.Nodup

/-!
# Labels of compiled programs

**Theorem (`compile_labels_sound`).** In the code of a program no label is defined twice. Every jump
and every call goes to a label of the code, every scratch word in use is a word of the data segment,
and every call goes to the start of the method that it names.

The labels come from four kinds of names, told apart by their second character, and a place label
ends in a number that is used once. So a stretch of code is described by a `Fragment`: the labels it
places are some that were taken before it, and otherwise have the numbers that were taken on the way;
it jumps to labels it places itself, and to some that are placed elsewhere. Fragments are put together
piece by piece, and a construct closes over the labels that it took first.
-/

namespace Lpl

/-! ## Names -/

/-- The character that tells the kinds of labels apart. -/
def labelMark (l : String) : Option Char := l.toList[1]?

@[simp] theorem labelMark_methodLabel (x : String) : labelMark (methodLabel x) = some '_' := by
  simp [labelMark, methodLabel]

@[simp] theorem labelMark_variableLabel (x : String) : labelMark (variableLabel x) = some 'v' := by
  simp [labelMark, variableLabel]

@[simp] theorem labelMark_scratchLabel (x : String) : labelMark (scratchLabel x) = some 's' := by
  simp [labelMark, scratchLabel]

@[simp] theorem labelMark_placeLabel (x : String) (n : Nat) :
    labelMark (placeLabel x n) = some '$' := by
  simp [labelMark, placeLabel]

theorem methodLabel_inj {x y : String} (h : methodLabel x = methodLabel y) : x = y := by
  have := congrArg String.toList h
  simpa [methodLabel, String.toList_inj] using this

theorem variableLabel_inj {x y : String} (h : variableLabel x = variableLabel y) : x = y := by
  have := congrArg String.toList h
  simpa [variableLabel, String.toList_inj] using this

/-- The digits at the end of a place label are those of its number, whatever the stem. -/
theorem digits_placeLabel (x : String) (n : Nat) :
    (placeLabel x n).toList.reverse.takeWhile Char.isDigit = (Nat.toDigits 10 n).reverse := by
  have hdigits : ∀ c ∈ (Nat.toDigits 10 n).reverse, c.isDigit = true := by
    intro c hc
    exact Nat.isDigit_of_mem_toDigits (by decide) (by decide) (List.mem_reverse.1 hc)
  have hlist : (placeLabel x n).toList.reverse =
      (Nat.toDigits 10 n).reverse ++ '_' :: ("$$_" ++ x).toList.reverse := by
    simp [placeLabel]
  rw [hlist, List.takeWhile_append_of_pos hdigits, List.takeWhile_cons_of_neg (by decide),
    List.append_nil]

theorem placeLabel_inj {x y : String} {m n : Nat} (h : placeLabel x m = placeLabel y n) : m = n := by
  have hdigits : Nat.toDigits 10 m = Nat.toDigits 10 n := by
    rw [← List.reverse_inj, ← digits_placeLabel x, ← digits_placeLabel y, h]
  rw [← Nat.ofDigitChars_ten_toDigits (n := m), hdigits, Nat.ofDigitChars_ten_toDigits]

/-! ## Labels in code -/

/-- The place that a line names. -/
def Instruction.placed? : Instruction → Option String
  | label l => some l
  | _ => none

/-- The label that a line may jump to. -/
def Instruction.target? : Instruction → Option String
  | jump l | jumpIfZero l => some l
  | _ => none

/-- The label of the data word that a line reads or writes. -/
def Instruction.word? : Instruction → Option String
  | loadi l | storei l => some l
  | _ => none

/-- The label of the data word that a line reserves. -/
def Instruction.reserved? : Instruction → Option String
  | word l _ => some l
  | _ => none

namespace Assembly

/-- The places of the code, in order. -/
def places (F : Assembly) : List String := F.filterMap Instruction.placed?

/-- The labels that jumps go to. -/
def targets (F : Assembly) : List String := F.filterMap Instruction.target?

/-- The labels of the data words in use. -/
def words (F : Assembly) : List String := F.filterMap Instruction.word?

/-- The labels of the data words that are reserved. -/
def reserved (F : Assembly) : List String := F.filterMap Instruction.reserved?

variable (F G : Assembly)

@[simp] theorem places_append : places (F ++ G) = F.places ++ G.places := List.filterMap_append

@[simp] theorem targets_append : targets (F ++ G) = F.targets ++ G.targets := List.filterMap_append

@[simp] theorem words_append : words (F ++ G) = F.words ++ G.words := List.filterMap_append

@[simp] theorem reserved_append : reserved (F ++ G) = F.reserved ++ G.reserved :=
  List.filterMap_append

@[simp] theorem labels_append : labels (F ++ G) = F.labels ++ G.labels := List.filterMap_append

/-- Code that reserves no data word defines its places only. -/
theorem labels_of_reserved (h : F.reserved = []) : F.labels = F.places := by
  have hnone : ∀ i ∈ F, i.reserved? = none := List.filterMap_eq_nil_iff.1 h
  refine List.filterMap_congr fun i hi => ?_
  have hi := hnone i hi
  cases i with
  | word l v => cases hi
  | _ => rfl

end Assembly

/-- Labels of places with distinct numbers from `a` on, below `b`. -/
def Numbered (a b : Nat) (labels : List String) : Prop :=
  (∀ l ∈ labels, ∃ x n, l = placeLabel x n ∧ a ≤ n ∧ n < b) ∧ labels.Nodup

namespace Numbered

variable {a b c : Nat} {L M : List String}

theorem nil (a b : Nat) : Numbered a b [] := by simp [Numbered]

theorem mono (h : Numbered b c L) {a d : Nat} (hab : a ≤ b) (hcd : c ≤ d) : Numbered a d L := by
  refine ⟨fun l hl => ?_, h.2⟩
  obtain ⟨x, n, rfl, hbn, hnc⟩ := h.1 l hl
  exact ⟨x, n, rfl, by omega, by omega⟩

theorem perm (h : Numbered a b L) (hp : L.Perm M) : Numbered a b M :=
  ⟨fun l hl => h.1 l (hp.mem_iff.2 hl), hp.nodup_iff.1 h.2⟩

theorem append (hL : Numbered a b L) (hM : Numbered b c M) (hab : a ≤ b) (hbc : b ≤ c) :
    Numbered a c (L ++ M) := by
  refine ⟨fun l hl => ?_, List.nodup_append.2 ⟨hL.2, hM.2, fun l hl m hm => ?_⟩⟩
  · rcases List.mem_append.1 hl with hl | hl
    · exact (hL.mono (Nat.le_refl a) hbc).1 l hl
    · exact (hM.mono hab (Nat.le_refl c)).1 l hl
  · obtain ⟨x, i, rfl, -, hi⟩ := hL.1 l hl
    obtain ⟨y, j, rfl, hj, -⟩ := hM.1 m hm
    intro h
    have := placeLabel_inj h
    omega

theorem single (x : String) (n : Nat) : Numbered n (n + 1) [placeLabel x n] := by
  refine ⟨fun l hl => ?_, by simp⟩
  exact ⟨x, n, by simpa using hl, Nat.le_refl n, Nat.lt_succ_self n⟩

theorem cons {n : Nat} (x : String) (h : Numbered (n + 1) b L) (hb : n + 1 ≤ b) :
    Numbered n b (placeLabel x n :: L) :=
  (single x n).append h (Nat.le_succ n) hb

end Numbered

theorem numbered_caseLabelsFrom (n : Nat) (cs : List SwitchCase) :
    Numbered n (n + cs.length) (caseLabelsFrom n cs) := by
  induction cs generalizing n with
  | nil => exact Numbered.nil _ _
  | cons c cs ih =>
    have htail := ih (n + 1)
    rw [show n + 1 + cs.length = n + (cs.length + 1) by omega] at htail
    exact htail.cons _ (by omega)

/-! ## Fragments -/

/-- Code without labels and data words. -/
structure Straight (F : Assembly) : Prop where
  places : F.places = []
  targets : F.targets = []
  words : F.words = []
  reserved : F.reserved = []

theorem Straight.append {F G : Assembly} (hF : Straight F) (hG : Straight G) : Straight (F ++ G) where
  places := by simp [hF.places, hG.places]
  targets := by simp [hF.targets, hG.targets]
  words := by simp [hF.words, hG.words]
  reserved := by simp [hF.reserved, hG.reserved]

theorem straight_address (w : Nat) (p : Place) : Straight (p.address w) := by
  cases p <;> exact ⟨rfl, rfl, rfl, rfl⟩

theorem straight_afterLeft (op : BinaryOp) : Straight op.afterLeft := by
  cases op <;> exact ⟨rfl, rfl, rfl, rfl⟩

theorem straight_afterRight (op : BinaryOp) : Straight op.afterRight := by
  cases op <;> exact ⟨rfl, rfl, rfl, rfl⟩

theorem straight_print (k : PrintKind) : Straight k.code := by
  cases k <;> exact ⟨rfl, rfl, rfl, rfl⟩

theorem straight_replicate_push (n : Nat) (v : Int32) : Straight (List.replicate n (.push v)) := by
  constructor <;> simp [Assembly.places, Assembly.targets, Assembly.words, Assembly.reserved,
    Instruction.placed?, Instruction.target?, Instruction.word?, Instruction.reserved?]

/-- The code of an expression runs straight on. -/
theorem Expr.straightRules (σ : Scope) :
    Expr.Rules σ (fun _ F => Straight F) (fun _ F => Straight F) (fun _ F => Straight F)
      (fun _ F => Straight F) where
  int _ _ := ⟨rfl, rfl, rfl, rfl⟩
  null _ := ⟨rfl, rfl, rfl, rfl⟩
  var _ := (straight_address _ _).append ⟨rfl, rfl, rfl, rfl⟩
  not h := h.append ⟨rfl, rfl, rfl, rfl⟩
  neg h := (Straight.append ⟨rfl, rfl, rfl, rfl⟩ h).append ⟨rfl, rfl, rfl, rfl⟩
  binary ha hb :=
    ((ha.append (straight_afterLeft _)).append hb).append (straight_afterRight _)
  index _ h := ((straight_address _ _).append h).append ⟨rfl, rfl, rfl, rfl⟩
  length h := h.append ⟨rfl, rfl, rfl, rfl⟩
  new h := h.append ⟨rfl, rfl, rfl, rfl⟩
  call _ h := h.append ⟨rfl, rfl, rfl, rfl⟩
  all_nil := ⟨rfl, rfl, rfl, rfl⟩
  all_cons he hes := he.append hes
  reversed_nil := ⟨rfl, rfl, rfl, rfl⟩
  reversed_cons he hes := hes.append he
  element_nil := ⟨rfl, rfl, rfl, rfl⟩
  element_cons he hes :=
    ((Straight.append ⟨rfl, rfl, rfl, rfl⟩ he).append ⟨rfl, rfl, rfl, rfl⟩).append hes

/-- Scratch words have labels of their own kind, and none twice. -/
def Labels.ScratchNamed (ls : Labels) : Prop :=
  (∀ l ∈ ls.scratch, labelMark l = some 's') ∧ ls.scratch.Nodup

theorem Labels.ScratchNamed.withScratch {ls : Labels} (h : ls.ScratchNamed) (name : String) :
    (ls.withScratch name).ScratchNamed := by
  unfold Labels.withScratch
  by_cases hin : scratchLabel name ∈ ls.scratch
  · rw [if_pos hin]
    exact h
  · rw [if_neg hin]
    refine ⟨fun l hl => ?_, ?_⟩
    · rcases List.mem_append.1 hl with hl | hl
      · exact h.1 l hl
      · rw [List.mem_singleton.1 hl, labelMark_scratchLabel]
    · refine List.nodup_append.2 ⟨h.2, by simp, fun l hl m hm hlm => hin ?_⟩
      rwa [← List.mem_singleton.1 hm, ← hlm]

theorem Labels.mem_withScratch (ls : Labels) (name : String) :
    scratchLabel name ∈ (ls.withScratch name).scratch := by
  by_cases hin : scratchLabel name ∈ ls.scratch <;> simp [Labels.withScratch, hin]

theorem Labels.prefix_withScratch (ls : Labels) (name : String) :
    ls.scratch <+: (ls.withScratch name).scratch := by
  by_cases hin : scratchLabel name ∈ ls.scratch <;> simp [Labels.withScratch, hin]

/-- What a stretch of code does with labels when `ls` are the labels before it and `ls'` those
behind it. It places those in `own`, which were taken before, and otherwise the ones taken on the
way; it jumps to places of its own and to those in `away`; and the words it uses are in use
behind it. -/
structure Fragment (own away : List String) (ls : Labels) (F : Assembly) (ls' : Labels) : Prop where
  next_le : ls.next ≤ ls'.next
  places : ∃ L, F.places.Perm (own ++ L) ∧ Numbered ls.next ls'.next L
  targets : ∀ l ∈ F.targets, l ∈ F.places ∨ l ∈ away
  scratch : ls.scratch <+: ls'.scratch
  named : ls.ScratchNamed → ls'.ScratchNamed
  words : ∀ l ∈ F.words, l ∈ ls'.scratch
  reserved : F.reserved = []

namespace Fragment

variable {own own' away away' : List String} {ls ls₁ ls' : Labels} {F G : Assembly}

theorem straight (h : Straight F) : Fragment [] [] ls F ls where
  next_le := Nat.le_refl _
  places := ⟨[], by simp [h.places], .nil _ _⟩
  targets := by simp [h.targets]
  scratch := List.prefix_rfl
  named := id
  words := by simp [h.words]
  reserved := h.reserved

theorem label (l : String) : Fragment [l] [] ls [.label l] ls where
  next_le := Nat.le_refl _
  places := ⟨[], List.Perm.refl _, .nil _ _⟩
  targets := by simp [Assembly.targets, Instruction.target?]
  scratch := List.prefix_rfl
  named := id
  words := by simp [Assembly.words, Instruction.word?]
  reserved := rfl

theorem jump (l : String) : Fragment [] [l] ls [.jump l] ls where
  next_le := Nat.le_refl _
  places := ⟨[], List.Perm.refl _, .nil _ _⟩
  targets := by simp [Assembly.targets, Instruction.target?]
  scratch := List.prefix_rfl
  named := id
  words := by simp [Assembly.words, Instruction.word?]
  reserved := rfl

theorem jumpIfZero (l : String) : Fragment [] [l] ls [.jumpIfZero l] ls where
  next_le := Nat.le_refl _
  places := ⟨[], List.Perm.refl _, .nil _ _⟩
  targets := by simp [Assembly.targets, Instruction.target?]
  scratch := List.prefix_rfl
  named := id
  words := by simp [Assembly.words, Instruction.word?]
  reserved := rfl

theorem append (hF : Fragment own away ls F ls₁) (hG : Fragment own' away' ls₁ G ls') :
    Fragment (own ++ own') (away ++ away') ls (F ++ G) ls' where
  next_le := Nat.le_trans hF.next_le hG.next_le
  places := by
    obtain ⟨L, hL, nL⟩ := hF.places
    obtain ⟨M, hM, nM⟩ := hG.places
    refine ⟨L ++ M, ?_, nL.append nM hF.next_le hG.next_le⟩
    rw [Assembly.places_append]
    refine (hL.append hM).trans (List.perm_iff_count.2 fun l => ?_)
    simp only [List.count_append]
    omega
  targets l hl := by
    rw [Assembly.targets_append, List.mem_append] at hl
    rw [Assembly.places_append, List.mem_append, List.mem_append]
    rcases hl with hl | hl
    · exact (hF.targets l hl).imp .inl .inl
    · exact (hG.targets l hl).imp .inr .inr
  scratch := hF.scratch.trans hG.scratch
  named h := hG.named (hF.named h)
  words l hl := by
    rw [Assembly.words_append, List.mem_append] at hl
    rcases hl with hl | hl
    · exact hG.scratch.subset (hF.words l hl)
    · exact hG.words l hl
  reserved := by rw [Assembly.reserved_append, hF.reserved, hG.reserved, List.append_nil]

/-- A construct closes over the labels that it takes first: it places them all, and the labels
that its parts jump to are among them. -/
theorem close {n : Nat} (h : Fragment own away (ls.skip n) F ls')
    (hown : Numbered ls.next (ls.next + n) own) (haway : ∀ l ∈ away, l ∈ own) :
    Fragment [] [] ls F ls' where
  next_le := Nat.le_trans (Nat.le_add_right _ _) h.next_le
  places := by
    obtain ⟨L, hL, nL⟩ := h.places
    exact ⟨own ++ L, hL, hown.append nL (Nat.le_add_right _ _) h.next_le⟩
  targets l hl := by
    obtain ⟨L, hL, -⟩ := h.places
    refine .inl ((h.targets l hl).elim id fun ha => ?_)
    exact hL.mem_iff.2 (List.mem_append_left _ (haway l ha))
  scratch := h.scratch
  named := h.named
  words := h.words
  reserved := h.reserved

/-- A scratch word that comes into use is written behind the code `F`. -/
theorem storei (name : String) (h : Fragment own away ls F ls') :
    Fragment own away ls (F ++ [Instruction.storei (scratchLabel name)]) (ls'.withScratch name) := by
  have hstore : Fragment [] [] ls' [.storei (scratchLabel name)] (ls'.withScratch name) := {
    next_le := Nat.le_refl _
    places := ⟨[], List.Perm.refl _, .nil _ _⟩
    targets := by simp [Assembly.targets, Instruction.target?]
    scratch := ls'.prefix_withScratch name
    named h := h.withScratch name
    words := by simp [Assembly.words, Instruction.word?, ls'.mem_withScratch]
    reserved := rfl }
  simpa using h.append hstore

theorem dispatch {word : String} (hword : word ∈ ls.scratch) (cs : List SwitchCase)
    (labels : List String) : Fragment [] labels ls (dispatch word cs labels) ls where
  next_le := Nat.le_refl _
  places := ⟨[], by simp [Assembly.places, Lpl.dispatch, List.filterMap_flatMap, Instruction.placed?],
    .nil _ _⟩
  targets l hl := by
    simp only [Assembly.targets, Lpl.dispatch, List.filterMap_flatMap, Instruction.target?,
      List.filterMap_cons, List.filterMap_nil, List.mem_flatMap, List.mem_singleton] at hl
    obtain ⟨⟨c, m⟩, hm, rfl⟩ := hl
    exact .inr (List.of_mem_zip hm).2
  scratch := List.prefix_rfl
  named := id
  words l hl := by
    simp only [Assembly.words, Lpl.dispatch, List.filterMap_flatMap, Instruction.word?,
      List.filterMap_cons, List.filterMap_nil, List.mem_flatMap, List.mem_singleton] at hl
    obtain ⟨-, -, rfl⟩ := hl
    exact hword
  reserved := by
    simp [Assembly.reserved, Lpl.dispatch, List.filterMap_flatMap, Instruction.reserved?]

end Fragment

theorem Expr.fragment {σ : Scope} {e : Expr} {ls ls' ls₁ : Labels} {F : Assembly}
    (h : Emits (e.code σ) ls () F ls') : Fragment [] [] ls₁ F ls₁ :=
  .straight ((Expr.straightRules σ).code e h).1

/-- The code of a statement closes over all labels that it takes. -/
theorem Stmt.fragmentRules (σ : Scope) :
    Stmt.Rules σ (fun _ => Fragment [] []) (fun _ => Fragment [] [])
      (fun done _ labels ls F ls' =>
        ∃ away, Fragment labels away ls F ls' ∧ ∀ l ∈ away, l = done) where
  assign _ he :=
    ((Fragment.straight (straight_address _ _)).append (Expr.fragment he)).append
      (.straight ⟨rfl, rfl, rfl, rfl⟩)
  assignAt _ hes he := by
    have hes := ((Expr.straightRules σ).element _ hes).1
    exact (((Fragment.straight (straight_address _ _)).append (.straight hes)).append
      (Expr.fragment he)).append (.straight ⟨rfl, rfl, rfl, rfl⟩)
  ifThen {c s l ls ls' F S} hc hs := by
    have h := (((Expr.fragment hc).append (.jumpIfZero (placeLabel "if_end" ls.next))).append
      hs).append (.label (placeLabel "if_end" ls.next))
    exact h.close (.single _ _) (by simp)
  ifElse {c s t l ls ls₁ ls' F S T} hc hs ht := by
    have h := (((((Expr.fragment hc).append (.jumpIfZero (placeLabel "if_else" ls.next))).append
      hs).append ((Fragment.jump (placeLabel "if_end" (ls.next + 1))).append
      (.label (placeLabel "if_else" ls.next)))).append ht).append
      (.label (placeLabel "if_end" (ls.next + 1)))
    exact h.close ((Numbered.single _ _).cons _ (by omega)) (by simp)
  whileDo {c s l ls ls' F S} hc hs := by
    have h := (((((Fragment.label (placeLabel "while_start" ls.next)).append
      (Expr.fragment hc)).append (.jumpIfZero (placeLabel "while_end" (ls.next + 1)))).append
      hs).append ((Fragment.jump (placeLabel "while_start" ls.next)).append
      (.label (placeLabel "while_end" (ls.next + 1)))))
    exact h.close ((Numbered.single _ _).cons _ (by omega)) (by simp)
  switch {e cs d l ls ls₁ ls' G E D} _ hG he hd := by
    obtain ⟨away, hG, haway⟩ := hG
    have harms := (((Fragment.jump (placeLabel "switch_dispatch" ls.next)).append hG).append
      (.label (placeLabel "switch_dispatch" ls.next))).append (Expr.fragment he)
    have hdispatch := (harms.storei "switch").append
      (.dispatch (ls₁.mem_withScratch "switch") cs (caseLabelsFrom (ls.next + 3) cs))
    have h := ((hdispatch.append (.label (placeLabel "switch_default" (ls.next + 2)))).append
      hd).append (.label (placeLabel "switch_end" (ls.next + 1)))
    refine h.close ?_ ?_
    · -- The four kinds of labels, in the order in which they were taken.
      have hcases := numbered_caseLabelsFrom (ls.next + 3) cs
      rw [Nat.add_assoc] at hcases
      have hnum := ((hcases.cons "switch_default" (by omega)).cons "switch_end" (by omega)).cons
        "switch_dispatch" (by omega)
      refine hnum.perm (List.perm_iff_count.2 fun l => ?_)
      simp only [List.count_append, List.count_cons, List.count_nil]
      omega
    · simp only [List.mem_append, List.mem_singleton, List.not_mem_nil, or_false]
      rintro l ((rfl | hl) | hl)
      · simp
      · simp [haway l hl]
      · simp [hl]
  block h := h
  print he := (Expr.fragment he).append (.straight (straight_print _))
  newline := .straight ⟨rfl, rfl, rfl, rfl⟩
  ret_some _ he := (Expr.fragment he).append (.straight ⟨rfl, rfl, rfl, rfl⟩)
  ret_none _ := .straight ⟨rfl, rfl, rfl, rfl⟩
  call _ hes := by
    have hes := ((Expr.straightRules σ).reversed _ hes).1
    exact (Fragment.straight (hes.append ⟨rfl, rfl, rfl, rfl⟩)).storei "discard"
  all_nil := .straight ⟨rfl, rfl, rfl, rfl⟩
  all_cons hs hss := hs.append hss
  cases_nil := ⟨[], .straight ⟨rfl, rfl, rfl, rfl⟩, by simp⟩
  cases_cons {done v s l cs label labels ls ls₁ ls' F G} hs hcs := by
    obtain ⟨away, hcs, haway⟩ := hcs
    have h := ((((Fragment.label label).append hs).append (.jump done)).append hcs)
    exact ⟨_, h, by simpa using haway⟩

/-! ## Methods and programs -/

/-- The code of methods places the label of each, and otherwise closes over its labels. -/
theorem fragment_methods {σ : Scope} {ms : List Method} {ls ls' : Labels} {G : Assembly}
    (h : Emits (methodsCode σ ms) ls () G ls') :
    Fragment (ms.map fun m => methodLabel m.name) [] ls G ls' := by
  induction ms generalizing ls G with
  | nil =>
    obtain ⟨-, rfl, rfl⟩ := (emits_pure _ _).1 h
    exact .straight ⟨rfl, rfl, rfl, rfl⟩
  | cons m ms ih =>
    obtain ⟨_, F, ls₁, G, hm, hms, rfl⟩ := emits_bind.1 h
    obtain ⟨s, B, -, -, hB, rfl⟩ := emits_method.1 hm
    have hB := (Stmt.fragmentRules (σ.inside s)).all _ hB
    have hm : Fragment [methodLabel m.name] [] ls (methodCode m.name s B) ls₁ :=
      (((Fragment.label _).append (.straight (straight_replicate_push _ _))).append hB).append
        (.straight ⟨rfl, rfl, rfl, rfl⟩)
    exact hm.append (ih hms)

@[simp] theorem places_dataSegment (labels : List String) :
    Assembly.places (dataSegment labels) = [] := by
  cases labels <;> simp [dataSegment, Assembly.places, Instruction.placed?]

@[simp] theorem targets_dataSegment (labels : List String) :
    Assembly.targets (dataSegment labels) = [] := by
  cases labels <;> simp [dataSegment, Assembly.targets, Instruction.target?]

@[simp] theorem words_dataSegment (labels : List String) :
    Assembly.words (dataSegment labels) = [] := by
  cases labels <;> simp [dataSegment, Assembly.words, Instruction.word?]

theorem filterMap_words {f : Instruction → Option String} (hf : ∀ l, f (.word l 0) = some l)
    (labels : List String) : (labels.map fun l => Instruction.word l 0).filterMap f = labels := by
  rw [List.filterMap_map]
  exact (List.filterMap_congr fun l _ => hf l).trans List.filterMap_some

theorem labels_dataSegment (labels : List String) :
    Assembly.labels (dataSegment labels) = labels := by
  cases labels with
  | nil => rfl
  | cons l labels =>
    exact filterMap_words (f := Instruction.definedLabel?) (fun _ => rfl) (l :: labels)

/-- The code of a program, up to its data segment, is a fragment whose own labels are those of the
methods, and the data segment has the labels of the globals and of all scratch words. -/
theorem fragment_program {σ : Scope} {p : Program} {ls ls' : Labels} {F : Assembly}
    (h : Emits (p.code σ) ls () F ls') :
    ∃ X, F = X ++ dataSegment (dataLabels σ.table.globals ls'.scratch) ∧
      Fragment (p.methods.map fun m => methodLabel m.name) [] ls X ls' := by
  obtain ⟨B, ls₁, G, hB, hG, rfl⟩ := emits_program.1 h
  refine ⟨B ++ [Instruction.halt] ++ G, rfl, ?_⟩
  have hB := (Stmt.fragmentRules σ).all _ hB
  exact (hB.append (.straight ⟨rfl, rfl, rfl, rfl⟩)).append (fragment_methods hG)

theorem nodup_methodLabels {ms : List Method} (h : (ms.map fun m => m.name).Nodup) :
    (ms.map fun m => methodLabel m.name).Nodup := by
  have := h.map (f := methodLabel) fun _ _ => methodLabel_inj
  simpa [Function.comp_def] using this

theorem nodup_dataLabels {ds : List Decl} {ls : Labels} (hds : (ds.map Decl.name).Nodup)
    (hls : ls.ScratchNamed) : (dataLabels ds ls.scratch).Nodup := by
  have hvars : (ds.map fun d => variableLabel d.name).Nodup := by
    have := hds.map (f := variableLabel) fun _ _ => variableLabel_inj
    simpa [Function.comp_def] using this
  refine List.nodup_append.2 ⟨hvars, hls.2, ?_⟩
  rintro _ hx l hl rfl
  obtain ⟨d, -, rfl⟩ := List.mem_map.1 hx
  simpa using hls.1 _ hl

section Places

variable {ms : List Method} {ls ls' : Labels} {X : Assembly}

theorem mark_places (hX : Fragment (ms.map fun m => methodLabel m.name) [] ls X ls') :
    ∀ l ∈ X.places, labelMark l = some '_' ∨ labelMark l = some '$' := by
  intro l hl
  obtain ⟨L, hL, hnum⟩ := hX.places
  rcases List.mem_append.1 (hL.mem_iff.1 hl) with hm | hl
  · obtain ⟨m, -, rfl⟩ := List.mem_map.1 hm
    exact .inl (labelMark_methodLabel _)
  · obtain ⟨x, n, rfl, -⟩ := hnum.1 l hl
    exact .inr (labelMark_placeLabel x n)

theorem nodup_places (hms : (ms.map fun m => m.name).Nodup)
    (hX : Fragment (ms.map fun m => methodLabel m.name) [] ls X ls') : X.places.Nodup := by
  obtain ⟨L, hL, hnum⟩ := hX.places
  refine hL.nodup_iff.2 (List.nodup_append.2 ⟨nodup_methodLabels hms, hnum.2, ?_⟩)
  intro l hl l' hl' hll'
  obtain ⟨m, -, rfl⟩ := List.mem_map.1 hl
  obtain ⟨x, n, rfl, -⟩ := hnum.1 l' hl'
  simpa using congrArg labelMark hll'

end Places

theorem mark_dataLabels {ds : List Decl} {ls : Labels} (hls : ls.ScratchNamed) :
    ∀ l ∈ dataLabels ds ls.scratch, labelMark l = some 'v' ∨ labelMark l = some 's' := by
  intro l hl
  rcases List.mem_append.1 hl with hd | hl
  · obtain ⟨d, -, rfl⟩ := List.mem_map.1 hd
    exact .inl (labelMark_variableLabel _)
  · exact .inr (hls.1 l hl)

theorem count_label (F : Assembly) (l : String) : F.count (.label l) = F.places.count l := by
  rw [Assembly.places, List.count, List.count, List.countP_filterMap]
  congr 1
  funext i
  cases i <;> simp [Instruction.placed?]

/-- The code of every method stands somewhere in the code of all of them. -/
theorem exists_methodCode {σ : Scope} {ms : List Method} {m : Method} {ls ls' : Labels}
    {G : Assembly} (hm : m ∈ ms) (h : Emits (methodsCode σ ms) ls () G ls') :
    ∃ A F D ls₁ ls₂, G = A ++ F ++ D ∧ Emits (m.code σ) ls₁ () F ls₂ := by
  induction ms generalizing ls G with
  | nil => cases hm
  | cons m' ms ih =>
    obtain ⟨_, F', ls₁, G, hm', hms, rfl⟩ := emits_bind.1 h
    rcases List.mem_cons.1 hm with rfl | hm
    · exact ⟨[], F', G, ls, ls₁, by simp, hm'⟩
    · obtain ⟨A, F, D, ls₂, ls₃, rfl, hF⟩ := ih hm hms
      exact ⟨F' ++ A, F, D, ls₂, ls₃, by simp, hF⟩

section Program

variable {s : Settings} {p : Program} {t : Table} {ls : Labels} {code : Assembly}

/-- A program's code taken apart: the code proper, which places the labels of the methods, and the
data segment. No label is defined twice. -/
theorem program_labels (ht : WellDeclared s p t) (h : Emits (p.code ⟨t, none⟩) {} () code ls) :
    ∃ X, code = X ++ dataSegment (dataLabels t.globals ls.scratch) ∧
      Fragment (p.methods.map fun m => methodLabel m.name) [] {} X ls ∧
      (dataLabels t.globals ls.scratch).Nodup ∧ code.labels.Nodup := by
  obtain ⟨X, rfl, hX⟩ := fragment_program h
  have hls : ls.ScratchNamed := hX.named ⟨by simp, by simp⟩
  have hdata : (dataLabels t.globals ls.scratch).Nodup :=
    nodup_dataLabels (ht.globals ▸ ht.globals_nodup) hls
  refine ⟨X, rfl, hX, hdata, ?_⟩
  rw [Assembly.labels_append, labels_dataSegment, Assembly.labels_of_reserved _ hX.reserved]
  refine List.nodup_append.2 ⟨nodup_places ht.methods_nodup hX, hdata, ?_⟩
  -- The four kinds of labels differ in their marks.
  rintro l hl _ hl' rfl
  rcases mark_places hX l hl with h₁ | h₁ <;> rcases mark_dataLabels hls l hl' with h₂ | h₂ <;>
    simp [h₁] at h₂

/-- Every method that is called is one of the program. -/
theorem exists_called (ht : WellDeclared s p t) (h : Emits (p.code ⟨t, none⟩) {} () code ls)
    {c : CallSite} (hc : c ∈ p.calls) : ∃ m ∈ p.methods, m.name = c.method := by
  obtain ⟨sig, hsig⟩ := (callsOf_program h).declared c hc
  have hmem : sig ∈ t.methods := List.mem_of_find?_eq_some hsig
  have hname : sig.name = c.method := by simpa using List.find?_some hsig
  rw [ht.methods] at hmem
  obtain ⟨m, hm, rfl⟩ := List.mem_map.1 hmem
  exact ⟨m, hm, hname⟩

/-- What a jump or a call goes to is a place of the code. -/
theorem mem_places_of_used (ht : WellDeclared s p t)
    (h : Emits (p.code ⟨t, none⟩) {} () code ls) {l : String}
    (hl : l ∈ code.targets ++ code.called) : l ∈ code.places := by
  obtain ⟨X, hX, hfrag, -⟩ := program_labels ht h
  have hplaces : code.places = X.places := by rw [hX]; simp
  rw [hplaces]
  rcases List.mem_append.1 hl with hl | hl
  · rw [hX, Assembly.targets_append, targets_dataSegment, List.append_nil] at hl
    exact (hfrag.targets l hl).resolve_right List.not_mem_nil
  · rw [(callsOf_program h).called] at hl
    obtain ⟨c, hc, rfl⟩ := List.mem_map.1 hl
    obtain ⟨m, hm, hname⟩ := exists_called ht h hc
    obtain ⟨L, hL, -⟩ := hfrag.places
    rw [hL.mem_iff, ← hname]
    exact List.mem_append_left _ (List.mem_map_of_mem hm)

theorem nodup_places_program (ht : WellDeclared s p t)
    (h : Emits (p.code ⟨t, none⟩) {} () code ls) : code.places.Nodup := by
  obtain ⟨X, rfl, hX, -⟩ := program_labels ht h
  rw [Assembly.places_append, places_dataSegment, List.append_nil]
  exact nodup_places ht.methods_nodup hX

theorem count_place (ht : WellDeclared s p t) (h : Emits (p.code ⟨t, none⟩) {} () code ls)
    {l : String} (hl : l ∈ code.places) : code.count (.label l) = 1 := by
  rw [count_label]
  exact List.count_eq_one_of_mem (nodup_places_program ht h) hl

/-- A word in use is reserved once, in the data segment. -/
theorem word_reserved (ht : WellDeclared s p t) (h : Emits (p.code ⟨t, none⟩) {} () code ls)
    {l : String} (hl : l ∈ code.words) :
    ∃ A D : Assembly, code = A ++ .data :: D ∧ l ∉ A.reserved ∧ D.reserved.count l = 1 := by
  obtain ⟨X, hX, hfrag, hdata, -⟩ := program_labels ht h
  rw [hX, Assembly.words_append, words_dataSegment, List.append_nil] at hl
  have hmem : l ∈ dataLabels t.globals ls.scratch := List.mem_append_right _ (hfrag.words l hl)
  refine ⟨X, (dataLabels t.globals ls.scratch).map fun l => .word l 0, ?_, ?_, ?_⟩
  · rw [hX]
    cases hD : dataLabels t.globals ls.scratch with
    | nil => simp [hD] at hmem
    | cons => rfl
  · simp [hfrag.reserved]
  · rw [Assembly.reserved, filterMap_words fun _ => rfl]
    exact List.count_eq_one_of_mem hdata hmem

/-- The code of a method stands in the program's code. -/
theorem exists_methodCode_program (h : Emits (p.code ⟨t, none⟩) {} () code ls) {m : Method}
    (hm : m ∈ p.methods) :
    ∃ A F D ls₁ ls₂, code = A ++ F ++ D ∧ Emits (m.code ⟨t, none⟩) ls₁ () F ls₂ := by
  obtain ⟨B, ls₁, G, -, hG, rfl⟩ := emits_program.1 h
  obtain ⟨A, F, D, ls₂, ls₃, rfl, hF⟩ := exists_methodCode hm hG
  exact ⟨B ++ [Instruction.halt] ++ A, F, D ++ dataSegment (dataLabels t.globals ls.scratch), ls₂,
    ls₃, by simp, hF⟩

theorem compile_labels_sound (h : (p.compile s).result = .ok code) :
    code.labels.Nodup ∧
    (∀ l ∈ code.targets ++ code.called, code.count (.label l) = 1) ∧
    (∀ l ∈ code.words, ∃ A D : Assembly,
      code = A ++ .data :: D ∧ l ∉ A.reserved ∧ D.reserved.count l = 1) ∧
    code.called = p.calls.map (fun c => methodLabel c.method) ∧
    ∃ t, (Table.ofProgram s p).result = .ok t ∧
      ∀ c ∈ p.calls, ∃ m ∈ p.methods, m.name = c.method ∧
        ∃ A F D ls ls', code = A ++ .label (methodLabel c.method) :: F ++ D ∧
          Emits (m.code ⟨t, none⟩) ls () (.label (methodLabel c.method) :: F) ls' := by
  obtain ⟨t, ls, ht, hcode⟩ := Program.compile_eq_ok.1 h
  obtain ⟨-, -, -, -, hnodup⟩ := program_labels ht hcode
  refine ⟨hnodup, fun l hl => count_place ht hcode (mem_places_of_used ht hcode hl),
    fun l hl => word_reserved ht hcode hl, (callsOf_program hcode).called, t,
    Table.ofProgram_eq_ok.2 ht, fun c hc => ?_⟩
  obtain ⟨m, hm, hname⟩ := exists_called ht hcode hc
  obtain ⟨A, F, D, ls₁, ls₂, rfl, hF⟩ := exists_methodCode_program hcode hm
  obtain ⟨sig, B, -, -, -, rfl⟩ := emits_method.1 hF
  rw [← hname]
  exact ⟨m, hm, rfl, A, _, D, ls₁, ls₂, rfl, hF⟩

end Program

/-- A switch on the result of a call, with a loop of calls in its default. -/
def switchOnCall : Program where
  globals := [⟨"x", ⟨0⟩, ⟨1, 1⟩⟩]
  body := [.switch (.call "f" [.var "x" ⟨2, 10⟩] ⟨2, 8⟩)
    [.mk 1 (.assign "x" (.int 2 ⟨3, 14⟩) ⟨3, 9⟩) ⟨3, 1⟩]
    (.whileDo (.var "x" ⟨4, 16⟩) (.call "f" [.int 3 ⟨4, 22⟩] ⟨4, 20⟩) ⟨4, 10⟩) ⟨2, 1⟩]
  methods := [⟨⟨"f", some ⟨0⟩, [⟨"n", ⟨0⟩, ⟨6, 1⟩⟩], []⟩, [.ret (some (.var "n" ⟨6, 20⟩)) ⟨6, 10⟩],
    ⟨6, 1⟩⟩]

/-- Ten labels of all kinds, five jumps, two calls, and three uses of scratch words. -/
theorem compile_labels_sound_switchOnCall :
    ∃ code, (switchOnCall.compile {}).result = .ok code ∧
      code.labels.length = 10 ∧ code.labels.Nodup ∧
      (code.targets ++ code.called).length = 7 ∧
      (∀ l ∈ code.targets ++ code.called, code.count (.label l) = 1) ∧
      code.words = ["$s_switch", "$s_switch", "$s_discard"] ∧
      ∀ l ∈ code.words, ∃ A D : Assembly,
        code = A ++ .data :: D ∧ l ∉ A.reserved ∧ D.reserved.count l = 1 := by
  have hcode : ∃ code, (switchOnCall.compile {}).result = .ok code ∧ code.labels.length = 10 ∧
      (code.targets ++ code.called).length = 7 ∧
      code.words = ["$s_switch", "$s_switch", "$s_discard"] :=
    ⟨_, rfl, by decide +kernel, by decide +kernel, by decide +kernel⟩
  obtain ⟨code, h, hlabels, hused, hwords⟩ := hcode
  obtain ⟨hnodup, hcount, hreserved, -⟩ := compile_labels_sound h
  exact ⟨code, h, hlabels, hnodup, hused, hcount, hwords, hreserved⟩

end Lpl
