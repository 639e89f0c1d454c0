import Lpl.Proofs.Simulation.Call

/-!
# The image of a compiled program

Loading code records a line for each label and an address for each data word, one entry after
another, so that an entry may take the place of an earlier one. In the code of a program no label is
defined twice, and each label keeps the line or the address of its definition. Thus the image of a
program's code is `Linked`, its methods are `MethodsLinked`, and at the start every word is 0.
-/

namespace Lpl

open Machine

/-! ## Tables of labels -/

section Fold

variable {α β : Type} {key : α → Option String} {v : Nat → β}
  {f : Std.HashMap String β → α × Nat → Std.HashMap String β}
  (hf : ∀ m x n, f m (x, n) = (key x).elim m fun l => m.insert l (v n))

include hf

/-- Entries of other labels leave the entry of a label as it is. -/
theorem getElem?_foldl_of_not_mem {l : String} {xs : List α} (h : l ∉ xs.filterMap key)
    (n : Nat) (m : Std.HashMap String β) : ((xs.zipIdx n).foldl f m)[l]? = m[l]? := by
  induction xs generalizing n m with
  | nil => rfl
  | cons x xs ih =>
    rw [List.zipIdx_cons, List.foldl_cons, hf]
    cases hx : key x with
    | none =>
      rw [List.filterMap_cons_none hx] at h
      exact ih h _ _
    | some l' =>
      rw [List.filterMap_cons_some hx, List.mem_cons, not_or] at h
      rw [ih h.2]
      simp [Std.HashMap.getElem?_insert, Ne.symm h.1]

/-- The entry of a label is that of its only definition. -/
theorem getElem?_foldl_of_nodup {l : String} {x : α} {xs : List α} {k : Nat}
    (hxs : (xs.filterMap key).Nodup) (hk : xs[k]? = some x) (hx : key x = some l) (n : Nat)
    (m : Std.HashMap String β) : ((xs.zipIdx n).foldl f m)[l]? = some (v (n + k)) := by
  induction xs generalizing n k m with
  | nil => cases hk
  | cons y xs ih =>
    rw [List.zipIdx_cons, List.foldl_cons]
    cases k with
    | zero =>
      cases hk
      rw [List.filterMap_cons_some hx, List.nodup_cons] at hxs
      rw [getElem?_foldl_of_not_mem hf hxs.1, hf, hx]
      exact Std.HashMap.getElem?_insert_self
    | succ k =>
      rw [List.getElem?_cons_succ] at hk
      have hsub : (xs.filterMap key).Sublist ((y :: xs).filterMap key) :=
        (List.sublist_cons_self y xs).filterMap key
      rw [ih (hxs.sublist hsub) hk, Nat.add_assoc, Nat.add_comm 1 k]

end Fold

/-- A label that is placed once stands for its line. -/
theorem getElem?_placesOf {code : Assembly} {k : Nat} {l : String} (h : code.places.Nodup)
    (hk : code[k]? = some (.label l)) : (Image.placesOf code)[l]? = some k := by
  have hget : (Image.placesOf code)[l]? = some (0 + k) :=
    getElem?_foldl_of_nodup (v := id) (fun m i n => by cases i <;> rfl) h hk rfl 0 ∅
  rwa [Nat.zero_add] at hget

/-- The address of a data word follows from its place among them. -/
theorem getElem?_addressesOf {w : Int} {code : Assembly} {labels : List String} {k : Nat} {l : String}
    (hcode : Image.dataWords code = labels.map fun l => (l, 0)) (hlabels : labels.Nodup)
    (hk : labels[k]? = some l) : (Image.addressesOf w code)[l]? = some (k * w) := by
  have hnodup : ((Image.dataWords code).filterMap fun p => some p.1).Nodup := by
    rw [hcode, List.filterMap_map]
    exact (List.filterMap_some (l := labels)).symm ▸ hlabels
  have hget : (Image.dataWords code)[k]? = some (l, 0) := by
    rw [hcode, List.getElem?_map, hk]
    rfl
  have hentry : (Image.addressesOf w code)[l]? = some ((0 + k : Nat) * w) :=
    getElem?_foldl_of_nodup (v := fun n => (n * w : Int)) (fun _ _ _ => rfl) hnodup hget rfl 0 ∅
  rwa [Nat.zero_add] at hentry

/-! ## The data segment -/

theorem fst_dataWords (F : Assembly) : (Image.dataWords F).map Prod.fst = F.reserved := by
  rw [Image.dataWords, List.map_filterMap, Assembly.reserved]
  congr 1
  funext i
  cases i <;> rfl

theorem dataWords_dataSegment (labels : List String) :
    Image.dataWords (dataSegment labels) = labels.map fun l => (l, 0) := by
  cases labels with
  | nil => rfl
  | cons l labels =>
    show Image.dataWords (.data :: (l :: labels).map fun l => .word l 0) = _
    rw [Image.dataWords, List.filterMap_cons_none rfl, List.filterMap_map, ← List.filterMap_eq_map]
    rfl

theorem read_foldl_write_zero (labels : List (String × Int32)) (h : ∀ p ∈ labels, p.2 = 0)
    (address : String → Int) (m : Memory) (hm : ∀ a, m.read a = 0) (a : Int) :
    (labels.foldl (fun m (l, v) => m.write (address l) v) m).read a = 0 := by
  induction labels generalizing m with
  | nil => exact hm a
  | cons p labels ih =>
    refine ih (fun q hq => h q (List.mem_cons_of_mem _ hq)) _ fun b => ?_
    rw [Memory.read_write, h p List.mem_cons_self, hm b, ite_self]

/-! ## The image of a program -/

section Program

variable {s : Settings} {p : Program} {t : Table} {ls : Labels} {code : Assembly}

/-- The data words of a program are those of its globals and its scratch words, each one 0. -/
theorem dataWords_program (ht : WellDeclared s p t) (h : Emits (p.code ⟨t, none⟩) {} () code ls) :
    Image.dataWords code = (dataLabels t.globals ls.scratch).map fun l => (l, 0) := by
  obtain ⟨X, rfl, hX, -⟩ := program_labels ht h
  have hnone : Image.dataWords X = [] := by
    rw [← List.map_eq_nil_iff (f := Prod.fst), fst_dataWords, hX.reserved]
  rw [Image.dataWords, List.filterMap_append]
  exact (congrArg (· ++ _) hnone).trans (dataWords_dataSegment _)

theorem getElem?_addresses (ht : WellDeclared s p t) (h : Emits (p.code ⟨t, none⟩) {} () code ls)
    {k : Nat} {l : String} (hk : (dataLabels t.globals ls.scratch)[k]? = some l) :
    (Image.ofAssembly t.wordSize code).addresses[l]? = some ((k : Int) * t.wordSize) := by
  obtain ⟨-, -, -, hnodup, -⟩ := program_labels ht h
  exact getElem?_addressesOf (dataWords_program ht h) hnodup hk

theorem length_dataWords (ht : WellDeclared s p t) (h : Emits (p.code ⟨t, none⟩) {} () code ls) :
    (Image.dataWords code).length = t.globals.length + ls.scratch.length := by
  rw [dataWords_program ht h, List.length_map, dataLabels, List.length_append, List.length_map]

theorem WellDeclared.wordSize_pos (ht : WellDeclared s p t) : (0 : Int) < t.wordSize := by
  have := ht.one_le_wordSize
  omega

/-- A scratch word in use has an address in the data segment, behind the globals. -/
theorem exists_address_word (ht : WellDeclared s p t) (h : Emits (p.code ⟨t, none⟩) {} () code ls)
    {l : String} (hl : l ∈ code.words) :
    ∃ a, (Image.ofAssembly t.wordSize code).addresses[l]? = some a ∧
      t.globals.length * t.wordSize ≤ a ∧ a < (Image.dataWords code).length * t.wordSize := by
  have hlength := length_dataWords ht h
  have hw := ht.wordSize_pos
  obtain ⟨X, rfl, hX, -⟩ := program_labels ht h
  rw [Assembly.words_append, words_dataSegment, List.append_nil] at hl
  obtain ⟨j, hj⟩ := List.mem_iff_getElem?.1 (hX.words l hl)
  have hlt := (List.getElem?_eq_some_iff.1 hj).1
  have hk : (dataLabels t.globals ls.scratch)[t.globals.length + j]? = some l := by
    rw [dataLabels, List.getElem?_append_right (by simp), List.length_map,
      Nat.add_sub_cancel_left, hj]
  refine ⟨_, getElem?_addresses ht h hk, ?_, ?_⟩
  · exact Int.mul_le_mul_of_nonneg_right (by omega) (Int.le_of_lt hw)
  · rw [hlength]
    exact Int.mul_lt_mul_of_pos_right (by omega) hw

/-- The image of a program's code is linked. -/
theorem linked_program (ht : WellDeclared s p t) (h : Emits (p.code ⟨t, none⟩) {} () code ls)
    (hshort : code.length < 2147483648) :
    Linked t code (Image.ofAssembly t.wordSize code)
      ((Image.dataWords code).length * t.wordSize) := by
  have hw := ht.wordSize_pos
  have hlength := length_dataWords ht h
  refine ⟨fun k => List.getElem?_toArray, rfl, hw, ?_, getElem?_placesOf (nodup_places_program ht h),
    fun hl => exists_address_word ht h hl, hshort⟩
  exact Int.mul_le_mul_of_nonneg_right (by omega) (Int.le_of_lt hw)

/-- The word of a global is at the address that its accesses use. -/
theorem address_variableLabel (ht : WellDeclared s p t)
    (h : Emits (p.code ⟨t, none⟩) {} () code ls) {x : String} {v : Variable}
    (hv : Scope.global? t x = some v) :
    (Image.ofAssembly t.wordSize code).address (variableLabel x) =
      v.place.displacement t.wordSize := by
  obtain ⟨⟨i, ty⟩, hi, rfl⟩ := Option.map_eq_some_iff.1 hv
  have hk : (dataLabels t.globals ls.scratch)[i]? = some (variableLabel x) := by
    obtain ⟨d, hd, rfl⟩ := getElem?_of_slot? hi
    rw [dataLabels, List.getElem?_append_left (by simpa using slot?_lt hi), List.getElem?_map, hd]
    rfl
  rw [Image.address, Std.HashMap.getD_eq_getD_getElem?, getElem?_addresses ht h hk]
  exact (Int.natCast_mul i t.wordSize).symm

theorem read_initial (ht : WellDeclared s p t) (h : Emits (p.code ⟨t, none⟩) {} () code ls)
    (a : Int) : (initial (Image.ofAssembly t.wordSize code)).memory.read a = 0 := by
  refine read_foldl_write_zero _ (fun q hq => ?_) _ .empty Memory.read_empty a
  have hq : q ∈ Image.dataWords code := hq
  rw [dataWords_program ht h] at hq
  obtain ⟨l, -, rfl⟩ := List.mem_map.1 hq
  rfl

/-- Calls in a part of the program match the methods of its table. -/
theorem argsMatch_program (ht : WellDeclared s p t) (hmatch : p.CallsMatch) {cs : List CallSite}
    (hcs : ∀ c ∈ cs, c ∈ p.calls) : ArgsMatch t cs := by
  intro c hc sig hsig
  have hmem : sig ∈ t.methods := List.mem_of_find?_eq_some hsig
  have hname : sig.name = c.method := by simpa using List.find?_some hsig
  rw [ht.methods] at hmem
  obtain ⟨m, hm, rfl⟩ := List.mem_map.1 hmem
  exact hmatch c (hcs c hc) m hm hname

theorem methodsLinked_program (ht : WellDeclared s p t)
    (h : Emits (p.code ⟨t, none⟩) {} () code ls) (hfree : p.arrayFree) (hmatch : p.CallsMatch) :
    MethodsLinked p t code := by
  intro g m hm
  have hfind : ((p.methods.map Method.toSignature).find? fun m => m.name = g) = some m := by
    rw [← ht.methods]
    exact hm
  rw [List.find?_map] at hfind
  obtain ⟨m', hm', rfl⟩ := Option.map_eq_some_iff.1 hfind
  have hmem : m' ∈ p.methods := List.mem_of_find?_eq_some hm'
  have hname : m'.name = g := by simpa using List.find?_some hm'
  obtain ⟨A, F, D, ls₁, ls₂, hcode, hF⟩ := exists_methodCode_program h hmem
  obtain ⟨sig, B, hsig, -, hB, rfl⟩ := emits_method.1 hF
  rw [hname] at hsig hcode
  cases hm.symm.trans hsig
  rw [Program.arrayFree, Bool.and_eq_true, List.all_eq_true] at hfree
  refine ⟨m', _, B, ls₁, ls₂, hm', rfl, .of_eq hcode, hB, hfree.2 m' hmem, ?_⟩
  exact argsMatch_program ht hmatch fun c hc =>
    List.mem_append_right _ (List.mem_flatMap.2 ⟨m', hmem, hc⟩)

end Program

end Lpl
