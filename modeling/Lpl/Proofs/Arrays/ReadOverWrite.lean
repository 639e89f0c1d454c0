import Lpl.Proofs.Arrays.Access
import Lpl.Proofs.DataLayout

/-!
# Reads over writes

`HoldsArray` says that a variable refers to an array and which values the elements of that have, as a
function of the indices. Code of the source language acts on this function only: a new array is 0
everywhere, a read leaves the value at its indices, and an assignment changes the function there.

**Theorem (`compile_read_over_write`).** So it is for the code of every accepted program, whatever the
number of dimensions. A read or an assignment with an index out of bounds stops at the first such index,
and has changed nothing in the heap.
-/

namespace Lpl

namespace Machine

/-! ## The contents of an array -/

/-- The word at `a` refers to an array with the sizes `ns` at `r`, and `f` has the values of its
elements. The array is in the heap, and above the heap there are two free words for the stack. -/
structure HoldsArray (w a r : Int) (ns : List Int32) (f : List Int32 → Int32) (s : State) : Prop where
  sp_le : s.sp ≤ stackTop
  heap_le : s.heap ≤ s.sp - (2 : Nat) * w
  stop : r + arraySize w ns ≤ s.heap
  start : 0 ≤ a ∧ a < r
  reference : s.memory.read a = .ofInt r
  built : Built w s.memory ns r
  contents : ∀ is, InBounds is ns → s.memory.read (elementAt w ns r is) = f is

namespace HoldsArray

variable {w a r : Int} {ns is : List Int32} {f : List Int32 → Int32} {s s' : State} {k : Nat}

theorem ready (hw : 0 < w) (hns : Sized ns) (h : HoldsArray w a r ns f s) : Ready w s ns r where
  pos := hw
  sized := hns
  start := Int.lt_of_le_of_lt h.start.1 h.start.2
  stop := Int.le_trans h.stop h.heap_le
  built := h.built

theorem goto (h : HoldsArray w a r ns f s) (n : Nat) : HoldsArray w a r ns f (s.goto n) :=
  ⟨h.sp_le, h.heap_le, h.stop, h.start, h.reference, h.built, h.contents⟩

/-- An array is held by the words before the end of the heap. -/
theorem congr (hw : 0 < w) (hns : Sized ns) (h : HoldsArray w a r ns f s) (hsp : s'.sp = s.sp)
    (hheap : s'.heap = s.heap) (hread : ∀ x < s.heap, s'.memory.read x = s.memory.read x) :
    HoldsArray w a r ns f s' := by
  have hstop := h.stop
  have hstart := h.start.2
  have hsize := le_arraySize hw hns
  refine ⟨hsp ▸ h.sp_le, by rw [hsp, hheap]; exact h.heap_le, hheap ▸ hstop, h.start, ?_, ?_, ?_⟩
  · rw [hread a (by omega), h.reference]
  · exact h.built.congr hw hns fun x _ hx => hread x (by omega)
  · intro is his
    have hin := elementAt_bounds (r := r) hw hns his
    rw [hread _ (by omega), h.contents is his]

/-- Code that has only used the stack has kept the array. -/
theorem of_atop (hns : Sized ns) (h : HoldsArray w a r ns f s) (hs : Atop w 2 s k [] s') :
    HoldsArray w a r ns f s' := by
  have hheap := h.heap_le
  refine h.congr hs.pos hns (hs.stacked.sp.trans (by simp)) hs.heap fun x hx => ?_
  exact hs.below x (by omega)

/-- A write to an element changes the values at its indices. -/
theorem store (hw : 0 < w) (hns : Sized ns) (h : HoldsArray w a r ns f s) (his : InBounds is ns)
    (v : Int32) :
    HoldsArray w a r ns (Function.update f is v) (s.store (elementAt w ns r is) v) := by
  have hin := elementAt_bounds (r := r) hw hns his
  have hstart := h.start.2
  refine ⟨h.sp_le, h.heap_le, h.stop, h.start, ?_, h.built.write hw hns his v, fun js hjs => ?_⟩
  · rw [State.memory_store, Memory.read_write_of_ne _ (by omega), h.reference]
  · rw [State.memory_store]
    by_cases hij : js = is
    · rw [hij, Memory.read_write_self, Function.update_self]
    · have hne : elementAt w ns r is ≠ elementAt w ns r js :=
        fun heq => hij (elementAt_inj hw hns his hjs heq).symm
      rw [Memory.read_write_of_ne _ hne, h.contents js hjs, Function.update_of_ne hij]

end HoldsArray

/-- A reference to an array that has just been made of words that are 0. -/
theorem Made.holds {w a r : Int} {ns : List Int32} {mem : Memory} {s : State} (hw : 0 < w)
    (hns : Sized ns) (h : Made w ns r mem s.memory) (htop : s.sp ≤ stackTop)
    (hheap : s.heap = r + arraySize w ns) (hroom : s.heap ≤ s.sp - (2 : Nat) * w)
    (ha : 0 ≤ a ∧ a < r) (hzero : ∀ x, r ≤ x → x < r + arraySize w ns → mem.read x = 0) :
    HoldsArray w a r ns (fun _ => 0) (s.store a (.ofInt r)) where
  sp_le := htop
  heap_le := hroom
  stop := Int.le_of_eq hheap.symm
  start := ha
  reference := Memory.read_write_self _ _ _
  built := h.built.congr hw hns fun x hx _ => Memory.read_write_of_ne _ (by omega) _
  contents is his := by
    have hin := elementAt_bounds (r := r) hw hns his
    rw [State.memory_store, Memory.read_write_of_ne _ (by omega), h.elements is his]
    exact hzero _ (by omega) hin.2

/-! ## Code with literals -/

def readCode (d : Int32) (is : List Int32) : Assembly :=
  addressCode d ++ indexCode is ++ [Instruction.load]

def writeCode (d : Int32) (is : List Int32) (v : Int32) : Assembly :=
  addressCode d ++ indexCode is ++ [Instruction.push v, Instruction.store]

def newCode (d : Int32) (ns : List Int32) : Assembly :=
  addressCode d ++ ns.map Instruction.push ++ [Instruction.newArray ns.length, Instruction.store]

section

variable {img : Image} {d v : Int32} {r : Int} {ns is : List Int32} {f : List Int32 → Int32} {s : State}

/-- The address of the variable. -/
theorem HoldsArray.comes_address (hw : 0 < img.wordSize) (hns : Sized ns)
    (h : HoldsArray img.wordSize d.toInt r ns f s)
    (hcode : Assembly.HasAt img.code.toList s.pc (addressCode d)) :
    d.toInt < s.sp - (2 : Nat) * img.wordSize ∧
      Comes img (Atop img.wordSize 2 s (s.pc + 3) [d]) s := by
  have htop := h.sp_le
  have hbelow := (h.ready hw hns).below.2
  have hbase : Atop img.wordSize 2 s s.pc [] s := .refl hw (by omega)
  exact ⟨Int.lt_trans h.start.2 hbelow, hbase.comes_address hcode (Nat.le_refl 2)⟩

/-- The address of an element. -/
theorem HoldsArray.comes_element (hw : 0 < img.wordSize) (hns : Sized ns)
    (h : HoldsArray img.wordSize d.toInt r ns f s) (his : InBounds is ns)
    (hcode : Assembly.HasAt img.code.toList s.pc (addressCode d ++ indexCode is)) :
    Comes img (Atop img.wordSize 2 s (s.pc + (addressCode d ++ indexCode is).length)
      [.ofInt (elementAt img.wordSize ns r is)]) s := by
  obtain ⟨hbelow, haddress⟩ := h.comes_address hw hns hcode.left
  refine haddress.trans fun s₁ h₁ => ?_
  rw [List.length_append, ← Nat.add_assoc]
  exact h₁.comes_element (h.ready hw hns) his hcode.right hbelow h.reference

theorem HoldsArray.toInt_element (hw : 0 < img.wordSize) (hns : Sized ns)
    (h : HoldsArray img.wordSize d.toInt r ns f s) (his : InBounds is ns) :
    Below img.wordSize s (elementAt img.wordSize ns r is) ∧
      (Int32.ofInt (elementAt img.wordSize ns r is)).toInt = elementAt img.wordSize ns r is := by
  have hin := elementAt_bounds (r := r) hw hns his
  have hready := h.ready hw hns
  have hstart := hready.start
  have hstop := hready.stop
  have htop := h.sp_le
  exact ⟨⟨by omega, by omega⟩, toInt_ofInt_of_inStack (by omega) (by omega)⟩

/-- A read in bounds leaves the value of its element. -/
theorem HoldsArray.leaves_read (hw : 0 < img.wordSize) (hns : Sized ns)
    (h : HoldsArray img.wordSize d.toInt r ns f s) (his : InBounds is ns)
    (hcode : Assembly.HasAt img.code.toList s.pc (readCode d is)) :
    ∃ s', LeavesWord img (readCode d is) (f is) s s' ∧
      HoldsArray img.wordSize d.toInt r ns f (s'.drop img.wordSize) := by
  obtain ⟨hbelow, hto⟩ := h.toInt_element hw hns his
  have hrun : Comes img (Atop img.wordSize 2 s (s.pc + (readCode d is).length) [f is]) s := by
    refine (h.comes_element hw hns his hcode.left).trans fun s₁ h₁ => ?_
    have hload := h₁.line_load hcode.right.head
    rw [hto, h₁.read_eq (.inl hbelow.2), h.contents is his] at hload
    rw [readCode, List.length_append, ← Nat.add_assoc]
    exact hload.comes
  obtain ⟨s', hreaches, hs'⟩ := hrun
  exact ⟨s', ⟨hcode, hreaches, hs'.pc, hs'.stacked⟩, h.of_atop hns hs'.drop⟩

/-- An assignment in bounds changes the value of its element. -/
theorem HoldsArray.comes_write (hw : 0 < img.wordSize) (hns : Sized ns)
    (h : HoldsArray img.wordSize d.toInt r ns f s) (his : InBounds is ns)
    (hcode : Assembly.HasAt img.code.toList s.pc (writeCode d is v)) :
    Comes img (fun s' => s'.pc = s.pc + (writeCode d is v).length ∧
      HoldsArray img.wordSize d.toInt r ns (Function.update f is v) s') s := by
  obtain ⟨-, hto⟩ := h.toInt_element hw hns his
  refine (h.comes_element hw hns his hcode.left).trans fun s₁ h₁ => ?_
  refine (h₁.line_push hcode.right.head Nat.one_lt_two).then fun s₂ h₂ => ?_
  refine (h₂.line_store hcode.right.tail.head).then ?_
  rintro _ ⟨s₃, h₃, rfl⟩
  rw [hto]
  refine .here ⟨?_, ((h.of_atop hns h₃).store hw hns his v).goto _⟩
  simp only [State.pc_goto, writeCode, List.length_append]
  rfl

/-- Code that begins with an access out of bounds stops there, and the heap is as it was. -/
theorem HoldsArray.stops_access {j m : Int32} (hw : 0 < img.wordSize) (hns : Sized ns)
    (h : HoldsArray img.wordSize d.toInt r ns f s) (hout : FirstOut is ns j m)
    (hcode : Assembly.HasAt img.code.toList s.pc (addressCode d ++ indexCode is)) :
    StopsWith img (.outOfBounds j m)
      (fun s' => s'.heap = s.heap ∧ ∀ x < s.heap, s'.memory.read x = s.memory.read x) s := by
  have hheap := h.heap_le
  obtain ⟨hbelow, haddress⟩ := h.comes_address hw hns hcode.left
  refine haddress.stops fun s₁ h₁ => ?_
  obtain ⟨s₂, s₃, hreaches, hfault, k, hs₃⟩ :=
    h₁.stops_element (h.ready hw hns) hout hcode.right hbelow h.reference
  exact ⟨s₂, s₃, hreaches, hfault, hs₃.heap, fun x hx => hs₃.below x (by omega)⟩

/-- A new array is 0 everywhere when its memory was. -/
theorem comes_new (hw : 0 < img.wordSize) (hns : Sized ns)
    (hcode : Assembly.HasAt img.code.toList s.pc (newCode d ns)) (htop : s.sp ≤ stackTop)
    (hd : 0 ≤ d.toInt ∧ d.toInt < s.heap)
    (hfits : s.heap + arraySize img.wordSize ns ≤ s.sp - (ns.length + 1 : Nat) * img.wordSize)
    (hzero : ∀ x, s.heap ≤ x → x < s.heap + arraySize img.wordSize ns → s.memory.read x = 0) :
    Comes img (fun s' => s'.pc = s.pc + (newCode d ns).length ∧
      HoldsArray img.wordSize d.toInt s.heap ns (fun _ => 0) s') s := by
  have hlength := hns.length_pos
  have htwo : 2 ≤ ns.length + 1 := by omega
  have hroom : (2 : Nat) * img.wordSize ≤ (ns.length + 1 : Nat) * img.wordSize :=
    Int.mul_le_mul_of_nonneg_right (by omega) (Int.le_of_lt hw)
  have hline : s.pc + (addressCode d ++ ns.map Instruction.push).length = s.pc + 3 + ns.length := by
    simp [addressCode]
    omega
  have hend := hcode.right
  rw [hline] at hend
  have hbase : Atop img.wordSize (ns.length + 1) s s.pc [] s := .refl hw (by omega)
  refine (hbase.comes_address hcode.left.left htwo).trans fun s₁ h₁ => ?_
  refine (h₁.comes_pushes hcode.left.right (by simp; omega)).trans fun s₂ h₂ => ?_
  obtain ⟨s₃, base, h₃, hsp, hheap, hmade, hnew⟩ := h₂.line_newArray hns hend.head (by omega)
  refine hnew.then fun s₄ h₄ => (h₄.line_store hend.tail.head).then ?_
  rintro _ ⟨s₅, h₅, rfl⟩
  have hmadeHolds : HoldsArray img.wordSize d.toInt s.heap ns (fun _ => 0)
      (base.store d.toInt (.ofInt s.heap)) := by
    refine hmade.holds hw hns (by omega) hheap (by omega) hd fun x hx hx' => ?_
    rw [h₃.below x (by omega)]
    exact hzero x hx hx'
  have hholds : HoldsArray img.wordSize d.toInt s.heap ns (fun _ => 0)
      (s₅.store d.toInt (.ofInt s.heap)) := by
    refine hmadeHolds.congr hw hns (h₅.stacked.sp.trans (by simp)) h₅.heap fun x hx => ?_
    have hx : x < base.heap := hx
    by_cases hxd : x = d.toInt
    · simp [hxd, Memory.read_write_self]
    · rw [State.memory_store, State.memory_store, Memory.read_write_of_ne _ (Ne.symm hxd),
        Memory.read_write_of_ne _ (Ne.symm hxd), h₅.below x (by omega)]
  refine .here ⟨?_, hholds.goto _⟩
  simp [newCode, addressCode]
  omega

end

end Machine

open Machine

/-! ## Literals in the source -/

/-- Literals with the values `vs`. -/
def Literals (es : List Expr) (vs : List Int32) : Prop :=
  List.Forall₂ (fun e v => ∃ l, e = .int v l) es vs

/-- `F` is the code of a read `x[i]…`. -/
def ReadsAt (σ : Scope) (x : String) (is : List Int32) (F : Assembly) : Prop :=
  ∃ es l ls ls', Literals es is ∧ Emits ((Expr.index x es l).code σ) ls () F ls'

/-- `F` is the code of an assignment `x[i]… = v`. -/
def WritesAt (σ : Scope) (x : String) (is : List Int32) (v : Int32) (F : Assembly) : Prop :=
  ∃ es l l' ls ls', Literals es is ∧ Emits ((Stmt.assignAt x es (.int v l') l).code σ) ls () F ls'

/-- `F` is the code of an assignment `x = new int[n]…`. -/
def MakesNew (σ : Scope) (x : String) (ns : List Int32) (F : Assembly) : Prop :=
  ∃ es unsized l l' ls ls', Literals es ns ∧
    Emits ((Stmt.assign x (.new es unsized l') l).code σ) ls () F ls'

section Emission

variable {σ : Scope} {x : String} {d v : Int32} {es : List Expr} {is ns : List Int32} {ls ls' : Labels}
  {F : Assembly}

theorem Literals.indexCode_eq (h : Literals es is)
    (hF : Emits (Expr.elementAddress σ es) ls () F ls') : F = indexCode is := by
  induction h generalizing ls F with
  | nil => exact ((emits_pure _ _).1 hF).2.1
  | cons he _ ih =>
    obtain ⟨l, rfl⟩ := he
    simp only [Expr.elementAddress, Expr.code, emits_emit_bind] at hF
    obtain ⟨_, ⟨_, ⟨G, hG, rfl⟩, rfl⟩, rfl⟩ := hF
    rw [ih hG]
    rfl

theorem Literals.pushes_eq (h : Literals es ns) (hF : Emits (Expr.codeAll σ es) ls () F ls') :
    F = ns.map .push := by
  induction h generalizing ls F with
  | nil => exact ((emits_pure _ _).1 hF).2.1
  | cons he _ ih =>
    obtain ⟨l, rfl⟩ := he
    simp only [Expr.codeAll, Expr.code, emits_emit_bind] at hF
    obtain ⟨G, hG, rfl⟩ := hF
    rw [ih hG]
    rfl

variable (hx : ∀ l ls F ls', Emits (σ.address x l) ls () F ls' → F = addressCode d)

include hx

theorem ReadsAt.code_eq (h : ReadsAt σ x is F) : F = readCode d is := by
  obtain ⟨es, l, ls, ls', hes, hF⟩ := h
  rw [Expr.code, emits_bind] at hF
  obtain ⟨_, A, _, _, hA, hF, rfl⟩ := hF
  obtain ⟨_, G, hG, rfl⟩ := (emits_bind_emit _ _).1 hF
  rw [hx _ _ _ _ hA, hes.indexCode_eq hG, readCode, List.append_assoc]

theorem WritesAt.code_eq (h : WritesAt σ x is v F) : F = writeCode d is v := by
  obtain ⟨es, l, l', ls, ls', hes, hF⟩ := h
  rw [Stmt.code, emits_bind] at hF
  obtain ⟨_, A, _, _, hA, hF, rfl⟩ := hF
  rw [emits_bind] at hF
  obtain ⟨_, G, _, _, hG, hF, rfl⟩ := hF
  simp only [Expr.code, emits_emit_bind, emits_emit] at hF
  obtain ⟨_, ⟨rfl, -⟩, rfl⟩ := hF
  rw [hx _ _ _ _ hA, hes.indexCode_eq hG, writeCode, List.append_assoc]
  rfl

theorem MakesNew.code_eq (h : MakesNew σ x ns F) : F = newCode d ns := by
  obtain ⟨es, unsized, l, l', ls, ls', hes, hF⟩ := h
  rw [Stmt.code, emits_bind] at hF
  obtain ⟨_, A, _, _, hA, hF, rfl⟩ := hF
  simp only [Expr.code, emits_bind_emit] at hF
  obtain ⟨_, _, ⟨_, G, hG, rfl⟩, rfl⟩ := hF
  rw [hx _ _ _ _ hA, hes.pushes_eq hG, hes.length_eq, newCode, List.append_assoc, List.append_assoc]
  rfl

end Emission

/-! ## Programs -/

section Program

variable {s : Settings} {p : Program} {t : Table} {code : Assembly} {i : Nat} {g : Decl}

/-- The code for the address of a global leaves a number of bytes that is a word. -/
theorem exists_addressCode (ht : WellDeclared s p t) (hg : p.globals[i]? = some g) :
    ∃ d : Int32, d.toInt = (i : Int) * (t.wordSize : Int) ∧
      ∀ (l : Location) (ls : Labels) (F : Assembly) (ls' : Labels),
      Emits ((⟨t, none⟩ : Scope).address g.name l) ls () F ls' → F = addressCode d := by
  obtain ⟨hresolve, haddress⟩ := resolve_global ht hg
  have hfind := resolve_eq_ok.1 hresolve
  obtain ⟨d, hd, hcode⟩ := haddress default {}
  obtain ⟨v, hv, hplace, -⟩ := emits_address.1 hcode
  refine ⟨d, by rw [hd, Int.natCast_mul], fun l ls F ls' hF => ?_⟩
  obtain ⟨v', hv', rfl, -⟩ := emits_address.1 hF
  rw [addressCode, hplace, Option.some.inj (hv'.symm.trans hv)]

/-- On a fresh machine, the code that assigns a new array to a global leaves one that is 0 everywhere.
Wherever the global holds an array, a read in bounds leaves the value of its element, an assignment in
bounds changes that value and no other, and with an index out of bounds both stop with the heap as it
was. The data has to be below the heap, and the array leaves room for the stack of its allocation: a word
for each size and one for the address. -/
theorem compile_read_over_write (h : (p.compile s).result = .ok code) (hg : p.globals[i]? = some g)
    {ns : List Int32} (hne : ns ≠ []) (hns : ∀ n ∈ ns, 0 ≤ n.toInt)
    (hdata : ((Image.dataWords code).length : Int) * s.wordSize ≤ heapBase)
    (hfits : heapBase + arraySize s.wordSize ns ≤
      stackTop - ((ns.length + 1 : Nat) : Int) * s.wordSize) :
    ∃ t, (Table.ofProgram s p).result = .ok t ∧
      (∀ (k : Nat) (F : Assembly), MakesNew ⟨t, none⟩ g.name ns F → Assembly.HasAt code k F →
        Comes (.ofAssembly s.wordSize code) (fun s' => s'.pc = k + F.length ∧
            HoldsArray s.wordSize ((i : Int) * s.wordSize) heapBase ns (fun _ => 0) s')
          ((initial (.ofAssembly s.wordSize code)).goto k)) ∧
      ∀ (f : List Int32 → Int32) (st : State),
        HoldsArray s.wordSize ((i : Int) * s.wordSize) heapBase ns f st →
        (∀ (js : List Int32) (F : Assembly), ReadsAt ⟨t, none⟩ g.name js F →
          Assembly.HasAt code st.pc F → InBounds js ns →
          ∃ s', LeavesWord (.ofAssembly s.wordSize code) F (f js) st s' ∧
            HoldsArray s.wordSize ((i : Int) * s.wordSize) heapBase ns f (s'.drop s.wordSize)) ∧
        (∀ (is : List Int32) (v : Int32) (F : Assembly), WritesAt ⟨t, none⟩ g.name is v F →
          Assembly.HasAt code st.pc F → InBounds is ns →
          Comes (.ofAssembly s.wordSize code) (fun s' => s'.pc = st.pc + F.length ∧
            HoldsArray s.wordSize ((i : Int) * s.wordSize) heapBase ns (Function.update f is v) s')
            st) ∧
        ∀ (is : List Int32) (F : Assembly),
          ReadsAt ⟨t, none⟩ g.name is F ∨ (∃ v, WritesAt ⟨t, none⟩ g.name is v F) →
          Assembly.HasAt code st.pc F → is.length = ns.length → ¬ InBounds is ns →
          ∃ j m, FirstOut is ns j m ∧ StopsWith (.ofAssembly s.wordSize code) (.outOfBounds j m)
            (fun s' => s'.heap = st.heap ∧ ∀ x < st.heap, s'.memory.read x = st.memory.read x) st := by
  obtain ⟨t, ls, ht, hcode⟩ := Program.compile_eq_ok.1 h
  obtain ⟨d, hd, hx⟩ := exists_addressCode ht hg
  have hw := ht.wordSize_pos
  have hsized := sized_of_nonneg hne hns
  refine ⟨t, Table.ofProgram_eq_ok.2 ht, ?_⟩
  rw [ht.wordSize] at hdata hfits ⊢
  rw [← hd]
  refine ⟨?_, fun f st hst => ⟨?_, ?_, ?_⟩⟩
  · intro k F hF hat
    obtain rfl := hF.code_eq hx
    refine comes_new hw hsized hat (Int.le_refl _) ⟨?_, ?_⟩ hfits fun x _ _ => read_initial ht hcode x
    · rw [hd]
      exact Int.mul_nonneg (Int.natCast_nonneg _) (Int.le_of_lt hw)
    · have hlt : i < (Image.dataWords code).length := by
        have := (List.getElem?_eq_some_iff.1 hg).1
        rw [length_dataWords ht hcode, ht.globals]
        omega
      rw [hd]
      exact Int.lt_of_lt_of_le (Int.mul_lt_mul_of_pos_right (by omega) hw) hdata
  · intro js F hF hat hjs
    obtain rfl := hF.code_eq hx
    exact hst.leaves_read hw hsized hjs hat
  · intro is v F hF hat his
    obtain rfl := hF.code_eq hx
    exact hst.comes_write hw hsized his hat
  · intro is F hF hat hlength hnot
    obtain ⟨j, m, hout⟩ := (inBounds_or_firstOut hlength).resolve_left hnot
    refine ⟨j, m, hout, hst.stops_access hw hsized hout ?_⟩
    rcases hF with hF | ⟨v, hF⟩
    · obtain rfl := hF.code_eq hx
      exact hat.left
    · obtain rfl := hF.code_eq hx
      exact hat.left

end Program

/-- Two rows of three elements. The last one is assigned and printed, and then there is an assignment
behind the end of the first row. -/
def twoRows : Program where
  globals := [⟨"x", ⟨0⟩, ⟨1, 1⟩⟩, ⟨"a", ⟨2⟩, ⟨1, 8⟩⟩]
  body := [.assign "a" (.new [.int 2 ⟨2, 13⟩, .int 3 ⟨2, 16⟩] 0 ⟨2, 5⟩) ⟨2, 1⟩,
    .assignAt "a" [.int 1 ⟨3, 3⟩, .int 2 ⟨3, 6⟩] (.int (-7) ⟨3, 11⟩) ⟨3, 1⟩,
    .print .number (.index "a" [.int 1 ⟨4, 9⟩, .int 2 ⟨4, 12⟩] ⟨4, 7⟩) ⟨4, 1⟩,
    .assignAt "a" [.int 0 ⟨5, 3⟩, .int 3 ⟨5, 6⟩] (.int 1 ⟨5, 11⟩) ⟨5, 1⟩]
  methods := []

/-- The code of `twoRows`, with words of 8 bytes. -/
def twoRowsCode : Assembly :=
  newCode 8 [2, 3] ++ writeCode 8 [1, 2] (-7) ++ readCode 8 [1, 2] ++ [Instruction.outDec] ++
    writeCode 8 [0, 3] 1 ++ ([.halt, .data, .word "$v_x" 0, .word "$v_a" 0] : Assembly)

/-- The read finds what was assigned, and the last assignment stops. -/
theorem compile_read_over_write_twoRows :
    (twoRows.compile ⟨8, .warn⟩).result = .ok twoRowsCode ∧
      Comes (.ofAssembly 8 twoRowsCode) (fun st => st.pc = 18 ∧
        (∃ s', LeavesWord (.ofAssembly 8 twoRowsCode) (readCode 8 [1, 2]) (-7) st s') ∧
        StopsWith (.ofAssembly 8 twoRowsCode) (.outOfBounds 3 3) (fun s' => s'.heap = st.heap)
          (st.goto 29))
        (initial (.ofAssembly 8 twoRowsCode)) := by
  have hcode : (twoRows.compile ⟨8, .warn⟩).result = .ok twoRowsCode := rfl
  have htable : (Table.ofProgram ⟨8, .warn⟩ twoRows).result = .ok ⟨8, twoRows.globals, []⟩ := rfl
  have hsizes : ([2, 3] : List Int32) ≠ [] := by decide
  have hnonneg : ∀ n ∈ ([2, 3] : List Int32), 0 ≤ n.toInt :=
    List.forall_mem_cons.2 ⟨by decide, List.forall_mem_singleton.2 (by decide)⟩
  obtain ⟨t, ht, hnew, hholds⟩ := compile_read_over_write hcode (i := 1) rfl hsizes hnonneg
    (by decide) (by decide)
  cases htable.symm.trans ht
  refine ⟨hcode, ?_⟩
  have hfirst := hnew 0 (newCode 8 [2, 3])
    ⟨_, 0, ⟨2, 1⟩, ⟨2, 5⟩, {}, {}, .cons ⟨⟨2, 13⟩, rfl⟩ (.cons ⟨⟨2, 16⟩, rfl⟩ .nil), rfl, rfl, rfl⟩
    (.of_eq (A := []) rfl)
  refine hfirst.trans fun s₁ h₁ => ?_
  have hassign := (hholds _ s₁ h₁.2).2.1 [1, 2] (-7) (writeCode 8 [1, 2] (-7))
    ⟨_, ⟨3, 1⟩, ⟨3, 11⟩, {}, {}, .cons ⟨⟨3, 3⟩, rfl⟩ (.cons ⟨⟨3, 6⟩, rfl⟩ .nil), rfl, rfl, rfl⟩
    (h₁.1 ▸ .of_eq (A := newCode 8 [2, 3]) rfl) (.cons (by decide) (.cons (by decide) .nil))
  refine hassign.trans fun s₂ h₂ => .here ?_
  have hpc : s₂.pc = 18 := by rw [h₂.1, h₁.1]; rfl
  obtain ⟨s₃, hleaves, -⟩ := (hholds _ s₂ h₂.2).1 [1, 2] (readCode 8 [1, 2])
    ⟨_, ⟨4, 7⟩, {}, {}, .cons ⟨⟨4, 9⟩, rfl⟩ (.cons ⟨⟨4, 12⟩, rfl⟩ .nil), rfl, rfl, rfl⟩
    (hpc ▸ .of_eq (A := newCode 8 [2, 3] ++ writeCode 8 [1, 2] (-7)) rfl)
    (.cons (by decide) (.cons (by decide) .nil))
  rw [Function.update_self] at hleaves
  refine ⟨hpc, ⟨s₃, hleaves⟩, ?_⟩
  have hline : Assembly.HasAt twoRowsCode 29 (writeCode 8 [0, 3] 1) :=
    .of_eq (A := newCode 8 [2, 3] ++ writeCode 8 [1, 2] (-7) ++ readCode 8 [1, 2] ++
      [Instruction.outDec]) rfl
  obtain ⟨j, m, hout, s₄, s₅, hreaches, hfault, hheap, -⟩ :=
    (hholds _ (s₂.goto 29) (h₂.2.goto 29)).2.2 [0, 3] (writeCode 8 [0, 3] 1)
      (.inr ⟨1, _, ⟨5, 1⟩, ⟨5, 11⟩, {}, {}, .cons ⟨⟨5, 3⟩, rfl⟩ (.cons ⟨⟨5, 6⟩, rfl⟩ .nil),
        rfl, rfl, rfl⟩) hline rfl (by decide)
  cases hout with
  | here hrow => exact absurd (by decide) hrow
  | later _ hout =>
    cases hout with
    | here => exact ⟨s₄, s₅, hreaches, hfault, hheap⟩
    | later hin => exact absurd hin (by decide)

end Lpl
