import Lpl.Proofs.Acceptance
import Lpl.Proofs.DataLayout
import Lpl.Proofs.Simulation.Frames

/-!
# Slots of a frame

**Theorem (`frame_slots`).** Inside a method, the `k`-th local is `k` words below the frame pointer, the
`k`-th parameter is `k + 1` words above it, and a global is where it is outside. No step of computing
such a distance leaves 32 bits, and no two of the slots are one, nor is one of them a linkage word.

Slots are checked when they are declared, with one bound for parameters and locals: the distance of a
parameter with one word to spare. The distances are computed later and without a check. That the bound
covers each value on the way is what `Place.displacement?` says, where a value out of range is a failure.
In a frame every distance is a whole number of words, and with that the slots are told apart
(`nodup_frameWords`).
-/

namespace Lpl

open Machine

/-! ## Distances in 32 bits -/

/-- A value that has to fit 32 bits. -/
def int32? (n : Int) : Option Int := if Numeral.Within Numeral.half32 n then some n else none

/-- The distance of a place from its base, if every value on the way to it fits 32 bits. A position is
moved past the linkage words or negated, and then multiplied by the size of a word. -/
def Place.displacement? (w : Int) : Place → Option Int
  | .global offset => int32? offset
  | .param k => do
    let position ← int32? k
    let past ← int32? (position + linkageWords)
    let words ← int32? (past - 1)
    int32? (words * w)
  | .localVar k => do
    let position ← int32? k
    let words ← int32? (-position)
    int32? (words * w)

theorem int32?_of_bounds {n : Int} (h₁ : -2147483648 ≤ n) (h₂ : n < 2147483648) : int32? n = some n :=
  if_pos ⟨h₁, h₂⟩

theorem int32?_bind {n : Int} {f : Int → Option Int} (h₁ : -2147483648 ≤ n) (h₂ : n < 2147483648) :
    (int32? n >>= f) = f n := by
  rw [int32?_of_bounds h₁ h₂]
  rfl

section

variable {w k j : Nat}

/-- A slot in range has all nearer slots in range, and its position too. -/
theorem inRange_bounds (hw : 1 ≤ w) (h : Table.InRange w k) (hj : j ≤ k) :
    k < 2147483648 ∧ (0 : Int) ≤ (j : Int) * w ∧ (j : Int) * w < 2147483648 := by
  have hposition : k * 1 ≤ k * w := Nat.mul_le_mul_left k hw
  have hnearer : j * w ≤ k * w := Nat.mul_le_mul_right w hj
  have hbytes : k * w < 2147483648 := h
  rw [← Int.natCast_mul]
  omega

theorem displacement?_param (hw : 1 ≤ w) (h : Table.InRange w (k + 1 + linkageWords)) :
    (Place.param (k + 1)).displacement? w = some ((k + 2 : Nat) * w : Int) := by
  obtain ⟨hposition, hnonneg, hlt⟩ := inRange_bounds (j := k + 2) hw h (by unfold linkageWords; omega)
  unfold linkageWords at hposition
  have hwords : ((k + 1 : Nat) : Int) + linkageWords - 1 = (k + 2 : Nat) := by
    unfold linkageWords
    omega
  rw [Place.displacement?, int32?_bind (by omega) (by omega),
    int32?_bind (by omega) (by unfold linkageWords; omega), hwords, int32?_bind (by omega) (by omega),
    int32?_of_bounds (by omega) hlt]

theorem displacement?_localVar (hw : 1 ≤ w) (h : Table.InRange w (k + 1 + linkageWords)) :
    (Place.localVar (k + 1)).displacement? w = some (-((k + 1 : Nat) * w : Int)) := by
  obtain ⟨hposition, hnonneg, hlt⟩ := inRange_bounds (j := k + 1) hw h (by omega)
  rw [Place.displacement?, int32?_bind (by omega) (by omega), int32?_bind (by omega) (by omega),
    Int.neg_mul, int32?_of_bounds (by omega) (by omega)]

end

/-! ## Resolving names inside a method -/

/-- The declaration has the place and its address is emitted as the sum of the base and `δ`, a distance
that is computed within 32 bits. -/
structure Scope.Stores (σ : Scope) (d : Decl) (place : Place) (δ : Int) : Prop where
  resolves : σ.resolve d.name = .ok ⟨place, d.type⟩
  distance : place.displacement? σ.table.wordSize = some δ
  address : ∀ l ls, ∃ n : Int32, n.toInt = δ ∧
    Emits (σ.address d.name l) ls () [place.base, .push n, .add] ls

theorem within_of_int32? {n δ : Int} (h : int32? n = some δ) : -2147483648 ≤ δ ∧ δ < 2147483648 := by
  unfold int32? at h
  split at h
  · next hwithin =>
    cases h
    exact hwithin
  · cases h

theorem within_of_displacement? {place : Place} {w δ : Int} (h : place.displacement? w = some δ) :
    -2147483648 ≤ δ ∧ δ < 2147483648 := by
  cases place with
  | global offset => exact within_of_int32? h
  | param k =>
    simp only [Place.displacement?, Option.bind_eq_bind, Option.bind_eq_some_iff] at h
    obtain ⟨_, -, _, -, _, -, h⟩ := h
    exact within_of_int32? h
  | localVar k =>
    simp only [Place.displacement?, Option.bind_eq_bind, Option.bind_eq_some_iff] at h
    obtain ⟨_, -, _, -, h⟩ := h
    exact within_of_int32? h

/-- What is found is stored where it is found. -/
theorem Scope.stores_of_find? {σ : Scope} {d : Decl} {place : Place} {δ : Int}
    (hfind : σ.find? d.name = some ⟨place, d.type⟩)
    (hdistance : place.displacement? σ.table.wordSize = some δ)
    (hδ : place.displacement σ.table.wordSize = δ) : σ.Stores d place δ where
  resolves := resolve_eq_ok.2 hfind
  distance := hdistance
  address l ls := by
    obtain ⟨hlow, hhigh⟩ := within_of_displacement? hdistance
    refine ⟨.ofInt δ, Int32.toInt_ofInt_of_le (by omega) (by omega), ?_⟩
    exact emits_address.2 ⟨_, hfind, by rw [Place.address, hδ], rfl⟩

section

variable {s : Settings} {p : Program} {t : Table} {m : Method} {k : Nat} {d : Decl}

theorem slot?_eq_none {x : String} {ds : List Decl} (h : ¬ Table.Declares ds x) :
    Scope.slot? x ds = none :=
  Option.eq_none_iff_forall_ne_some.2 fun slot hslot => h (exists_slot?_iff.1 ⟨slot, hslot⟩)

theorem find?_local (hok : Table.MethodOk t.wordSize p.globals s.shadowing m.toSignature)
    (hk : m.locals[k]? = some d) :
    (⟨t, some m.toSignature⟩ : Scope).find? d.name = some ⟨.localVar (k + 1), d.type⟩ := by
  have hslot := slot?_of_getElem? hok.locals.1 hk
  show (Scope.inMethod? m.toSignature d.name).or _ = _
  rw [Scope.inMethod?, hslot]
  rfl

/-- No local has the name of a parameter, so parameters are not hidden. -/
theorem find?_param (hok : Table.MethodOk t.wordSize p.globals s.shadowing m.toSignature)
    (hk : m.params[k]? = some d) :
    (⟨t, some m.toSignature⟩ : Scope).find? d.name = some ⟨.param (k + 1), d.type⟩ := by
  have hslot := slot?_of_getElem? hok.params.1 hk
  have hlocal : ¬ Table.Declares m.locals d.name := by
    intro h
    obtain ⟨d', hd', hname⟩ := List.mem_map.1 h
    refine hok.disjoint d' hd' ?_
    rw [hname]
    exact List.mem_map_of_mem (List.mem_of_getElem? hk)
  show (Scope.inMethod? m.toSignature d.name).or _ = _
  rw [Scope.inMethod?, slot?_eq_none hlocal, hslot]
  rfl

theorem find?_global (ht : WellDeclared s p t) (hk : p.globals[k]? = some d)
    (hd : ¬ Table.Declares (m.locals ++ m.params) d.name) :
    (⟨t, some m.toSignature⟩ : Scope).find? d.name = some ⟨.global (k * t.wordSize), d.type⟩ := by
  have hnone : Scope.inMethod? m.toSignature d.name = none :=
    Option.eq_none_iff_forall_ne_some.2 fun v hv => hd (exists_inMethod?_iff.1 ⟨v, hv⟩)
  have hglobal : (⟨t, none⟩ : Scope).find? d.name = some ⟨.global (k * t.wordSize), d.type⟩ :=
    resolve_eq_ok.1 (resolve_global ht hk).1
  show (Scope.inMethod? m.toSignature d.name).or (Scope.global? t d.name) = _
  rw [hnone]
  exact hglobal

end

/-! ## Slots apart -/

/-- The places of a method's parameters and locals. -/
def Signature.places (m : Signature) : List Place :=
  (List.range m.params.length).map (fun k => .param (k + 1)) ++
    (List.range m.locals.length).map fun k => .localVar (k + 1)

/-- The words from the frame pointer to each slot, those of the linkage first. -/
def Signature.frameWords (m : Signature) : List Int :=
  [0, 1] ++ ((List.range m.params.length).map (fun k => ((k + 2 : Nat) : Int)) ++
    (List.range m.locals.length).map fun k => -((k + 1 : Nat) : Int))

theorem nodup_frameWords (m : Signature) : m.frameWords.Nodup := by
  have hparams : ((List.range m.params.length).map fun k => ((k + 2 : Nat) : Int)).Nodup := by
    refine List.nodup_range.map ?_
    intro i j hij
    dsimp only at hij
    omega
  have hlocals : ((List.range m.locals.length).map fun k => -((k + 1 : Nat) : Int)).Nodup := by
    refine List.nodup_range.map ?_
    intro i j hij
    dsimp only at hij
    omega
  have hapart : ∀ x ∈ (List.range m.params.length).map (fun k => ((k + 2 : Nat) : Int)),
      ∀ y ∈ (List.range m.locals.length).map (fun k => -((k + 1 : Nat) : Int)), x ≠ y := by
    intro x hx y hy
    obtain ⟨i, -, rfl⟩ := List.mem_map.1 hx
    obtain ⟨j, -, rfl⟩ := List.mem_map.1 hy
    omega
  refine List.nodup_append.2 ⟨by decide, List.nodup_append.2 ⟨hparams, hlocals, hapart⟩, ?_⟩
  intro x hx y hy
  have hx' : x = 0 ∨ x = 1 := by simpa using hx
  rcases List.mem_append.1 hy with hy | hy <;> obtain ⟨i, -, rfl⟩ := List.mem_map.1 hy <;> omega

/-- Distances are distances in words times the size of a word. -/
theorem map_frameWords (m : Signature) (w : Nat) :
    m.frameWords.map (· * (w : Int)) = 0 :: (w : Int) :: m.places.map (Place.displacement w) := by
  simp only [Signature.frameWords, Signature.places, List.map_append, List.map_cons, List.map_map,
    Int.zero_mul, Int.one_mul, List.cons_append, List.nil_append]
  refine congrArg (fun l => 0 :: (w : Int) :: l) (congr (congrArg _ ?_) ?_)
  · refine List.map_congr_left fun k _ => ?_
    simp [Place.displacement, linkageWords]
  · refine List.map_congr_left fun k _ => ?_
    show -((k + 1 : Nat) : Int) * w = -(((k + 1) * w : Nat) : Int)
    rw [Int.natCast_mul, Int.neg_mul]

theorem nodup_displacements (m : Signature) {w : Nat} (hw : 1 ≤ w) :
    (0 :: (w : Int) :: m.places.map (Place.displacement w)).Nodup := by
  rw [← map_frameWords]
  refine (nodup_frameWords m).map ?_
  intro x y hxy
  exact Int.eq_of_mul_eq_mul_right (by omega) hxy

/-! ## The slots of a method -/

/-- Inside a method each local and each parameter has the slot of its position, and a global that they
do not hide has its own. The distances are right and need no more than 32 bits, and those in the frame
differ from each other and from those of the linkage words. -/
theorem frame_slots {s : Settings} {p : Program} {t : Table} {m : Method}
    (h : (Table.ofProgram s p).result = .ok t) (hm : m ∈ p.methods) :
    (⟨t, none⟩ : Scope).enter m.name = .ok m.toSignature ∧
      (∀ (k : Nat) d, m.locals[k]? = some d →
        ((⟨t, none⟩ : Scope).inside m.toSignature).Stores d (.localVar (k + 1))
          (-((k + 1) * s.wordSize))) ∧
      (∀ (k : Nat) d, m.params[k]? = some d →
        ((⟨t, none⟩ : Scope).inside m.toSignature).Stores d (.param (k + 1)) ((k + 2) * s.wordSize)) ∧
      (∀ (i : Nat) d, p.globals[i]? = some d → ¬ Table.Declares (m.locals ++ m.params) d.name →
        ∃ offset : Nat, offset = i * s.wordSize ∧
          ((⟨t, none⟩ : Scope).inside m.toSignature).Stores d (.global offset) offset) ∧
      (∀ x, ¬ Table.Declares (m.locals ++ m.params ++ p.globals) x →
        ((⟨t, none⟩ : Scope).inside m.toSignature).resolve x = .error (.undeclared .var x none)) ∧
      (0 :: s.wordSize :: m.places.map (Place.displacement t.wordSize)).Nodup := by
  have ht := Table.ofProgram_eq_ok.1 h
  have hok := ht.methods_ok m hm
  have hw := ht.one_le_wordSize
  rw [ht.wordSize]
  refine ⟨enter_eq_ok.2 ⟨method?_of_mem ht hm, rfl⟩, ?_, ?_, ?_, ?_, nodup_displacements _ hw⟩
  · intro k d hk
    have hrange := hok.locals_inRange k (List.getElem?_eq_some_iff.1 hk).1
    exact Scope.stores_of_find? (find?_local hok hk) (displacement?_localVar hw hrange) rfl
  · intro k d hk
    have hrange := hok.params_inRange k (List.getElem?_eq_some_iff.1 hk).1
    exact Scope.stores_of_find? (find?_param hok hk) (displacement?_param hw hrange) rfl
  · intro i d hi hd
    have hrange : i * t.wordSize < 2147483648 :=
      ht.globals_inRange i (List.getElem?_eq_some_iff.1 hi).1
    refine ⟨i * t.wordSize, Int.natCast_mul _ _, Scope.stores_of_find? (find?_global ht hi hd) ?_ rfl⟩
    exact int32?_of_bounds (by omega) (by omega)
  · intro x hx
    have hnone : ((⟨t, none⟩ : Scope).inside m.toSignature).find? x = none := by
      refine Option.eq_none_iff_forall_ne_some.2 fun v hv => hx ?_
      have hallows := allows_var_inside.1 ⟨v, hv⟩
      rwa [ht.globals] at hallows
    rw [Scope.resolve, hnone]

/-- Two globals, and a method whose second parameter and first local hide them. -/
def hidingMethod : Method where
  name := "f"
  returnType := none
  params := [⟨"a", ⟨0⟩, ⟨2, 8⟩⟩, ⟨"x", ⟨1⟩, ⟨2, 15⟩⟩]
  locals := [⟨"y", ⟨2⟩, ⟨3, 1⟩⟩]
  body := []
  location := ⟨2, 1⟩

def hidingProgram : Program where
  globals := [⟨"x", ⟨0⟩, ⟨1, 1⟩⟩, ⟨"y", ⟨0⟩, ⟨1, 8⟩⟩, ⟨"z", ⟨0⟩, ⟨1, 15⟩⟩]
  body := []
  methods := [hidingMethod]

/-- With words of 8 bytes, `y` is 8 bytes below the frame pointer, `x` is 24 above it, and `z` is 16
bytes into the data segment. -/
theorem frame_slots_hidingMethod :
    ∃ t, (Table.ofProgram ⟨8, .warn⟩ hidingProgram).result = .ok t ∧ hidingMethod ∈ hidingProgram.methods ∧
      (∃ d, d.name = "y" ∧ Scope.Stores ⟨t, some hidingMethod.toSignature⟩ d (.localVar 1) (-8)) ∧
      (∃ d, d.name = "x" ∧ Scope.Stores ⟨t, some hidingMethod.toSignature⟩ d (.param 2) 24) ∧
      (∃ d, d.name = "z" ∧ Scope.Stores ⟨t, some hidingMethod.toSignature⟩ d (.global 16) 16) ∧
      Scope.resolve ⟨t, some hidingMethod.toSignature⟩ "w" = .error (.undeclared .var "w" none) ∧
      ([0, 8, 16, 24, -8] : List Int).Nodup := by
  have hm : hidingMethod ∈ hidingProgram.methods := List.mem_singleton.2 rfl
  obtain ⟨t, ht⟩ : ∃ t, (Table.ofProgram ⟨8, .warn⟩ hidingProgram).result = .ok t := ⟨_, rfl⟩
  obtain ⟨-, hlocals, hparams, hglobals, hother, hnodup⟩ := frame_slots ht hm
  obtain ⟨offset, hoffset, hz⟩ := hglobals 2 ⟨"z", ⟨0⟩, ⟨1, 15⟩⟩ rfl (by decide)
  obtain rfl : offset = 16 := Int.ofNat.inj hoffset
  have hw : t.wordSize = 8 := Int.ofNat.inj (Table.ofProgram_eq_ok.1 ht).wordSize.symm
  rw [hw] at hnodup
  exact ⟨t, ht, hm, ⟨_, rfl, hlocals 0 _ rfl⟩, ⟨_, rfl, hparams 1 _ rfl⟩, ⟨_, rfl, hz⟩,
    hother "w" (by decide), hnodup⟩

end Lpl
