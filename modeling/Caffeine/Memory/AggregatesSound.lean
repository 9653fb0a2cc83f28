import Mathlib.Data.List.Induction
import Caffeine.Memory.AggregateOffsets

/-!
# Aggregates and the target layout

`Allocation::write` of an aggregate is a sequence of writes of its scalars, at the running sums of
the sizes before them, and `Allocation::read` reads them from there. `getelementptr` to a member
agrees if there is no padding.
-/

namespace Caffeine

open Operation OperationSimplifier LittleEndian List BitVec
open Option hiding guard

def LLVMValue.at? : LLVMValue → List Nat → Option LLVMScalar
  | .scalar value, [] => some value
  | .vector elements, [i] => elements[i]?
  | .aggregate members, i :: path => do at? (← members[i]?) path
  | _, _ => none

def LLVMScalar.operation : LLVMScalar → Operation
  | expr value => value
  | pointer value => value.offset

inductive LLVMValue.OfType : LLVMType → LLVMValue → Prop
  | scalar {type : LLVMType} {value : LLVMScalar} (h : type.isScalar = true) :
    OfType type (.scalar value)
  | vector {count : Nat} {element : LLVMType} {elements : List LLVMScalar}
    (hlength : elements.length = count) : OfType (.vector count element) (.vector elements)
  | array {count : Nat} {element : LLVMType} {members : List LLVMValue}
    (hlength : members.length = count) (hmembers : ∀ m ∈ members, OfType element m) :
    OfType (.array count element) (.aggregate members)
  | struct {types : List LLVMType} {members : List LLVMValue}
    (hlength : members.length = types.length)
    (hmembers : ∀ p ∈ types.zip members, OfType p.1 p.2) :
    OfType (.struct types) (.aggregate members)
  | packedStruct {types : List LLVMType} {members : List LLVMValue}
    (hlength : members.length = types.length)
    (hmembers : ∀ p ∈ types.zip members, OfType p.1 p.2) :
    OfType (.packedStruct types) (.aggregate members)

variable {offsetOf : List Nat → Nat} {β : Type} {path : List Nat} {s : LLVMScalar}
  {offset : Operation} {i : Nat} {types : List LLVMType} {t : LLVMType}

section Write

variable {σ : Assignment} {cache : OperationCache} {layout : TargetLayout} {w : Nat} {α : Type}
  {write : α → Operation → LLVMScalar → Option α}

/-- Scalars with the expressions where they are written are the members of a value, each at its
offset. -/
structure Placement (σ : Assignment) (x : BitVec w) (offsetOf : List Nat → Nat)
    (value : List Nat → Option LLVMScalar) (placed : List (Operation × LLVMScalar)) : Prop where
  complete : ∀ path s, value path = some s →
    ∃ e, (e, s) ∈ placed ∧ Denotes σ e (x + BitVec.ofNat w (offsetOf path))
  sound : ∀ e s, (e, s) ∈ placed →
    ∃ path, value path = some s ∧ Denotes σ e (x + BitVec.ofNat w (offsetOf path))

def writeAll (write : α → Operation → LLVMScalar → Option α)
    (placed : List (Operation × LLVMScalar)) (state : α) : Option α :=
  placed.foldlM (fun state p => write state p.1 p.2) state

/-- What a traversal does for a value at an offset: it writes its scalars at their offsets. -/
def WritesAs (σ : Assignment) (write : α → Operation → LLVMScalar → Option α) (x : BitVec w)
    (offsetOf : List Nat → Nat) (value : List Nat → Option LLVMScalar) (run : α → Option α) :
    Prop :=
  ∃ placed, Placement σ x offsetOf value placed ∧ ∀ state, run state = writeAll write placed state

variable {x : BitVec w} {type : LLVMType}

theorem WritesAs.of_eq {x' : BitVec w} {offsetOf' : List Nat → Nat}
    {value : List Nat → Option LLVMScalar} {run : α → Option α}
    (h : WritesAs σ write x' offsetOf' value run) (heq : ∀ path s, value path = some s →
      x' + BitVec.ofNat w (offsetOf' path) = x + BitVec.ofNat w (offsetOf path)) :
    WritesAs σ write x offsetOf value run := by
  obtain ⟨placed, hplaced, hrun⟩ := h
  refine ⟨placed, ⟨?_, ?_⟩, hrun⟩
  · intro path s hs
    obtain ⟨e, he, hd⟩ := hplaced.complete path s hs
    exact ⟨e, he, heq path s hs ▸ hd⟩
  · intro e s hes
    obtain ⟨path, hs, hd⟩ := hplaced.sound e s hes
    exact ⟨path, hs, heq path s hs ▸ hd⟩

theorem writesAs_scalar {y : BitVec w} {e : Operation} (he : Denotes σ e y)
    (hy : y = x + BitVec.ofNat w (offsetOf [])) (s : LLVMScalar) :
    WritesAs σ write x offsetOf (LLVMValue.scalar s).at? (fun state => write state e s) := by
  subst hy
  refine ⟨[(e, s)], ⟨?_, ?_⟩, ?_⟩
  · intro path s' hs'
    cases path with
    | nil =>
      cases hs'
      exact ⟨e, mem_singleton.mpr rfl, he⟩
    | cons i path => cases hs'
  · intro e' s' hmem
    cases mem_singleton.mp hmem
    exact ⟨[], rfl, he⟩
  · intro state
    simp [writeAll]

def atMembers (views : List (List Nat → Option LLVMScalar)) : List Nat → Option LLVMScalar
  | [] => none
  | i :: path => do (← views[i]?) path

def shift : List Nat → List Nat
  | [] => []
  | i :: path => (i + 1) :: path

theorem at?_vector (elements : List LLVMScalar) :
    (LLVMValue.vector elements).at? = atMembers (elements.map fun s =>
      (LLVMValue.scalar s).at?) := by
  funext path
  cases path with
  | nil => rfl
  | cons i path =>
    cases hget : elements[i]? with
    | none => cases path <;> simp [LLVMValue.at?, atMembers, hget]
    | some s => cases path <;> simp [LLVMValue.at?, atMembers, hget]

theorem at?_aggregate (members : List LLVMValue) :
    (LLVMValue.aggregate members).at? = atMembers (members.map LLVMValue.at?) := by
  funext path
  cases path with
  | nil => rfl
  | cons i path =>
    cases hget : members[i]? with
    | none => simp [LLVMValue.at?, atMembers, hget]
    | some m => simp [LLVMValue.at?, atMembers, hget]

theorem writesAs_nil : WritesAs σ write x offsetOf (atMembers []) some := by
  refine ⟨[], ⟨?_, ?_⟩, fun _ => rfl⟩
  · intro path s hs
    cases path <;> cases hs
  · exact fun e s hmem => absurd hmem not_mem_nil

theorem WritesAs.cons {view : List Nat → Option LLVMScalar}
    {views : List (List Nat → Option LLVMScalar)} {run run' : α → Option α}
    (hfst : WritesAs σ write x (fun path => offsetOf (0 :: path)) view run)
    (hrest : WritesAs σ write x (fun path => offsetOf (shift path)) (atMembers views) run') :
    WritesAs σ write x offsetOf (atMembers (view :: views)) (fun state => run state >>= run') := by
  obtain ⟨placed, hplaced, hrun⟩ := hfst
  obtain ⟨placed', hplaced', hrun'⟩ := hrest
  refine ⟨placed ++ placed', ⟨?_, ?_⟩, ?_⟩
  · intro path s hs
    match path, hs with
    | 0 :: path, hs =>
      obtain ⟨e, he, hd⟩ := hplaced.complete path s hs
      exact ⟨e, mem_append_left _ he, hd⟩
    | (i + 1) :: path, hs =>
      obtain ⟨e, he, hd⟩ := hplaced'.complete (i :: path) s hs
      exact ⟨e, mem_append_right _ he, hd⟩
  · intro e s hmem
    rcases mem_append.mp hmem with hmem | hmem
    · obtain ⟨path, hs, hd⟩ := hplaced.sound e s hmem
      exact ⟨0 :: path, hs, hd⟩
    · obtain ⟨path, hs, hd⟩ := hplaced'.sound e s hmem
      cases path with
      | nil => cases hs
      | cons i path => exact ⟨(i + 1) :: path, hs, hd⟩
  · intro state
    obtain rfl : run = writeAll write placed := funext hrun
    obtain rfl : run' = writeAll write placed' := funext hrun'
    exact (foldlM_append ..).symm

theorem writesAs_zipIdx {items : List β} {view : β → List Nat → Option LLVMScalar}
    {step : α → β × Nat → Option α} (offsetOf : List Nat → Nat) (k : Nat)
    (h : ∀ b ∈ items, ∀ i, WritesAs σ write x (fun path => offsetOf ((k + i) :: path)) (view b)
      (fun state => step state (b, k + i))) :
    WritesAs σ write x (fun path => offsetOf (path.modifyHead (k + ·)))
      (atMembers (items.map view)) (fun state => (items.zipIdx k).foldlM step state) := by
  induction items generalizing k with
  | nil => exact writesAs_nil
  | cons b items ih =>
    simp only [zipIdx_cons, foldlM_cons, map_cons]
    refine WritesAs.cons (h b mem_cons_self 0) ?_
    have hrest := ih (k + 1) fun b' hb' i => by
      have hb := h b' (mem_cons_of_mem _ hb') (1 + i)
      rwa [← Nat.add_assoc] at hb
    refine hrest.of_eq fun path s hs => ?_
    cases path with
    | nil => cases hs
    | cons i path =>
      rw [shift, modifyHead_cons, modifyHead_cons, Nat.add_assoc, Nat.add_comm 1 i]

theorem atMembers_eq_some {views : List (List Nat → Option LLVMScalar)}
    (h : atMembers views path = some s) : ∃ i rest, path = i :: rest ∧ i < views.length := by
  cases path with
  | nil => cases h
  | cons i rest =>
    obtain ⟨view, hview, -⟩ := bind_eq_some_iff.mp h
    exact ⟨i, rest, rfl, (List.getElem?_eq_some_iff.mp hview).1⟩

def elementOffset (layout : TargetLayout) (element : LLVMType) : List Nat → Nat
  | [] => 0
  | i :: path => i * layout.getTypeAllocSize element + layout.memberOffset element path

theorem writesAs_elements {items : List β} {view : β → List Nat → Option LLVMScalar}
    (cache : OperationCache) (layout : TargetLayout) (element : LLVMType)
    (step : α → Operation → β → Option α) (hoff : Denotes σ offset x)
    (h : ∀ b ∈ items, ∀ index (y : BitVec w), Denotes σ index y →
      WritesAs σ write y (layout.memberOffset element) (view b) (fun state => step state index b)) :
    WritesAs σ write x (elementOffset layout element) (atMembers (items.map view))
      (fun state => items.zipIdx.foldlM (fun state p => do
        let index ← createBinaryLiteral cache .add offset
          (p.2 * layout.getTypeAllocSize element)
        step state index p.1) state) := by
  refine WritesAs.of_eq (writesAs_zipIdx (x := x) (elementOffset layout element) 0 fun b hb i => ?_)
    fun path s hs => ?_
  · rw [Nat.zero_add]
    obtain ⟨index, hidx, hd, -⟩ :=
      createIndex_returns cache hoff (i * layout.getTypeAllocSize element)
    simp only [hidx, some_bind]
    refine (h b hb index _ hd).of_eq fun path s _ => ?_
    rw [elementOffset, ofNat_add, BitVec.add_assoc]
  · obtain ⟨i, rest, rfl, -⟩ := atMembers_eq_some hs
    rw [modifyHead_cons, Nat.zero_add]

theorem memberOffset_element {element : LLVMType} {count : Nat}
    (htype : type = .array count element ∨ type = .vector count element) (hi : i < count) :
    layout.memberOffset type (i :: path) = elementOffset layout element (i :: path) := by
  have hch : type.child i = some element := by
    rcases htype with rfl | rfl <;> exact if_pos hi
  rw [TargetLayout.memberOffset, TargetLayout.pathOffset_cons path hch, elementOffset]
  rcases htype with rfl | rfl <;> rfl

theorem memberOffset_scalar : layout.memberOffset type [] = 0 := rfl

theorem writeMember_scalar (s : LLVMScalar) (cache : OperationCache) (htype : type.isScalar = true)
    (hoff : Denotes σ offset x) :
    WritesAs σ write x (layout.memberOffset type) (LLVMValue.scalar s).at?
      (writeMember cache layout write type offset (.scalar s)) := by
  obtain ⟨index, hidx, hd, -⟩ :=
    createIndex_returns cache hoff (0 * layout.getTypeAllocSize type)
  have helt : type.elementType = type := by
    cases type <;> first | rfl | cases htype
  have hrun : writeMember cache layout write type offset (.scalar s) =
      fun state => write state index s := by
    funext state
    calc writeMember cache layout write type offset (.scalar s) state
        = writeVector cache layout write type offset [s] state := by
          cases type <;> simp only [writeMember, LLVMValue.elements?]
      _ = write state index s := by
          cases type with
          | vector count element => cases htype
          | _ =>
            simp only [writeVector, helt, zipIdx_singleton, foldlM_cons, foldlM_nil, hidx,
              bind_eq_bind, bind_some, Option.pure_def, bind_fun_some]
  rw [hrun]
  refine writesAs_scalar hd ?_ s
  rw [Nat.zero_mul, memberOffset_scalar]

theorem writeMember_vector {count : Nat} {element : LLVMType} {elements : List LLVMScalar}
    (cache : OperationCache) (hlen : elements.length = count) (hoff : Denotes σ offset x) :
    WritesAs σ write x (layout.memberOffset (.vector count element))
      (LLVMValue.vector elements).at?
      (writeMember cache layout write (.vector count element) offset (.vector elements)) := by
  have hrun : writeMember cache layout write (.vector count element) offset (.vector elements) =
      fun state => elements.zipIdx.foldlM (fun state p => do
        let index ← createBinaryLiteral cache .add offset (p.2 * layout.getTypeAllocSize element)
        write state index p.1) state := by
    funext state
    simp only [writeMember, LLVMValue.elements?, writeVector, hlen, guard, if_true,
      LLVMType.elementType, bind_eq_bind, Option.pure_def, bind_some]
  rw [hrun, at?_vector]
  refine (writesAs_elements cache layout element write hoff fun s _ index y hd => ?_).of_eq
    fun path s hs => ?_
  · refine writesAs_scalar hd ?_ s
    rw [memberOffset_scalar, BitVec.add_zero]
  · obtain ⟨i, rest, rfl, hi⟩ := atMembers_eq_some hs
    rw [length_map, hlen] at hi
    rw [memberOffset_element (.inr rfl) hi]

theorem memberOffset_struct_zero :
    layout.memberOffset (.struct (type :: types)) (0 :: path) = layout.memberOffset type path := by
  rw [TargetLayout.memberOffset, TargetLayout.pathOffset_cons (t := type) path rfl]
  exact Nat.zero_add _

theorem memberOffset_struct_succ : layout.memberOffset (.struct (type :: types)) ((i + 1) :: path) =
      layout.getTypeAllocSize type + layout.memberOffset (.struct types) (i :: path) := by
  have hstep : layout.stepOffset layout.runningOffset (.struct (type :: types)) (i + 1) =
      layout.getTypeAllocSize type + layout.stepOffset layout.runningOffset (.struct types) i := rfl
  have hch : (LLVMType.struct (type :: types)).child (i + 1) =
      (LLVMType.struct types).child i := rfl
  rw [TargetLayout.memberOffset, TargetLayout.pathOffset, TargetLayout.pathOffset, hch,
    hstep, Nat.add_assoc]

theorem memberOffset_packedStruct :
    layout.memberOffset (.packedStruct types) path = layout.memberOffset (.struct types) path := by
  cases path <;> rfl

theorem writeMembers_writesAs {members : List LLVMValue} (cache : OperationCache)
    (hoff : Denotes σ offset x) (elemOffset : Nat) (hlen : members.length = types.length)
    (h : ∀ p ∈ types.zip members, ∀ index (y : BitVec w), Denotes σ index y →
      WritesAs σ write y (layout.memberOffset p.1) p.2.at?
        (writeMember cache layout write p.1 index p.2)) :
    WritesAs σ write x (fun path => elemOffset + layout.memberOffset (.struct types) path)
      (atMembers (members.map LLVMValue.at?))
      (writeMembers cache layout write types offset elemOffset members) := by
  induction types generalizing members elemOffset with
  | nil =>
    cases length_eq_zero_iff.mp hlen
    simp only [writeMembers]
    exact writesAs_nil
  | cons type types ih =>
    cases members with
    | nil => cases hlen
    | cons member members =>
      obtain ⟨index, hidx, hd, -⟩ := createIndex_returns cache hoff elemOffset
      obtain ⟨hfst, hrest⟩ := forall_mem_cons.mp h
      simp only [writeMembers, hidx, some_bind]
      refine WritesAs.cons ((hfst index _ hd).of_eq fun path s _ => ?_) ?_
      · rw [memberOffset_struct_zero, ofNat_add, BitVec.add_assoc]
      · refine (ih _ (Nat.succ.inj hlen) hrest).of_eq fun path s hs => ?_
        obtain ⟨i, rest, rfl, -⟩ := atMembers_eq_some hs
        rw [shift, memberOffset_struct_succ, Nat.add_assoc]

theorem writeMember_writesAs (cache : OperationCache) (type : LLVMType) {value : LLVMValue}
    (hval : LLVMValue.OfType type value) (hoff : Denotes σ offset x) :
    WritesAs σ write x (layout.memberOffset type) value.at?
      (writeMember cache layout write type offset value) := by
  induction type using LLVMType.induct generalizing offset x value with
  | int bits | pointer heap | float exponent mantissa =>
    cases hval with
    | scalar h => exact writeMember_scalar _ cache h hoff
  | vector count element ih =>
    cases hval with
    | scalar h => cases h
    | vector hlen => exact writeMember_vector cache hlen hoff
  | array count element ih =>
    cases hval with
    | scalar h => cases h
    | @array _ _ members hlen hmems =>
      have hrun : writeMember cache layout write (.array count element) offset
          (.aggregate members) = fun state => members.zipIdx.foldlM (fun state p => do
            let index ← createBinaryLiteral cache .add offset
              (p.2 * layout.getTypeAllocSize element)
            writeMember cache layout write element index p.1 state) state := by
        funext state
        simp only [writeMember, LLVMValue.elements?, LLVMValue.members, hlen, guard, if_true,
          bind_eq_bind, Option.pure_def, bind_some]
      rw [hrun, at?_aggregate]
      refine (writesAs_elements cache layout element
        (fun state index m => writeMember cache layout write element index m state) hoff
        fun m hm index y hd => ?_).of_eq fun path s hs => ?_
      · exact ih (hmems m hm) hd
      · obtain ⟨i, rest, rfl, hi⟩ := atMembers_eq_some hs
        rw [length_map, hlen] at hi
        rw [memberOffset_element (.inl rfl) hi]
  | struct types ih =>
    cases hval with
    | scalar h => cases h
    | @struct _ members hlen hmems =>
      have hrun : writeMember cache layout write (.struct types) offset (.aggregate members) =
          writeMembers cache layout write types offset 0 members := by
        funext state
        simp only [writeMember, LLVMValue.elements?, LLVMValue.members, hlen, guard, if_true,
          bind_eq_bind, Option.pure_def, bind_some]
      rw [hrun, at?_aggregate]
      refine (writeMembers_writesAs cache hoff 0 hlen fun p hp index y hd => ?_).of_eq
        fun path s _ => ?_
      · exact ih p.1 (of_mem_zip hp).1 (hmems p hp) hd
      · rw [Nat.zero_add]
  | packedStruct types ih =>
    cases hval with
    | scalar h => cases h
    | @packedStruct _ members hlen hmems =>
      have hrun : writeMember cache layout write (.packedStruct types) offset
          (.aggregate members) = writeMembers cache layout write types offset 0 members := by
        funext state
        simp only [writeMember, LLVMValue.elements?, LLVMValue.members, hlen, guard, if_true,
          bind_eq_bind, Option.pure_def, bind_some]
      rw [hrun, at?_aggregate]
      refine (writeMembers_writesAs cache hoff 0 hlen fun p hp index y hd => ?_).of_eq
        fun path s _ => ?_
      · exact ih p.1 (of_mem_zip hp).1 (hmems p hp) hd
      · rw [Nat.zero_add, memberOffset_packedStruct]

end Write

section Read

variable {σ : Assignment} {layout : TargetLayout} {w : Nat}
  {read : Operation → Ty → Option Operation}

def Readable (σ : Assignment) (layout : TargetLayout) (read : Operation → Ty → Option Operation)
    (x : BitVec w) (offsetOf : List Nat → Nat) (type : LLVMType) : Prop :=
  ∀ path t, type.follow path = some t → t.isScalar = true →
    ∀ e, Denotes σ e (x + BitVec.ofNat w (offsetOf path)) →
      ∃ o, read e (layout.scalarTy t) = some o

def ReadsAs (σ : Assignment) (layout : TargetLayout) (read : Operation → Ty → Option Operation)
    (x : BitVec w) (offsetOf : List Nat → Nat) (type : LLVMType) (value : LLVMValue) : Prop :=
  ∀ path t, type.follow path = some t → t.isScalar = true →
    ∃ e s, Denotes σ e (x + BitVec.ofNat w (offsetOf path)) ∧
      read e (layout.scalarTy t) = some s.operation ∧ value.at? path = some s

variable {x : BitVec w} {type : LLVMType}

theorem add_memberOffset (path : List Nat) (hch : type.child i = some t) :
    x + BitVec.ofNat w (layout.stepOffset layout.runningOffset type i) +
        BitVec.ofNat w (layout.memberOffset t path) =
      x + BitVec.ofNat w (layout.memberOffset type (i :: path)) := by
  rw [BitVec.add_assoc, ← ofNat_add, TargetLayout.memberOffset,
    TargetLayout.pathOffset_cons path hch]

theorem Readable.child (h : Readable σ layout read x (layout.memberOffset type) type)
    (hch : type.child i = some t) :
    Readable σ layout read (x + BitVec.ofNat w (layout.stepOffset layout.runningOffset type i))
      (layout.memberOffset t) t := by
  intro path t' hpath hsc e he
  rw [add_memberOffset path hch] at he
  refine h (i :: path) t' ?_ hsc e he
  rw [LLVMType.follow, hch]
  exact hpath

theorem readsAs_aggregate {members : List LLVMValue} (htype : type.isScalar = false)
    (h : ∀ i t, type.child i = some t → ∃ v, members[i]? = some v ∧ ReadsAs σ layout read
      (x + BitVec.ofNat w (layout.stepOffset layout.runningOffset type i)) (layout.memberOffset t)
      t v) : ReadsAs σ layout read x (layout.memberOffset type) type (.aggregate members) := by
  intro path t hpath hsc
  cases path with
  | nil =>
    cases hpath
    rw [htype] at hsc
    cases hsc
  | cons i path =>
    obtain ⟨t', hch, hrest⟩ := LLVMType.follow_cons hpath
    obtain ⟨v, hv, hreads⟩ := h i t' hch
    obtain ⟨e, s, he, hread, hs⟩ := hreads path t hrest hsc
    rw [add_memberOffset path hch] at he
    refine ⟨e, s, he, hread, ?_⟩
    rw [LLVMValue.at?, hv]
    exact hs

variable (cache : OperationCache)

theorem readMember_scalar (htype : type.isScalar = true) (hoff : Denotes σ offset x)
    (h : Readable σ layout read x (layout.memberOffset type) type) :
    ∃ s, readMember cache layout read type offset = some (.scalar s) ∧
      read offset (layout.scalarTy type) = some s.operation := by
  obtain ⟨o, ho⟩ := h [] type rfl htype offset (by rwa [memberOffset_scalar, BitVec.add_zero])
  cases type with
  | int bits | float exponent mantissa =>
    refine ⟨.expr o, ?_, ho⟩
    rw [TargetLayout.scalarTy] at ho
    simp only [readMember, ho, some_bind]
  | pointer heap =>
    refine ⟨.pointer ⟨none, o, heap⟩, ?_, ho⟩
    simp only [TargetLayout.scalarTy] at ho
    simp only [readMember, ho, some_bind]
  | _ => cases htype

theorem readsAs_scalar (htype : type.isScalar = true) (hoff : Denotes σ offset x)
    (h : read offset (layout.scalarTy type) = some s.operation) :
    ReadsAs σ layout read x (layout.memberOffset type) type (.scalar s) := by
  intro path t hpath _
  obtain ⟨rfl, rfl⟩ := LLVMType.follow_scalar htype hpath
  exact ⟨offset, s, by rwa [memberOffset_scalar, BitVec.add_zero], h, rfl⟩

theorem readMembers_readsAs (hoff : Denotes σ offset x) (elemOffset : Nat)
    (h : ∀ i t, types[i]? = some t → ∀ index, Denotes σ index (x + BitVec.ofNat w (elemOffset +
        layout.runningOffset (.struct types) i)) →
      ∃ value, readMember cache layout read t index = some value ∧ ReadsAs σ layout read
        (x + BitVec.ofNat w (elemOffset + layout.runningOffset (.struct types) i))
        (layout.memberOffset t) t value) :
    ∃ members, readMembers cache layout read types offset elemOffset = some members ∧
      ∀ i t, types[i]? = some t → ∃ v, members[i]? = some v ∧ ReadsAs σ layout read
        (x + BitVec.ofNat w (elemOffset + layout.runningOffset (.struct types) i))
        (layout.memberOffset t) t v := by
  induction types generalizing elemOffset with
  | nil => exact ⟨[], by simp only [readMembers], fun i t ht => by cases ht⟩
  | cons type types ih =>
    have hsh : ∀ i, elemOffset + layout.runningOffset (.struct (type :: types)) (i + 1) =
        elemOffset + layout.getTypeAllocSize type + layout.runningOffset (.struct types) i :=
      fun i => (Nat.add_assoc ..).symm
    obtain ⟨index, hidx, hd, -⟩ := createIndex_returns cache hoff elemOffset
    obtain ⟨value, hval, hreads⟩ := h 0 type rfl index hd
    obtain ⟨members, hmems, hall⟩ := ih (elemOffset + layout.getTypeAllocSize type)
      fun i t ht => hsh i ▸ h (i + 1) t ht
    refine ⟨value :: members, ?_, ?_⟩
    · simp only [readMembers, hidx, hval, hmems, some_bind]
    · intro i t ht
      cases i with
      | zero =>
        cases ht
        exact ⟨value, rfl, hreads⟩
      | succ i => exact hsh i ▸ hall i t ht

theorem mapM_elements {size : Nat} (hoff : Denotes σ offset x)
    (count : Nat) (f : Operation → Option β) (R : BitVec w → β → Prop)
    (h : ∀ i < count, ∀ index, Denotes σ index (x + BitVec.ofNat w (i * size)) →
      ∃ b, f index = some b ∧ R (x + BitVec.ofNat w (i * size)) b) :
    ∃ r, ((List.range count).mapM fun i => do
        let index ← createBinaryLiteral cache .add offset (i * size)
        f index) = some r ∧
      ∀ i < count, ∃ b, r[i]? = some b ∧ R (x + BitVec.ofNat w (i * size)) b := by
  obtain ⟨r, hr, hall⟩ := mapM_exists (l := List.range count)
    (f := fun i => createBinaryLiteral cache .add offset (i * size) >>= f)
    (R := fun i b => R (x + BitVec.ofNat w (i * size)) b) fun i hi => by
      obtain ⟨index, hidx, hd, -⟩ := createIndex_returns cache hoff (i * size)
      obtain ⟨b, hb, hR⟩ := h i (mem_range.mp hi) index hd
      exact ⟨b, by rw [hidx]; exact hb, hR⟩
  refine ⟨r, hr, fun i hi => ?_⟩
  obtain ⟨hlen, hget⟩ := forall₂_iff_get.mp hall
  rw [length_range] at hlen
  have hR := hget i (by rwa [length_range]) (hlen ▸ hi)
  rw [get_eq_getElem, getElem_range] at hR
  exact ⟨_, List.getElem?_eq_getElem (hlen ▸ hi), hR⟩

theorem readMember_readsAs (type : LLVMType) (hwf : type.WellFormed) (hoff : Denotes σ offset x)
    (h : Readable σ layout read x (layout.memberOffset type) type) :
    ∃ value, readMember cache layout read type offset = some value ∧
      ReadsAs σ layout read x (layout.memberOffset type) type value := by
  induction type using LLVMType.induct generalizing offset x with
  | int bits | pointer heap | float exponent mantissa =>
    obtain ⟨s, hs, hread⟩ := readMember_scalar cache rfl hoff h
    exact ⟨.scalar s, hs, readsAs_scalar rfl hoff hread⟩
  | array count element ih =>
    have hch : ∀ {i}, i < count → (LLVMType.array count element).child i = some element :=
      fun hi => if_pos hi
    obtain ⟨members, hmems, hall⟩ := mapM_elements cache hoff count
      (readMember cache layout read element)
      (fun y v => ReadsAs σ layout read y (layout.memberOffset element) element v)
      fun i hi index hd => ih (hwf.child (hch hi)) hd (h.child (hch hi))
    refine ⟨.aggregate members, ?_, readsAs_aggregate rfl fun i t ht => ?_⟩
    · rw [readMember, hmems]
      rfl
    · obtain ⟨hi, heq⟩ := ite_none_right_eq_some.mp ht
      cases heq
      exact hall i hi
  | vector count element ih =>
    have hch : ∀ {i}, i < count → (LLVMType.vector count element).child i = some element :=
      fun hi => if_pos hi
    have hsc : element.isScalar = true := hwf [] count element rfl
    obtain ⟨elements, helts, hall⟩ := mapM_elements cache hoff count
      (fun index => do (← readMember cache layout read element index).scalar?)
      (fun y s => ∃ e, Denotes σ e y ∧ read e (layout.scalarTy element) = some s.operation)
      fun i hi index hd => by
        obtain ⟨s, hs, hread⟩ := readMember_scalar cache hsc hd (h.child (hch hi))
        exact ⟨s, by rw [hs]; rfl, index, hd, hread⟩
    refine ⟨.vector elements, ?_, ?_⟩
    · rw [readMember, helts]
      rfl
    · intro path t hpath ht
      cases path with
      | nil =>
        cases hpath
        cases ht
      | cons i path =>
        obtain ⟨t', hch', hrest⟩ := LLVMType.follow_cons hpath
        obtain ⟨hi, heq⟩ := ite_none_right_eq_some.mp hch'
        cases heq
        obtain ⟨rfl, rfl⟩ := LLVMType.follow_scalar hsc hrest
        obtain ⟨s, hs, e, hd, hread⟩ := hall i hi
        refine ⟨e, s, ?_, hread, hs⟩
        rwa [← add_memberOffset [] hch', memberOffset_scalar, BitVec.add_zero]
  | struct types ih | packedStruct types ih =>
    obtain ⟨members, hmems, hall⟩ := readMembers_readsAs cache hoff 0
      fun i t ht index hd => by
        rw [Nat.zero_add] at hd ⊢
        exact ih t (mem_of_getElem? ht) (hwf.child ht) hd (h.child ht)
    refine ⟨.aggregate members, ?_, readsAs_aggregate rfl fun i t ht => ?_⟩
    · simp only [readMember, hmems, some_bind]
    · have hreads := hall i t ht
      rwa [Nat.zero_add] at hreads

end Read

/-! ### Agreement with `getelementptr` -/

section Layout

variable {layout : TargetLayout} {type : LLVMType}

/-- An expression has the value of the offset that `getelementptr` computes for a member. -/
def PointsTo (cache : OperationCache) (σ : Assignment) (layout : TargetLayout) (ptr : Pointer)
    (type : LLVMType) (path : List Nat) (e : Operation) : Prop :=
  ∃ offset, ∃ y : BitVec layout.pointerSizeInBits,
    ExprEvaluator.visitGetElementPtr cache layout ptr type path =
      some { ptr with offset := offset } ∧ Denotes σ offset y ∧ Denotes σ e y

theorem OperationSimplifier.Denotes.inj {σ : Assignment} {w : Nat} {o : Operation} {x y : BitVec w}
    (hx : Denotes σ o x) (hy : Denotes σ o y) : x = y := by
  have heq := hx.value.symm.trans hy.value
  simpa using heq

/-- The members of a value are integers of a byte or more, apart from each other within `size`
bytes. -/
structure Apart {w : Nat} (σ : Assignment) (size : Nat) (start : List Nat → BitVec w)
    (value : List Nat → Option LLVMScalar) (bits : List Nat → APInt) : Prop where
  member : ∀ {path s}, value path = some s → 8 ≤ (bits path).width ∧
    (start path).toNat + divceil (bits path).width 8 ≤ min size (2 ^ w) ∧
    ∃ o, s = .expr o ∧ Denotes σ o (bits path).val
  apart : ∀ {path s path' s'}, value path = some s → value path' = some s' → path ≠ path' →
    (start path).toNat + divceil (bits path).width 8 ≤ (start path').toNat ∨
      (start path').toNat + divceil (bits path').width 8 ≤ (start path).toNat

theorem Apart.written {w size : Nat} {σ : Assignment} {start : List Nat → BitVec w}
    {value : List Nat → Option LLVMScalar} {bits : List Nat → APInt} {alloc : Allocation}
    {f : BitVec w → BitVec 8} (cache : OperationCache) (layout : TargetLayout)
    (ptrValue : Pointer → Option Operation) (h : Apart σ size start value bits)
    {placed : List (Operation × LLVMScalar)}
    (hplaced : ∀ e s, (e, s) ∈ placed → ∃ path, value path = some s ∧ Denotes σ e (start path))
    (hwrite : alloc.permissions.write = true) (hcont : Contents σ alloc.data size f) :
    ∃ alloc' g, writeAll (Allocation.writeScalar cache layout ptrValue) placed alloc =
        some alloc' ∧
      alloc'.permissions = alloc.permissions ∧ Contents σ alloc'.data size g ∧
      ∀ path s e, value path = some s → (e, s) ∈ placed → Denotes σ e (start path) →
        ∀ i < divceil (bits path).width 8,
          g (start path + BitVec.ofNat w i) = byte (bits path).val i := by
  induction placed using reverseRecOn with
  | nil => exact ⟨alloc, f, rfl, rfl, hcont, fun _ _ _ _ h => nomatch h⟩
  | append_singleton placed p ih =>
    obtain ⟨next, g, hrun, hperm, hcont', hall⟩ := ih fun e s hmem =>
      hplaced e s (mem_append_left _ hmem)
    obtain ⟨path₀, hs₀, hd₀⟩ := hplaced p.1 p.2 (by simp)
    obtain ⟨hwide, hinside, o, ho, hv⟩ := h.member hs₀
    obtain ⟨hin, hwrap⟩ := le_min_iff.mp hinside
    obtain ⟨alloc', hlast, hwritten⟩ := Allocation.write_written cache layout.getPointerSize
      (hperm ▸ hwrite) hcont' hd₀ hv (fun hr => absurd hr.1 (by omega)) hin hwrap
    refine ⟨alloc', _, ?_, hwritten.permissions.trans hperm, hwritten.contents,
      fun path s e hs hmem he i hi => ?_⟩
    · rw [writeAll, foldlM_append]
      refine bind_eq_some_iff.mpr ⟨next, hrun, foldlM_cons_eq_some.mpr ⟨alloc', ?_, rfl⟩⟩
      rwa [ho]
    by_cases hne : path = path₀
    · subst hne
      exact splice_at hi hwrap
    have hapart := h.apart hs hs₀ hne
    obtain ⟨hwide', hinside', -⟩ := h.member hs
    rcases mem_append.mp hmem with hmem | hmem
    · rw [splice_outside ?_ hwrap, hall path s e hs hmem he i hi]
      rw [toNat_add_ofNat (by omega)]
      omega
    · -- a member of another path does not start there
      cases mem_singleton.mp hmem
      rw [he.inj hd₀, divceil, divceil] at hapart
      omega

/-- `Allocation::write` puts the scalars of every value of the type where `getelementptr` points to
and nowhere else, and `read` reads them from there; in an allocation, a load of a member returns
what a store of the whole value has put there. -/
structure UsesTargetLayout (layout : TargetLayout) (type : LLVMType) : Prop where
  write : ∀ (cache : OperationCache) (σ : Assignment) (ptr : Pointer)
    (x : BitVec layout.pointerSizeInBits) (value : LLVMValue) (α : Type)
    (write : α → Operation → LLVMScalar → Option α),
    Denotes σ ptr.offset x → LLVMValue.OfType type value →
    ∃ placed, (∀ state, writeMember cache layout write type ptr.offset value state =
        writeAll write placed state) ∧
      (∀ path s, value.at? path = some s →
        ∃ e, (e, s) ∈ placed ∧ PointsTo cache σ layout ptr type path e) ∧
      ∀ e s, (e, s) ∈ placed →
        ∃ path, value.at? path = some s ∧ PointsTo cache σ layout ptr type path e
  read : ∀ (cache : OperationCache) (σ : Assignment) (ptr : Pointer)
    (x : BitVec layout.pointerSizeInBits) (read : Operation → Ty → Option Operation),
    Denotes σ ptr.offset x →
    (∀ path t, type.follow path = some t → t.isScalar = true →
      ∀ e, PointsTo cache σ layout ptr type path e → ∃ o, read e (layout.scalarTy t) = some o) →
    ∃ value, readMember cache layout read type ptr.offset = some value ∧
      ∀ path t, type.follow path = some t → t.isScalar = true →
        ∃ e s, PointsTo cache σ layout ptr type path e ∧
          read e (layout.scalarTy t) = some s.operation ∧ value.at? path = some s
  load : ∀ (cache : OperationCache) (σ : Assignment) (ptrValue : Pointer → Option Operation)
    (ptr : Pointer) (x : BitVec layout.pointerSizeInBits) (value : LLVMValue)
    (bits : List Nat → APInt) (size : Nat) (alloc : Allocation)
    (f : BitVec layout.pointerSizeInBits → BitVec 8), Denotes σ ptr.offset x →
    LLVMValue.OfType type value → alloc.permissions.read = true →
    alloc.permissions.write = true → Contents σ alloc.data size f →
    Apart σ size (fun path => x + BitVec.ofNat _ (layout.gepOffset type path)) value.at? bits →
    ∃ alloc', alloc.writeValue cache layout ptrValue ptr.offset type value = some alloc' ∧
      ∀ path s e, value.at? path = some s → PointsTo cache σ layout ptr type path e →
        Plain alloc'.data e →
        Returns σ (alloc'.read cache e (.int (bits path).width) layout.getPointerSize)
          (bits path).val

variable {cache : OperationCache} {σ : Assignment} {ptr : Pointer} {e : Operation}
  {value : LLVMValue} {x : BitVec layout.pointerSizeInBits}

theorem pointsTo_iff (hpath : type.follow path = some t) (hptr : Denotes σ ptr.offset x) :
    PointsTo cache σ layout ptr type path e ↔
      Denotes σ e (x + BitVec.ofNat _ (layout.gepOffset type path)) := by
  obtain ⟨offset, hgep, hd⟩ := ExprEvaluator.visitGetElementPtr_returns cache hpath hptr
  constructor
  · rintro ⟨offset', y, hgep', hd', he⟩
    rw [hgep] at hgep'
    cases hgep'
    rwa [hd.inj hd']
  · exact fun he => ⟨offset, _, hgep, hd, he⟩

theorem LLVMValue.OfType.follow (h : LLVMValue.OfType type value)
    (hwf : type.WellFormed) (hs : value.at? path = some s) :
    ∃ t, type.follow path = some t ∧ t.isScalar = true := by
  induction path generalizing type value with
  | nil =>
    cases h with
    | scalar hsc => exact ⟨type, rfl, hsc⟩
    | _ => cases hs
  | cons i path ih =>
    have hstep : ∀ {t m}, type.child i = some t → LLVMValue.OfType t m → m.at? path = some s →
        ∃ t', type.follow (i :: path) = some t' ∧ t'.isScalar = true := by
      intro t m hch hm hs
      obtain ⟨t', ht', hsc⟩ := ih hm (hwf.child hch) hs
      refine ⟨t', ?_, hsc⟩
      rw [LLVMType.follow, hch]
      exact ht'
    have hfield : ∀ {types : List LLVMType} {members : List LLVMValue} {m : LLVMValue},
        members.length = types.length → members[i]? = some m →
        ∃ t, types[i]? = some t ∧ (t, m) ∈ types.zip members := by
      intro types members m hlen hm
      obtain ⟨hi, -⟩ := List.getElem?_eq_some_iff.mp hm
      have ht : types[i]? = some (types[i]) := List.getElem?_eq_getElem _
      exact ⟨_, ht, mem_of_getElem? (List.getElem?_zip_eq_some.mpr ⟨ht, hm⟩)⟩
    cases h with
    | scalar hsc => cases hs
    | @vector count element elements hlen =>
      cases path with
      | nil =>
        have hi : i < count := hlen ▸ (List.getElem?_eq_some_iff.mp hs).1
        refine ⟨element, ?_, hwf [] count element rfl⟩
        rw [LLVMType.follow, LLVMType.child, if_pos hi]
        rfl
      | cons j path => cases hs
    | @array count element members hlen hmems =>
      obtain ⟨m, hm, hs⟩ := bind_eq_some_iff.mp hs
      have hi : i < count := hlen ▸ (List.getElem?_eq_some_iff.mp hm).1
      exact hstep (if_pos hi) (hmems m (mem_of_getElem? hm)) hs
    | struct hlen hmems | packedStruct hlen hmems =>
      obtain ⟨m, hm, hs⟩ := bind_eq_some_iff.mp hs
      obtain ⟨t, ht, hmem⟩ := hfield hlen hm
      exact hstep ht (hmems _ hmem) hs

theorem LLVMValue.OfType.pointsTo_iff (h : LLVMValue.OfType type value) (hwf : type.WellFormed)
    (hs : value.at? path = some s) (hptr : Denotes σ ptr.offset x) :
    PointsTo cache σ layout ptr type path e ↔
      Denotes σ e (x + BitVec.ofNat _ (layout.gepOffset type path)) := by
  obtain ⟨t, hpath, -⟩ := h.follow hwf hs
  exact Caffeine.pointsTo_iff hpath hptr

theorem usesTargetLayout_of_unpadded (hordered : layout.Ordered) (hwf : type.WellFormed)
    (h : ∀ path t, type.follow path = some t → t.isScalar = true → layout.Unpadded type path) :
    UsesTargetLayout layout type := by
  have hsame : ∀ {path t}, type.follow path = some t → t.isScalar = true →
      layout.memberOffset type path = layout.gepOffset type path :=
    fun hpath hsc => (TargetLayout.memberOffset_compare hordered hpath).2.mpr
      (h _ _ hpath hsc)
  have hwrites : ∀ {σ} {ptr : Pointer} {value α} {write : α → Operation → LLVMScalar → Option α}
      {x : BitVec layout.pointerSizeInBits} (cache : OperationCache), Denotes σ ptr.offset x →
      LLVMValue.OfType type value → WritesAs σ write x (layout.gepOffset type) value.at?
        (writeMember cache layout write type ptr.offset value) :=
    fun cache hptr hval => (writeMember_writesAs cache type hval hptr).of_eq fun path s hs => by
      obtain ⟨t, hpath, hsc⟩ := hval.follow hwf hs
      rw [hsame hpath hsc]
  constructor
  · intro cache σ ptr x value α write hptr hval
    obtain ⟨placed, hplaced, hrun⟩ := hwrites cache hptr hval
    refine ⟨placed, hrun, fun path s hs => ?_, fun e s hmem => ?_⟩
    · obtain ⟨e, he, hd⟩ := hplaced.complete path s hs
      exact ⟨e, he, (hval.pointsTo_iff hwf hs hptr).mpr hd⟩
    · obtain ⟨path, hs, hd⟩ := hplaced.sound e s hmem
      exact ⟨path, hs, (hval.pointsTo_iff hwf hs hptr).mpr hd⟩
  · intro cache σ ptr x read hptr hreadable
    have hpoints : ∀ {path t e}, type.follow path = some t → t.isScalar = true →
        (Denotes σ e (x + BitVec.ofNat _ (layout.memberOffset type path)) ↔
          PointsTo cache σ layout ptr type path e) := by
      intro path t e hpath hsc
      rw [hsame hpath hsc, pointsTo_iff hpath hptr]
    obtain ⟨value, hval, hreads⟩ := readMember_readsAs cache type hwf hptr
      fun path t hpath hsc e he => hreadable path t hpath hsc e
        ((hpoints hpath hsc).mp he)
    refine ⟨value, hval, fun path t hpath hsc => ?_⟩
    obtain ⟨e, s, he, hread, hs⟩ := hreads path t hpath hsc
    exact ⟨e, s, (hpoints hpath hsc).mp he, hread, hs⟩
  · intro cache σ ptrValue ptr x value bits size alloc f hptr hval hread hwrite hcont hapart
    obtain ⟨placed, hplaced, hrun⟩ := hwrites cache hptr hval
    obtain ⟨alloc', g, hall, hperm, hcont', hg⟩ :=
      hapart.written cache layout ptrValue hplaced.sound hwrite hcont
    refine ⟨alloc', ?_, fun path s e hs he hplain => ?_⟩
    · rw [Allocation.writeValue, hwrite]
      exact (hrun alloc).trans hall
    · obtain ⟨hwide, hinside, -⟩ := hapart.member hs
      obtain ⟨hin, hwrap⟩ := le_min_iff.mp hinside
      obtain ⟨e', hmem, hd⟩ := hplaced.complete path s hs
      exact Allocation.read_returns cache _ (by omega) (hperm ▸ hread) hcont' hplain
        ((hval.pointsTo_iff hwf hs hptr).mp he) hin hwrap (hg path s e' hs hmem hd) (by omega)

end Layout

/-! ### A target with padding -/

namespace NaturalLayout

def alignTo (n alignment : Nat) : Nat := n + (alignment - n % alignment) % alignment

def scalarSize (bits : Nat) : Nat :=
  if bits ≤ 8 then 1 else if bits ≤ 16 then 2 else if bits ≤ 32 then 4 else 8 * divceil bits 64

mutual

/-- The size of a type and its alignment, at most eight bytes. -/
def sizeAndAlignment : LLVMType → Nat × Nat
  | .int bits => (scalarSize bits, min 8 (scalarSize bits))
  | .float exponent mantissa =>
    (scalarSize (exponent + mantissa), min 8 (scalarSize (exponent + mantissa)))
  | .pointer _ => (8, 8)
  | .array count element => (count * (sizeAndAlignment element).1, (sizeAndAlignment element).2)
  | .vector count element => (count * (sizeAndAlignment element).1, (sizeAndAlignment element).2)
  | .struct types =>
    let alignment := ((sizesAndAlignments types).map Prod.snd).foldl max 1
    (alignTo ((sizesAndAlignments types).foldl (fun n p => alignTo n p.2 + p.1) 0) alignment,
      alignment)
  | .packedStruct types => (((sizesAndAlignments types).map Prod.fst).sum, 1)

def sizesAndAlignments : List LLVMType → List (Nat × Nat)
  | [] => []
  | type :: types => sizeAndAlignment type :: sizesAndAlignments types

end

def offsetFrom : Nat → List (Nat × Nat) → Nat → Nat
  | start, [], _ => start
  | start, p :: _, 0 => alignTo start p.2
  | start, p :: members, i + 1 => offsetFrom (alignTo start p.2 + p.1) members i

def members : LLVMType → List (Nat × Nat)
  | .struct types => types.map sizeAndAlignment
  | .packedStruct types => types.map fun type => ((sizeAndAlignment type).1, 1)
  | _ => []

def layout : TargetLayout where
  storeSize type := (sizeAndAlignment type).1
  pointerSizeInBits := 64
  getTypeAllocSize type := (sizeAndAlignment type).1
  getElementOffset type i := offsetFrom 0 (members type) i

theorem offsetFrom_succ {placed : List (Nat × Nat)} {start : Nat} {p : Nat × Nat}
    (hp : placed[i]? = some p) (hi : i + 1 < placed.length) :
    offsetFrom start placed i + p.1 ≤ offsetFrom start placed (i + 1) := by
  induction placed generalizing start i with
  | nil => cases hp
  | cons q placed ih =>
    cases i with
    | zero =>
      cases hp
      cases placed with
      | nil => cases Nat.lt_irrefl _ hi
      | cons r placed => exact Nat.le_add_right _ _
    | succ i => exact ih hp (Nat.lt_of_succ_lt_succ hi)

theorem members_getElem? {type : LLVMType} (h : type.fields[i]? = some t) :
    ∃ alignment, (members type)[i]? = some (layout.getTypeAllocSize t, alignment) := by
  cases type with
  | struct types =>
    refine ⟨(sizeAndAlignment t).2, ?_⟩
    rw [members, List.getElem?_map, show types[i]? = some t from h]
    rfl
  | packedStruct types =>
    refine ⟨1, ?_⟩
    rw [members, List.getElem?_map, show types[i]? = some t from h]
    rfl
  | _ => cases h

theorem length_members (type : LLVMType) : (members type).length = type.fields.length := by
  cases type <;> simp [members, LLVMType.fields]

theorem layout_ordered : layout.Ordered := by
  intro type i t ht hi
  obtain ⟨alignment, hp⟩ := members_getElem? ht
  have hstep : offsetFrom 0 (members type) i + (layout.getTypeAllocSize t, alignment).1 ≤ _ :=
    offsetFrom_succ hp (by rwa [length_members])
  exact hstep

def byteAndWord : LLVMType := .struct [.int 8, .int 32]

def byteAndWordValue : LLVMValue :=
  .aggregate [.scalar (.expr (constantInt ⟨8, 1⟩)), .scalar (.expr (constantInt ⟨32, 2⟩))]

def eightBytes : Allocation where
  address := constantInt ⟨64, 4096⟩
  size := constantInt ⟨64, 8⟩
  data := .mk (.fixedArray 64) (List.replicate 8 (constantInt ⟨8, 0⟩))
  kind := .malloc
  permissions := ⟨true, true, false⟩
  typed := ⟨64, rfl, rfl⟩

def twoWords : LLVMType := .struct [.int 32, .int 32]

theorem follow_twoWords (h : twoWords.follow path = some t) :
    path = [] ∧ t = twoWords ∨ path = [0] ∧ t = .int 32 ∨ path = [1] ∧ t = .int 32 := by
  match path, h with
  | [], h =>
    cases h
    exact .inl ⟨rfl, rfl⟩
  | 0 :: path, (h : (LLVMType.int 32).follow path = some t) =>
    obtain ⟨rfl, rfl⟩ := LLVMType.follow_scalar rfl h
    exact .inr (.inl ⟨rfl, rfl⟩)
  | 1 :: path, (h : (LLVMType.int 32).follow path = some t) =>
    obtain ⟨rfl, rfl⟩ := LLVMType.follow_scalar rfl h
    exact .inr (.inr ⟨rfl, rfl⟩)
  | (i + 2) :: path, h => cases h

end NaturalLayout

end Caffeine
