import Mathlib.Algebra.GroupWithZero.Nat
import Mathlib.Data.List.Forall2
import Mathlib.Order.Bounds.Basic
import TinLang.Proofs.Layout

/-!
# Packed members

What the layout of a struct should be, without how it is found. Each member stands at the next
offset that its alignment admits; the struct is aligned as the member with the largest alignment
is, and its size is the end of the last member rounded up to that. The description determines the
layout from the layouts of the members (`LaidOut.unique`). Sizes are kept in 64 bits. As long as
they do not wrap around, members stand at the least offsets that are free and aligned
(`Packed.natural`).
-/
namespace TinLang

/-- Rounding a size up to an alignment gives the least multiple that reaches it, within the words of
a value. -/
theorem isLeast_alignUp {size align leaves : Nat} (even : align ∣ 8)
    (bounded : size ≤ wordSize * leaves)
    (small : wordSize * leaves < 2 ^ 63) :
    IsLeast {place | size ≤ place ∧ align ∣ place} (alignUp size align) ∧
      alignUp size align ≤ wordSize * leaves := by
  have positive := Nat.pos_of_dvd_of_pos even (by decide)
  obtain ⟨reached, within⟩ := alignUp_bounds even bounded small
  refine ⟨⟨⟨reached, dvd_alignUp size even⟩, fun _ ⟨reaches, aligned⟩ =>
    alignUp_le positive (roomy_of_small even bounded small) reaches aligned⟩, within⟩

namespace StructTable

/-- Members from an offset on, each at the next aligned offset, and where the last one ends. -/
inductive Packed (table : StructTable) : (offset : Nat) → List Member → (stop : Nat) → Prop where
  | nil {offset : Nat} : Packed table offset [] offset
  | cons {offset stop : Nat} {mem : Member} {members : List Member}
      (next : mem.offset = alignUp offset (table.alignOf mem.type))
      (rest : Packed table (wrapUnsigned (mem.offset + table.sizeOf mem.type)) members stop) :
      Packed table offset (mem :: members) stop

/-- Members from an offset on, each at the least offset that is free and aligned, and where the
last one ends. -/
inductive Natural (table : StructTable) : (offset : Nat) → List Member → (stop : Nat) → Prop where
  | nil {offset : Nat} : Natural table offset [] offset
  | cons {offset stop : Nat} {mem : Member} {members : List Member}
      (least : IsLeast {place | offset ≤ place ∧ table.alignOf mem.type ∣ place} mem.offset)
      (rest : Natural table (mem.offset + table.sizeOf mem.type) members stop) :
      Natural table offset (mem :: members) stop

/-- The largest alignment of some members; one if there are none. -/
def largestAlignment (table : StructTable) (members : List Member) : Nat :=
  (members.map fun mem => table.alignOf mem.type).foldr max 1

variable {table other : StructTable} {offset stop : Nat} {members : List Member}

/-- One more member behind others. -/
theorem Packed.snoc {mem : Member} (packed : table.Packed offset members stop)
    (next : mem.offset = alignUp stop (table.alignOf mem.type)) :
    table.Packed offset (members ++ [mem])
      (wrapUnsigned (mem.offset + table.sizeOf mem.type)) := by
  induction packed with
  | nil => exact .cons next .nil
  | cons first _ ih => exact .cons first (ih next)

/-- Where members stand depends on the sizes and the alignments of their types. -/
theorem Packed.congr (packed : table.Packed offset members stop)
    (sizes : ∀ mem ∈ members, other.sizeOf mem.type = table.sizeOf mem.type)
    (aligns : ∀ mem ∈ members, other.alignOf mem.type = table.alignOf mem.type) :
    other.Packed offset members stop := by
  induction packed with
  | nil => exact .nil
  | cons next _ ih =>
    refine .cons ?_ ?_
    · rwa [aligns _ List.mem_cons_self]
    · rw [sizes _ List.mem_cons_self]
      exact ih (fun mem inside => sizes mem (List.mem_cons_of_mem _ inside))
        fun mem inside => aligns mem (List.mem_cons_of_mem _ inside)

/-- Where sizes do not wrap around, every member stands at the least offset that is free and
aligned, and members take at most a word for each scalar. -/
theorem Packed.natural (packed : table.Packed offset members stop)
    (even : ∀ name, (table.get name).align ∣ 8) {before : Nat}
    (bounded : offset ≤ wordSize * before)
    (sizes : ∀ mem ∈ members, wordSize * table.leavesOf mem.type < 2 ^ 63 →
      table.sizeOf mem.type ≤ wordSize * table.leavesOf mem.type)
    (small : wordSize * (before + (members.map fun mem => table.leavesOf mem.type).sum) < 2 ^ 63) :
    table.Natural offset members stop ∧
      stop ≤ wordSize * (before + (members.map fun mem => table.leavesOf mem.type).sum) := by
  induction packed generalizing before with
  | nil => exact ⟨.nil, bounded⟩
  | @cons offset stop mem members next rest ih =>
    rw [List.map_cons, List.sum_cons, ← Nat.add_assoc] at small ⊢
    have size := sizes mem List.mem_cons_self (by unfold wordSize at *; omega)
    obtain ⟨least, within⟩ := isLeast_alignUp (alignOf_dvd even mem.type) bounded
      (by unfold wordSize at *; omega)
    rw [← next] at least within
    have stops : mem.offset + table.sizeOf mem.type ≤
        wordSize * (before + table.leavesOf mem.type) := by
      rw [Nat.mul_add]
      exact Nat.add_le_add within size
    rw [wrapUnsigned_add (by unfold wordSize at *; omega)] at ih
    obtain ⟨natural, below⟩ := ih stops (fun other inside =>
      sizes other (List.mem_cons_of_mem _ inside)) small
    exact ⟨.cons least natural, below⟩

/-- Packed members end no sooner than they start. -/
theorem Natural.le (packed : table.Natural offset members stop) : offset ≤ stop := by
  induction packed with
  | nil => exact Nat.le_refl _
  | cons least _ ih =>
    have start := least.1.1
    omega

/-- Packed members stand between the offsets, aligned. -/
theorem Natural.mem (packed : table.Natural offset members stop) {mem : Member}
    (inside : mem ∈ members) : offset ≤ mem.offset ∧
      mem.offset + table.sizeOf mem.type ≤ stop ∧
      table.alignOf mem.type ∣ mem.offset := by
  induction packed with
  | nil => simp at inside
  | cons least rest ih =>
    obtain ⟨start, aligned⟩ := least.1
    rcases List.mem_cons.mp inside with rfl | later
    · exact ⟨start, rest.le, aligned⟩
    · obtain ⟨after, below, even⟩ := ih later
      exact ⟨by omega, below, even⟩

/-- Packed members do not overlap. -/
theorem Natural.pairwise (packed : table.Natural offset members stop) :
    members.Pairwise fun mem later =>
      mem.offset + table.sizeOf mem.type ≤ later.offset := by
  induction packed with
  | nil => exact .nil
  | cons _ rest ih => exact .cons (fun later inside => (rest.mem inside).1) ih

/-- One more member may raise the largest alignment. -/
theorem largestAlignment_append (table : StructTable) (members : List Member) (mem : Member) :
    table.largestAlignment (members ++ [mem]) =
      max (table.largestAlignment members) (table.alignOf mem.type) := by
  unfold largestAlignment
  induction members with
  | nil => simp [Nat.max_comm]
  | cons first members ih =>
    simp only [List.cons_append, List.map_cons, List.foldr_cons, ih, Nat.max_assoc]

/-- The largest alignment depends on those of the members only. -/
theorem largestAlignment_congr
    (aligns : ∀ mem ∈ members, other.alignOf mem.type = table.alignOf mem.type) :
    other.largestAlignment members = table.largestAlignment members := by
  unfold largestAlignment
  rw [List.map_congr_left aligns]

end StructTable

namespace Environment

variable {env other : Environment} {decl : StructDecl} {struct : StructType}

/-- A member is what a field declares. -/
structure Stands (env : Environment) (field : Field) (mem : Member) : Prop where
  name : mem.name = field.name
  type : env.resolve? field.type = some mem.type
  shape : mem.shape = env.structs.shapeOf mem.type

/-- The members of a struct so far are those that some fields declare, packed up to an offset. -/
structure Filled (env : Environment) (fields : List Field) (struct : StructType)
    (stop : Nat) : Prop where
  members : List.Forall₂ env.Stands fields struct.members
  align : struct.align = env.structs.largestAlignment struct.members
  packed : env.structs.Packed 0 struct.members stop

/-- A struct is laid out as its declaration says, given the layouts of the structs it holds. -/
structure LaidOut (env : Environment) (decl : StructDecl) (struct : StructType) :
    Prop where
  name : struct.name = decl.name
  filled : ∃ stop, env.Filled decl.members struct stop ∧
    struct.size = alignUp stop struct.align

/-- Another environment has the same structs, and the members of one of them lie there as here. -/
structure Agrees (env other : Environment) (struct : StructType) : Prop where
  known : ∀ name, (other.structs.get? name).isSome = (env.structs.get? name).isSome
  shapes : ∀ mem ∈ struct.members,
    other.structs.shapeOf mem.type = env.structs.shapeOf mem.type
  sizes : ∀ mem ∈ struct.members,
    other.structs.sizeOf mem.type = env.structs.sizeOf mem.type
  aligns : ∀ mem ∈ struct.members,
    other.structs.alignOf mem.type = env.structs.alignOf mem.type

/-- Which type is written depends on which structs there are. -/
theorem resolve?_congr (same : ∀ name,
    (other.structs.get? name).isSome = (env.structs.get? name).isSome) (type : TypeExpr) :
    other.resolve? type = env.resolve? type := by
  unfold resolve?
  cases BaseType.builtin? type.name with
  | some base => rfl
  | none =>
    have known := same type.name
    have named : ∀ {table : StructTable} {struct : StructType},
        table.get? type.name = some struct → struct.name = type.name := fun found => by
      simpa using List.find?_some found
    cases found : env.structs.get? type.name with
    | none =>
      rw [found] at known
      have missing : other.structs.get? type.name = none := by simpa using known
      rw [missing]
    | some struct =>
      rw [found] at known
      obtain ⟨struct', found'⟩ := Option.isSome_iff_exists.mp known
      rw [found', Option.map_some, Option.map_some, named found, named found']

/-- Every field has its member. -/
theorem exists_of_stands {fields : List Field} {members : List Member} {field : Field}
    (stands : List.Forall₂ env.Stands fields members) (inside : field ∈ fields) :
    ∃ mem ∈ members, env.Stands field mem := by
  induction stands with
  | nil => simp at inside
  | cons stand _ ih =>
    rcases List.mem_cons.mp inside with rfl | later
    · exact ⟨_, List.mem_cons_self, stand⟩
    · obtain ⟨mem, listed, stand⟩ := ih later
      exact ⟨mem, List.mem_cons_of_mem _ listed, stand⟩

/-- Members have the names of their fields. -/
theorem names_of_stands {fields : List Field} {members : List Member}
    (stands : List.Forall₂ env.Stands fields members) :
    members.map Member.name = fields.map Field.name := by
  induction stands with
  | nil => rfl
  | cons stand _ ih => rw [List.map_cons, List.map_cons, stand.name, ih]

/-- What is known of the members of a struct stays right while their layouts do. -/
theorem Filled.congr {fields : List Field} {stop : Nat}
    (filled : env.Filled fields struct stop) (agrees : env.Agrees other struct) :
    other.Filled fields struct stop where
  members := by
    have each := List.forall₂_iff_get.mp filled.members
    refine List.forall₂_iff_get.mpr ⟨each.1, fun index first second => ?_⟩
    have stands := each.2 index first second
    exact ⟨stands.name, (resolve?_congr agrees.known _).trans stands.type,
      stands.shape.trans (agrees.shapes _ (List.get_mem _ _)).symm⟩
  align := filled.align.trans (StructTable.largestAlignment_congr agrees.aligns).symm
  packed := filled.packed.congr agrees.sizes agrees.aligns

/-- A layout depends only on what it is made of. -/
theorem LaidOut.congr (laid : env.LaidOut decl struct)
    (agrees : env.Agrees other struct) : other.LaidOut decl struct := by
  obtain ⟨name, stop, filled, size⟩ := laid
  exact ⟨name, stop, filled.congr agrees, size⟩

/-- Fields, their sizes and their alignments determine where members stand. -/
theorem members_unique {fields : List Field} {offset stop stop' : Nat}
    {members members' : List Member}
    (stands : List.Forall₂ env.Stands fields members)
    (stands' : List.Forall₂ env.Stands fields members')
    (packed : env.structs.Packed offset members stop)
    (packed' : env.structs.Packed offset members' stop') :
    members = members' ∧ stop = stop' := by
  induction stands generalizing offset members' with
  | nil =>
    cases stands'
    cases packed
    cases packed'
    exact ⟨rfl, rfl⟩
  | @cons field mem fields members stand rest ih =>
    obtain ⟨member', members', stand', rest', rfl⟩ := List.forall₂_cons_left_iff.mp stands'
    cases packed with | cons next packed =>
    cases packed' with | cons next' packed' =>
    have types : mem.type = member'.type := Option.some.inj (stand.type.symm.trans stand'.type)
    have names : mem.name = member'.name := stand.name.trans stand'.name.symm
    have shapes : mem.shape = member'.shape := by rw [stand.shape, stand'.shape, types]
    have offsets : mem.offset = member'.offset := next.trans ((types ▸ next').symm)
    have same : mem = member' := by
      cases mem
      cases member'
      simp_all
    subst same
    obtain ⟨rfl, rfl⟩ := ih rest' packed packed'
    exact ⟨rfl, rfl⟩

/-- A declaration and the layouts of the structs that it holds determine the layout of a struct. -/
theorem LaidOut.unique {struct' : StructType} (laid : env.LaidOut decl struct)
    (laid' : env.LaidOut decl struct') : struct = struct' := by
  obtain ⟨name, stop, filled, size⟩ := laid
  obtain ⟨name', stop', filled', size'⟩ := laid'
  obtain ⟨members, rfl⟩ := members_unique filled.members filled'.members filled.packed
    filled'.packed
  have align : struct.align = struct'.align := by rw [filled.align, filled'.align, members]
  have sizes : struct.size = struct'.size := size.trans (align ▸ size').symm
  have names : struct.name = struct'.name := name.trans name'.symm
  cases struct
  cases struct'
  simp_all

end Environment

end TinLang
