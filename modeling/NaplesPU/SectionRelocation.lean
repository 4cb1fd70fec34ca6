import NaplesPU.RelocationWrites
import NaplesPU.Lib.SeparateWrites

/-!
The linker over whole sections. The relocations of every section are scanned first, which
enters the symbols that are reached through the global offset table into it, and then applied
section by section, those of the table to the table itself. The output is linked statically at
fixed addresses, and its symbols are neither thread-local nor indirect functions.
-/

namespace NaplesPU.SectionRelocation

open BitLayout ByteMemory TwosComplement SeparateWrites
open AsmBackend ELFRelocations RelocationWrites

structure Rela where
  offset : Nat
  type : RelType
  addend : BitVec 64
  sym : Nat
deriving DecidableEq

/-- What the scan keeps for a section. -/
structure Relocation where
  expr : RelExpr
  type : RelType
  offset : Nat
  addend : BitVec 64
  sym : Nat
deriving DecidableEq

/-- The global offset table and the index in it that every symbol has. -/
structure Got where
  gotIndex : Nat → BitVec 32
  numEntries : Nat
  relocations : List Relocation

def Got.empty : Got := ⟨fun _ => -1, 0, []⟩

def Got.isInGot (got : Got) (sym : Nat) : Bool := got.gotIndex sym ≠ -1

def gotEntrySize : BitVec 32 := 4

def getGotOffset (gotIndex : BitVec 32) : BitVec 64 := (gotIndex * gotEntrySize).setWidth 64

def Got.addEntry (got : Got) (sym : Nat) : Got :=
  { got with
    gotIndex := Function.update got.gotIndex sym (BitVec.ofNat 32 got.numEntries)
    numEntries := got.numEntries + 1 }

/-- The word of a new entry is filled by a relocation of the table. -/
def addGotEntry (got : Got) (sym : Nat) : Got :=
  let added := got.addEntry sym
  { added with
    relocations := added.relocations ++
      [⟨.R_ABS, .R_NPU_ABS32, (getGotOffset (added.gotIndex sym)).toNat, 0, sym⟩] }

def needsGot (expr : RelExpr) : Bool := expr = .R_GOT

/-- An unknown type is fatal. -/
def scanReloc (got : Got) (rel : Rela) : Option (Got × Relocation) :=
  (getRelExpr rel.type).map fun expr =>
    (if needsGot expr && !got.isInGot rel.sym then addGotEntry got rel.sym else got,
      ⟨expr, rel.type, rel.offset, rel.addend, rel.sym⟩)

def scanRelocs (got : Got) : List Rela → Option (Got × List Relocation)
  | [] => some (got, [])
  | rel :: rest =>
      (scanReloc got rel).bind fun first =>
        (scanRelocs first.1 rest).map fun others => (others.1, first.2 :: others.2)

def scanRelocations (got : Got) : List (List Rela) → Option (Got × List (List Relocation))
  | [] => some (got, [])
  | rels :: rest =>
      (scanRelocs got rels).bind fun first =>
        (scanRelocations first.1 rest).map fun others => (others.1, first.2 :: others.2)

structure Addresses where
  symbolVA : Nat → BitVec 64
  gotVA : BitVec 64

/-- The value of a relocation of a section at `address`, sign-extended from a machine word. -/
def targetVA (addresses : Addresses) (gotIndex : Nat → BitVec 32) (address : BitVec 64)
    (rel : Relocation) : BitVec 64 :=
  let relocAddresses : RelocAddresses :=
    { symbol := addresses.symbolVA rel.sym
      gotEntry := addresses.gotVA + getGotOffset (gotIndex rel.sym)
      place := address + BitVec.ofNat 64 rel.offset }
  ((getRelocTargetVA rel.expr relocAddresses rel.addend).setWidth 32).signExtend 64

/-- The relocations of a section, applied to its bytes. A value out of range is an error, of
which the link fails. -/
def relocateAlloc (value : Relocation → BitVec 64) (data : List Byte) :
    List Relocation → Option Outcome
  | [] => some (.written data)
  | rel :: rest =>
      match relocateOne data rel.offset rel.type (value rel) with
      | some (.written next) => relocateAlloc value next rest
      | failed => failed

section Application

variable (value : Relocation → BitVec 64) {data : List Byte} {rels : List Relocation}

def Separate (rel other : Relocation) : Prop :=
  rel.offset + 4 ≤ other.offset ∨ other.offset + 4 ≤ rel.offset

def patch (data : List Byte) (rel : Relocation) : List Byte :=
  patchWord data rel.offset rel.type (value rel)

theorem patch_length {rel : Relocation} (inside : rel.offset + 4 ≤ data.length) :
    (patch value data rel).length = data.length :=
  write_at_length inside _

theorem patch_comm {rel other : Relocation} (inside : rel.offset + 4 ≤ data.length)
    (otherInside : other.offset + 4 ≤ data.length) (separate : Separate rel other) :
    patch value (patch value data rel) other = patch value (patch value data other) rel := by
  have kept : readAt (patch value data rel) other.offset 4 = readAt data other.offset 4 :=
    read_at_write_at_apart inside separate.symm _
  have otherKept : readAt (patch value data other) rel.offset 4 = readAt data rel.offset 4 :=
    read_at_write_at_apart otherInside separate _
  simp only [patch, patchWord] at kept otherKept ⊢
  rw [kept, otherKept]
  exact write_at_comm inside otherInside separate _ _

theorem relocate_one_refused {offset : Nat} {type : RelType} {val : BitVec 64}
    (known : (getRelExpr type).isSome) (inside : offset + 4 ≤ data.length)
    (refused : ¬ InRange type val) : relocateOne data offset type val = some .outOfRange := by
  have outcomes : relocateOne data offset type val = some .outOfRange ∨
      ∃ result, relocateOne data offset type val = some (.written result) := by
    cases type with
    | R_NPU_NONE => cases known
    | R_NPU_ABS32 => exact Or.inr ⟨_, rfl⟩
    | _ =>
        simp only [relocateOne]
        split
        · exact Or.inr ⟨_, rfl⟩
        · exact Or.inl rfl
  rcases outcomes with outOfRange | ⟨result, written⟩
  · exact outOfRange
  · exact absurd ((relocate_one_written inside).mp written).1 refused

theorem relocate_alloc_accepted (inside : ∀ rel ∈ rels, rel.offset + 4 ≤ data.length)
    (inRange : ∀ rel ∈ rels, InRange rel.type (value rel)) :
    relocateAlloc value data rels = some (.written (rels.foldl (patch value) data)) := by
  induction rels generalizing data with
  | nil => rfl
  | cons rel rest induction =>
      rw [List.forall_mem_cons] at inside inRange
      have accepted : relocateOne data rel.offset rel.type (value rel) =
          some (.written (patch value data rel)) :=
        (relocate_one_written inside.1).mpr ⟨inRange.1, rfl⟩
      rw [relocateAlloc, accepted, List.foldl_cons]
      apply induction ?_ inRange.2
      rw [patch_length value inside.1]
      exact inside.2

theorem relocate_alloc_refused (known : ∀ rel ∈ rels, (getRelExpr rel.type).isSome)
    (inside : ∀ rel ∈ rels, rel.offset + 4 ≤ data.length)
    (refused : ¬ ∀ rel ∈ rels, InRange rel.type (value rel)) :
    relocateAlloc value data rels = some .outOfRange := by
  induction rels generalizing data with
  | nil => exact absurd (List.forall_mem_nil _) refused
  | cons rel rest induction =>
      rw [List.forall_mem_cons] at known inside refused
      by_cases first : InRange rel.type (value rel)
      · have accepted : relocateOne data rel.offset rel.type (value rel) =
            some (.written (patch value data rel)) :=
          (relocate_one_written inside.1).mpr ⟨first, rfl⟩
        rw [relocateAlloc, accepted]
        apply induction known.2 ?_ fun others => refused ⟨first, others⟩
        rw [patch_length value inside.1]
        exact inside.2
      · rw [relocateAlloc, relocate_one_refused known.1 inside.1 first]

/-- The field of a relocation holds what its type keeps of the value. -/
def FieldHolds (rel : Relocation) (data : List Byte) : Prop :=
  ReadsBack rel.type (value rel) ((relocField rel.type).extract (readAt data rel.offset 4))

structure Relocated (value : Relocation → BitVec 64) (data : List Byte) (rels : List Relocation)
    (result : List Byte) : Prop where
  length : result.length = data.length
  outside : ∀ index, (∀ rel ∈ rels, index < rel.offset ∨ rel.offset + 4 ≤ index) →
    result[index]? = data[index]?
  reads_back : ∀ rel ∈ rels, FieldHolds value rel result
  other_bits : ∀ rel ∈ rels, ∀ position, ¬ (relocField rel.type).Contains position →
    (readAt result rel.offset 4).testBit position = (readAt data rel.offset 4).testBit position

theorem patched_reads_back {rel : Relocation} (inside : rel.offset + 4 ≤ data.length)
    (inRange : InRange rel.type (value rel)) : FieldHolds value rel (patch value data rel) := by
  rw [FieldHolds, patch, patch_word_read inside, Slot.extract_patch]
  exact reads_back_of_in_range inRange

theorem patched_other_bits {rel other : Relocation} (inside : rel.offset + 4 ≤ data.length)
    (otherInside : other.offset + 4 ≤ data.length) (apart : rel = other ∨ Separate rel other)
    {position : Nat} (outside : ¬ (relocField rel.type).Contains position) :
    (readAt (patch value data other) rel.offset 4).testBit position =
      (readAt data rel.offset 4).testBit position := by
  rcases apart with rfl | separate
  · rw [patch, patch_word_read inside, Slot.test_bit_patch, if_neg outside]
  · rw [patch, patchWord, read_at_write_at_apart otherInside separate]

theorem patches_relocated (inside : ∀ rel ∈ rels, rel.offset + 4 ≤ data.length)
    (inRange : ∀ rel ∈ rels, InRange rel.type (value rel)) (separate : rels.Pairwise Separate) :
    Relocated value data rels (rels.foldl (patch value) data) := by
  have length : ∀ rel ∈ rels, ∀ state : List Byte, state.length = data.length →
      (patch value state rel).length = data.length := by
    intro rel listed state same
    rw [patch_length value (same ▸ inside rel listed), same]
  have symmetric : Std.Symm fun rel other : Relocation => rel = other ∨ Separate rel other :=
    ⟨fun _ _ => Or.imp Eq.symm Or.symm⟩
  have apart : ∀ rel ∈ rels, ∀ other ∈ rels, rel = other ∨ Separate rel other :=
    List.Pairwise.forall_of_forall (fun _ _ => Or.inl rfl) (separate.imp Or.inr)
  constructor
  · exact @kept_by_all _ _ (patch value) rels (fun state => state.length = data.length) length data
      rfl
  · intro index outside
    have both := @kept_by_all _ _ (patch value) rels
      (fun state => state.length = data.length ∧ state[index]? = data[index]?) ?_ data ⟨rfl, rfl⟩
    · exact both.2
    · rintro rel listed state ⟨same, kept⟩
      refine ⟨length rel listed state same, ?_⟩
      rw [← kept]
      exact write_at_outside (same ▸ inside rel listed) _ (outside rel listed)
  · refine written_by_all (fun state : List Byte => state.length = data.length) length ?_ ?_
      separate rfl
    · intro rel listed state same
      exact patched_reads_back value (same ▸ inside rel listed) (inRange rel listed)
    · intro rel _ other otherListed separate state same held
      rw [FieldHolds, patch, patchWord,
        read_at_write_at_apart (same ▸ inside other otherListed) separate]
      exact held
  · intro rel listed position outside
    have both := @kept_by_all _ _ (patch value) rels (fun state => state.length = data.length ∧
      (readAt state rel.offset 4).testBit position = (readAt data rel.offset 4).testBit position)
      ?_ data ⟨rfl, rfl⟩
    · exact both.2
    · rintro other otherListed state ⟨same, kept⟩
      refine ⟨length other otherListed state same, ?_⟩
      rw [← kept]
      exact patched_other_bits value (same ▸ inside rel listed) (same ▸ inside other otherListed)
        (apart rel listed other otherListed) outside

/-- Whatever the order in which the relocations of a section are applied, the link fails exactly
if a value is out of range, and otherwise has the same bytes: every field reads back its value,
and no other bit differs. -/
theorem section_relocated (known : ∀ rel ∈ rels, (getRelExpr rel.type).isSome)
    (inside : ∀ rel ∈ rels, rel.offset + 4 ≤ data.length) (separate : rels.Pairwise Separate)
    {order : List Relocation} (permuted : rels.Perm order) :
    relocateAlloc value data order = relocateAlloc value data rels ∧
      ((¬ ∀ rel ∈ rels, InRange rel.type (value rel)) ↔
        relocateAlloc value data rels = some .outOfRange) ∧
      ((∀ rel ∈ rels, InRange rel.type (value rel)) → ∃ result,
        relocateAlloc value data rels = some (.written result) ∧
          Relocated value data rels result) := by
  have knownOrder : ∀ rel ∈ order, (getRelExpr rel.type).isSome :=
    fun rel listed => known rel (permuted.mem_iff.mpr listed)
  have insideOrder : ∀ rel ∈ order, rel.offset + 4 ≤ data.length :=
    fun rel listed => inside rel (permuted.mem_iff.mpr listed)
  by_cases inRange : ∀ rel ∈ rels, InRange rel.type (value rel)
  · have inRangeOrder : ∀ rel ∈ order, InRange rel.type (value rel) :=
      fun rel listed => inRange rel (permuted.mem_iff.mpr listed)
    have same : rels.foldl (patch value) data = order.foldl (patch value) data := by
      apply same_in_any_order (fun state => state.length = data.length) Or.symm ?_ ?_ separate
        permuted rfl
      · intro rel listed state same
        rw [patch_length value (same ▸ inside rel listed), same]
      · intro rel listed other otherListed apart state same
        exact patch_comm value (same ▸ inside rel listed) (same ▸ inside other otherListed) apart
    rw [relocate_alloc_accepted value insideOrder inRangeOrder,
      relocate_alloc_accepted value inside inRange, same]
    refine ⟨rfl, ⟨fun refused => absurd inRange refused, fun failed => ?_⟩, fun _ => ⟨_, rfl, ?_⟩⟩
    · cases failed
    · rw [← same]
      exact patches_relocated value inside inRange separate
  · have refusedOrder : ¬ ∀ rel ∈ order, InRange rel.type (value rel) :=
      fun all => inRange fun rel listed => all rel (permuted.mem_iff.mp listed)
    rw [relocate_alloc_refused value knownOrder insideOrder refusedOrder,
      relocate_alloc_refused value known inside inRange]
    exact ⟨rfl, ⟨fun _ => rfl, fun _ => inRange⟩, fun all => absurd all inRange⟩

/-- The halves of an address, for which the second instruction is patched first. -/
def addressHalves : List Relocation :=
  [⟨.R_ABS, .R_NPU_ABS_HIGH_LEA, 0, 0, 0⟩, ⟨.R_ABS, .R_NPU_ABS_LOW_LEA, 4, 0, 0⟩]

theorem address_halves_relocated :
    ∃ result, relocateAlloc (fun _ => 0x12345678) (List.replicate 8 0) addressHalves.reverse =
        some (.written result) ∧
      readAt result 0 4 = 4 * 0x1234 ∧ readAt result 4 4 = 4 * 0x5678 := by
  have inside : ∀ rel ∈ addressHalves, rel.offset + 4 ≤ (List.replicate 8 (0 : Byte)).length := by
    decide
  have separate : addressHalves.Pairwise Separate :=
    List.Pairwise.cons (List.forall_mem_singleton.mpr (Or.inl (by decide)))
      (List.pairwise_singleton _ _)
  have inRange : ∀ rel ∈ addressHalves, InRange rel.type 0x12345678 :=
    List.forall_mem_cons.mpr ⟨trivial, List.forall_mem_singleton.mpr trivial⟩
  obtain ⟨same, -, linked⟩ := section_relocated (fun _ => 0x12345678) (by decide) inside separate
    (List.reverse_perm addressHalves).symm
  obtain ⟨result, written, relocated⟩ := linked inRange
  have computed : relocateAlloc (fun _ => 0x12345678) (List.replicate 8 0) addressHalves =
      some (.written [0xD0, 0x48, 0, 0, 0xE0, 0x59, 1, 0]) := by decide
  rw [written, Option.some.injEq, Outcome.written.injEq] at computed
  subst computed
  exact ⟨_, same.trans written, by decide, by decide⟩

end Application

section Table

def entryRelocation : Nat × Nat → Relocation
  | (sym, index) => ⟨.R_ABS, .R_NPU_ABS32, 4 * index, 0, sym⟩

structure Represents (syms : List Nat) (got : Got) : Prop where
  nodup : syms.Nodup
  numEntries : got.numEntries = syms.length
  gotIndex : ∀ sym, got.gotIndex sym =
    if sym ∈ syms then BitVec.ofNat 32 (syms.idxOf sym) else -1
  relocations : got.relocations = syms.zipIdx.map entryRelocation

/-- A symbol is entered once. -/
def enter (syms : List Nat) (rel : Relocation) : List Nat :=
  if rel.expr = .R_GOT ∧ rel.sym ∉ syms then syms ++ [rel.sym] else syms

theorem empty_represents : Represents [] Got.empty :=
  ⟨List.nodup_nil, rfl, fun _ => rfl, rfl⟩

theorem got_offset_eq {index : Nat} (small : index < 2 ^ 30) :
    getGotOffset (BitVec.ofNat 32 index) = BitVec.ofNat 64 (4 * index) := by
  apply BitVec.eq_of_toNat_eq
  rw [getGotOffset, gotEntrySize, BitVec.toNat_setWidth, BitVec.toNat_mul, BitVec.toNat_ofNat,
    BitVec.toNat_ofNat, show (4 : BitVec 32).toNat = 4 from rfl]
  omega

variable {syms : List Nat} {got : Got}

theorem in_got_iff (represents : Represents syms got) (few : syms.length < 2 ^ 30) (sym : Nat) :
    got.isInGot sym = true ↔ sym ∈ syms := by
  rw [Got.isInGot, represents.gotIndex, decide_eq_true_eq]
  split
  case isTrue listed =>
      have index := List.idxOf_lt_length_of_mem listed
      have present : BitVec.ofNat 32 (syms.idxOf sym) ≠ -1 := by
        intro same
        have value := congrArg BitVec.toNat same
        rw [BitVec.toNat_ofNat, show (-1 : BitVec 32).toNat = 2 ^ 32 - 1 from rfl] at value
        omega
      exact ⟨fun _ => listed, fun _ => present⟩
  case isFalse absent =>
      exact ⟨fun different => absurd rfl different, fun listed => absurd listed absent⟩

theorem added_represents (represents : Represents syms got) (few : syms.length < 2 ^ 30) {sym : Nat}
    (absent : sym ∉ syms) : Represents (syms ++ [sym]) (addGotEntry got sym) where
  nodup := by
    rw [List.nodup_append_comm, List.singleton_append, List.nodup_cons]
    exact ⟨absent, represents.nodup⟩
  numEntries := by
    rw [List.length_append, List.length_singleton, ← represents.numEntries]
    rfl
  gotIndex other := by
    have entered : (addGotEntry got sym).gotIndex other =
        Function.update got.gotIndex sym (BitVec.ofNat 32 got.numEntries) other := rfl
    rw [entered]
    by_cases same : other = sym
    · subst same
      rw [Function.update_self, if_pos (List.mem_append_right _ List.mem_cons_self),
        List.idxOf_append_of_notMem absent, List.idxOf_cons_self, represents.numEntries]
      rfl
    · rw [Function.update_of_ne same, represents.gotIndex]
      by_cases listed : other ∈ syms
      · rw [if_pos listed, if_pos (List.mem_append_left _ listed), List.idxOf_append_of_mem listed]
      · rw [if_neg listed, if_neg]
        rw [List.mem_append, List.mem_singleton]
        exact not_or.mpr ⟨listed, same⟩
  relocations := by
    have entered : (addGotEntry got sym).relocations = got.relocations ++ [⟨.R_ABS, .R_NPU_ABS32,
        (getGotOffset
          (Function.update got.gotIndex sym (BitVec.ofNat 32 got.numEntries) sym)).toNat,
        0, sym⟩] := rfl
    rw [entered, Function.update_self, represents.relocations, represents.numEntries,
      got_offset_eq few, BitVec.toNat_ofNat, Nat.mod_eq_of_lt (by omega), List.zipIdx_append,
      List.map_append, Nat.zero_add]
    rfl

structure Keeps (rela : Rela) (rel : Relocation) : Prop where
  expr : getRelExpr rela.type = some rel.expr
  type : rel.type = rela.type
  offset : rel.offset = rela.offset
  addend : rel.addend = rela.addend
  sym : rel.sym = rela.sym

theorem scan_reloc_represents (represents : Represents syms got) (few : syms.length < 2 ^ 30)
    {rela : Rela} {rel : Relocation} {next : Got}
    (scanned : scanReloc got rela = some (next, rel)) :
    Represents (enter syms rel) next ∧ Keeps rela rel := by
  rw [scanReloc, Option.map_eq_some_iff] at scanned
  obtain ⟨expr, known, same⟩ := scanned
  rw [Prod.mk.injEq] at same
  obtain ⟨rfl, rfl⟩ := same
  refine ⟨?_, known, rfl, rfl, rfl, rfl⟩
  have condition : (needsGot expr && !got.isInGot rela.sym) = true ↔
      expr = .R_GOT ∧ rela.sym ∉ syms := by
    rw [needsGot, Bool.and_eq_true, decide_eq_true_eq, Bool.not_eq_true', ← Bool.not_eq_true,
      in_got_iff represents few]
  rw [enter]
  by_cases enters : expr = .R_GOT ∧ rela.sym ∉ syms
  · rw [if_pos (condition.mpr enters), if_pos enters]
    exact added_represents represents few enters.2
  · rw [if_neg fun holds => enters (condition.mp holds), if_neg enters]
    exact represents

theorem enter_length_le (syms : List Nat) (rel : Relocation) :
    (enter syms rel).length ≤ syms.length + 1 := by
  rw [enter]
  split
  · rw [List.length_append, List.length_singleton]
  · exact Nat.le_succ _

theorem entered_length_le (syms : List Nat) (rels : List Relocation) :
    (rels.foldl enter syms).length ≤ syms.length + rels.length := by
  induction rels generalizing syms with
  | nil => exact Nat.le_refl _
  | cons rel rest induction =>
      have first := enter_length_le syms rel
      have others := induction (enter syms rel)
      rw [List.foldl_cons, List.length_cons]
      omega

/-- The symbols of the table are those that a relocation reaches through it. -/
theorem mem_entered (syms : List Nat) (rels : List Relocation) (sym : Nat) :
    sym ∈ rels.foldl enter syms ↔ sym ∈ syms ∨ ∃ rel ∈ rels, rel.expr = .R_GOT ∧ rel.sym = sym := by
  induction rels generalizing syms with
  | nil => simp
  | cons rel rest induction =>
      have first : sym ∈ enter syms rel ↔ sym ∈ syms ∨ rel.expr = .R_GOT ∧ rel.sym = sym := by
        rw [enter]
        split
        case isTrue enters => simp [enters.1, eq_comm]
        case isFalse stays =>
            constructor
            · exact Or.inl
            · rintro (listed | ⟨isGot, rfl⟩)
              · exact listed
              · exact by_contra fun absent => stays ⟨isGot, absent⟩
      rw [List.foldl_cons, induction, first, List.exists_mem_cons_iff, or_assoc]

theorem scan_relocs_represents (represents : Represents syms got) {relas : List Rela}
    (few : syms.length + relas.length < 2 ^ 30) {next : Got} {rels : List Relocation}
    (scanned : scanRelocs got relas = some (next, rels)) :
    Represents (rels.foldl enter syms) next ∧ List.Forall₂ Keeps relas rels := by
  induction relas generalizing syms got rels with
  | nil =>
      cases scanned
      exact ⟨represents, List.Forall₂.nil⟩
  | cons rela rest induction =>
      rw [scanRelocs, Option.bind_eq_some_iff] at scanned
      obtain ⟨⟨middle, rel⟩, first, scanned⟩ := scanned
      rw [Option.map_eq_some_iff] at scanned
      obtain ⟨⟨last, others⟩, later, same⟩ := scanned
      cases same
      rw [List.length_cons] at few
      have length := enter_length_le syms rel
      obtain ⟨entered, keeps⟩ := scan_reloc_represents represents (by omega) first
      obtain ⟨final, keepsRest⟩ := induction entered (by omega) later
      exact ⟨final, List.Forall₂.cons keeps keepsRest⟩

theorem scan_relocations_represents (represents : Represents syms got)
    {sections : List (List Rela)} (few : syms.length + sections.flatten.length < 2 ^ 30)
    {next : Got} {relocated : List (List Relocation)}
    (scanned : scanRelocations got sections = some (next, relocated)) :
    Represents (relocated.flatten.foldl enter syms) next ∧
      List.Forall₂ (List.Forall₂ Keeps) sections relocated := by
  induction sections generalizing syms got relocated with
  | nil =>
      cases scanned
      exact ⟨represents, List.Forall₂.nil⟩
  | cons relas rest induction =>
      rw [scanRelocations, Option.bind_eq_some_iff] at scanned
      obtain ⟨⟨middle, rels⟩, first, scanned⟩ := scanned
      rw [Option.map_eq_some_iff] at scanned
      obtain ⟨⟨last, others⟩, later, same⟩ := scanned
      cases same
      rw [List.flatten_cons, List.length_append] at few
      obtain ⟨entered, keeps⟩ := scan_relocs_represents represents (by omega) first
      have length := entered_length_le syms rels
      have sameLength := keeps.length_eq
      obtain ⟨final, keepsRest⟩ := induction entered (by omega) later
      rw [List.flatten_cons, List.foldl_append]
      exact ⟨final, List.Forall₂.cons keeps keepsRest⟩

variable (addresses : Addresses)

theorem low_word_sign_extend (word : BitVec 32) : (word.signExtend 64).setWidth 32 = word := by
  apply BitVec.eq_of_getLsbD_eq
  intro position inside
  rw [BitVec.getLsbD_setWidth, BitVec.getLsbD_signExtend, if_pos inside,
    decide_eq_true inside, Bool.true_and, decide_eq_true (show position < 64 by omega),
    Bool.true_and]

theorem entry_value (gotIndex : Nat → BitVec 32) (entry : Nat × Nat) :
    (targetVA addresses gotIndex addresses.gotVA (entryRelocation entry)).toNat % 2 ^ 32 =
      (addresses.symbolVA entry.1).toNat % 2 ^ 32 := by
  have value : targetVA addresses gotIndex addresses.gotVA (entryRelocation entry) =
      ((addresses.symbolVA entry.1 + 0).setWidth 32).signExtend 64 := rfl
  have low : (targetVA addresses gotIndex addresses.gotVA (entryRelocation entry)).setWidth 32 =
      (addresses.symbolVA entry.1).setWidth 32 := by
    rw [value, show addresses.symbolVA entry.1 + 0 = addresses.symbolVA entry.1 from
      BitVec.add_zero _]
    exact low_word_sign_extend _
  rw [← BitVec.toNat_setWidth, low, BitVec.toNat_setWidth]

/-- The relocations of the table are accepted, and each entry then holds its symbol's address. -/
theorem table_relocated (represents : Represents syms got) {data : List Byte}
    (size : data.length = 4 * got.numEntries) :
    ∃ table, relocateAlloc (targetVA addresses got.gotIndex addresses.gotVA) data got.relocations =
        some (.written table) ∧ table.length = data.length ∧
      ∀ slot sym, syms[slot]? = some sym →
        readAt table (4 * slot) 4 = (addresses.symbolVA sym).toNat % 2 ^ 32 := by
  have inside : ∀ rel ∈ got.relocations, rel.offset + 4 ≤ data.length := by
    rw [represents.relocations, List.forall_mem_map, size, represents.numEntries]
    rintro ⟨sym, slot⟩ listed
    have bound := (List.mem_zipIdx' listed).1
    change 4 * slot + 4 ≤ 4 * syms.length
    omega
  have inRange : ∀ rel ∈ got.relocations,
      InRange rel.type (targetVA addresses got.gotIndex addresses.gotVA rel) := by
    rw [represents.relocations, List.forall_mem_map]
    exact fun _ _ => trivial
  have separate : got.relocations.Pairwise Separate := by
    rw [represents.relocations, List.pairwise_map, List.pairwise_iff_getElem]
    intro slot other slotInside otherInside before
    rw [List.getElem_zipIdx, List.getElem_zipIdx]
    change 4 * (0 + slot) + 4 ≤ 4 * (0 + other) ∨ _
    omega
  have relocated := patches_relocated _ inside inRange separate
  refine ⟨_, relocate_alloc_accepted _ inside inRange, relocated.length, ?_⟩
  intro slot sym present
  have listed : entryRelocation (sym, slot) ∈ got.relocations := by
    rw [represents.relocations]
    exact List.mem_map_of_mem (List.mem_zipIdx_iff_getElem?.mpr present)
  have held := relocated.reads_back _ listed
  rw [FieldHolds] at held
  change (relocField .R_NPU_ABS32).extract _ = _ at held
  have bounded := FixupAgreement.word_bounded (relocated.length ▸ inside _ listed)
  rw [entry_value, relocField, Slot.extract, Nat.shiftRight_zero, Nat.mod_eq_of_lt bounded] at held
  exact held

theorem got_value (represents : Represents syms got) (few : syms.length < 2 ^ 30)
    (address : BitVec 64) {rel : Relocation} (isGot : rel.expr = .R_GOT) (noAddend : rel.addend = 0)
    (listed : rel.sym ∈ syms) :
    targetVA addresses got.gotIndex address rel =
      (addresses.gotVA.setWidth 32 + BitVec.ofNat 32 (4 * syms.idxOf rel.sym)).signExtend 64 := by
  have index := List.idxOf_lt_length_of_mem listed
  have entry : targetVA addresses got.gotIndex address rel =
      ((addresses.gotVA + getGotOffset (got.gotIndex rel.sym) + rel.addend).setWidth 32).signExtend
        64 := by
    rw [targetVA, isGot]
    rfl
  have low : (BitVec.ofNat 64 (4 * syms.idxOf rel.sym)).setWidth 32 =
      BitVec.ofNat 32 (4 * syms.idxOf rel.sym) := by
    apply BitVec.eq_of_toNat_eq
    rw [BitVec.toNat_setWidth, BitVec.toNat_ofNat, BitVec.toNat_ofNat]
    omega
  rw [entry, noAddend, represents.gotIndex, if_pos listed, got_offset_eq (by omega),
    show addresses.gotVA + BitVec.ofNat 64 (4 * syms.idxOf rel.sym) + 0 =
      addresses.gotVA + BitVec.ofNat 64 (4 * syms.idxOf rel.sym) from BitVec.add_zero _,
    BitVec.setWidth_add _ _ (by decide), low]

/-- A type whose expression is the table keeps the value in the nine bits of its field. -/
theorem got_field {rela : Rela} {rel : Relocation} (keeps : Keeps rela rel)
    (isGot : rel.expr = .R_GOT) {value : Relocation → BitVec 64} {result : List Byte}
    (held : FieldHolds value rel result) :
    signExtend 9 ((⟨3, 9⟩ : Slot).extract (readAt result rel.offset 4)) = (value rel).toInt := by
  have known := keeps.expr
  rw [isGot, ← keeps.type] at known
  rw [FieldHolds] at held
  revert known held
  cases rel.type with
  | R_NPU_PCREL_MEM | R_NPU_PCREL_LEA | R_NPU_PCREL_EXT => exact fun held _ => held
  | _ => exact fun _ known => nomatch known

theorem exists_related {First Second : Type} {Related : First → Second → Prop} {firsts : List First}
    {seconds : List Second} (related : List.Forall₂ Related firsts seconds) {second : Second}
    (listed : second ∈ seconds) : ∃ first ∈ firsts, Related first second := by
  induction related with
  | nil => cases listed
  | cons head _ induction =>
      rcases List.mem_cons.mp listed with rfl | later
      · exact ⟨_, List.mem_cons_self, head⟩
      · obtain ⟨first, inFirsts, holds⟩ := induction later
        exact ⟨first, List.mem_cons_of_mem _ inFirsts, holds⟩

theorem kept_length {sections : List (List Rela)} {relocated : List (List Relocation)}
    (keeps : List.Forall₂ (List.Forall₂ Keeps) sections relocated) :
    sections.flatten.length = relocated.flatten.length := by
  induction keeps with
  | nil => rfl
  | cons head _ induction =>
      rw [List.flatten_cons, List.flatten_cons, List.length_append, List.length_append, induction,
        head.length_eq]

theorem linked_fields {relas : List Rela} {rels : List Relocation}
    (keeps : List.Forall₂ Keeps relas rels) {value : Relocation → BitVec 64}
    {data result : List Byte} (inside : ∀ rel ∈ rels, rel.offset + 4 ≤ data.length)
    (separate : rels.Pairwise Separate)
    (linked : relocateAlloc value data rels = some (.written result)) :
    ∀ rel ∈ rels, FieldHolds value rel result := by
  have known : ∀ rel ∈ rels, (getRelExpr rel.type).isSome := by
    intro rel listed
    obtain ⟨rela, -, kept⟩ := exists_related keeps listed
    rw [kept.type, kept.expr]
    rfl
  have inRange : ∀ rel ∈ rels, InRange rel.type (value rel) := by
    by_contra refused
    rw [relocate_alloc_refused value known inside refused] at linked
    cases linked
  rw [relocate_alloc_accepted value inside inRange, Option.some.injEq, Outcome.written.injEq]
    at linked
  rw [← linked]
  exact (patches_relocated value inside inRange separate).reads_back

/-- For any sections the table has one entry for each symbol that is reached through it, and
every such reference that is linked names the entry in which the address of its symbol is. -/
theorem linked_through_table {sections : List (List Rela)}
    (few : sections.flatten.length < 2 ^ 30) {relocated : List (List Relocation)}
    (scanned : scanRelocations Got.empty sections = some (got, relocated)) {data : List Byte}
    (size : data.length = 4 * got.numEntries) :
    List.Forall₂ (List.Forall₂ Keeps) sections relocated ∧
      got.numEntries = ((relocated.flatten.filter fun rel => rel.expr = .R_GOT).map
        Relocation.sym).dedup.length ∧
      ∃ table, relocateAlloc (targetVA addresses got.gotIndex addresses.gotVA) data
          got.relocations = some (.written table) ∧
        ∀ rels ∈ relocated, ∀ address contents result,
          (∀ rel ∈ rels, rel.offset + 4 ≤ contents.length) → rels.Pairwise Separate →
          relocateAlloc (targetVA addresses got.gotIndex address) contents rels =
            some (.written result) →
          ∀ rel ∈ rels, rel.expr = .R_GOT → rel.addend = 0 → ∃ slot < got.numEntries,
            signExtend 9 ((⟨3, 9⟩ : Slot).extract (readAt result rel.offset 4)) =
              (addresses.gotVA.setWidth 32 + BitVec.ofNat 32 (4 * slot)).toInt ∧
            readAt table (4 * slot) 4 = (addresses.symbolVA rel.sym).toNat % 2 ^ 32 := by
  obtain ⟨represents, keeps⟩ := scan_relocations_represents empty_represents
    (by rw [List.length_nil, Nat.zero_add]; exact few) scanned
  have small : (relocated.flatten.foldl enter []).length < 2 ^ 30 := by
    have length := entered_length_le [] relocated.flatten
    rw [List.length_nil, Nat.zero_add, ← kept_length keeps] at length
    omega
  obtain ⟨table, linkedTable, -, entries⟩ := table_relocated addresses represents size
  refine ⟨keeps, ?_, table, linkedTable, ?_⟩
  · have same : (relocated.flatten.foldl enter []).Perm
        ((relocated.flatten.filter fun rel => rel.expr = .R_GOT).map Relocation.sym).dedup := by
      rw [List.perm_ext_iff_of_nodup represents.nodup (List.nodup_dedup _)]
      intro sym
      rw [mem_entered, List.mem_dedup, List.mem_map]
      simp only [List.mem_filter, decide_eq_true_eq, and_assoc, List.not_mem_nil, false_or]
    rw [represents.numEntries, same.length_eq]
  · intro rels listed address contents result inside separate linked rel inRels isGot noAddend
    obtain ⟨relas, -, keptSection⟩ := exists_related keeps listed
    obtain ⟨rela, -, kept⟩ := exists_related keptSection inRels
    have held := linked_fields keptSection inside separate linked rel inRels
    have entered : rel.sym ∈ relocated.flatten.foldl enter [] := by
      rw [mem_entered]
      exact Or.inr ⟨rel, List.mem_flatten_of_mem listed inRels, isGot, rfl⟩
    refine ⟨(relocated.flatten.foldl enter []).idxOf rel.sym, ?_, ?_, ?_⟩
    · rw [represents.numEntries]
      exact List.idxOf_lt_length_of_mem entered
    · rw [got_field kept isGot held, got_value addresses represents small address isGot noAddend
        entered, BitVec.toInt_signExtend_of_le (by decide)]
    · exact entries _ rel.sym (List.getElem?_idxOf entered)

/-- Two sections, which reach two symbols three times. -/
def twoSections : List (List Rela) :=
  [[⟨0, .R_NPU_PCREL_MEM, 0, 7⟩, ⟨4, .R_NPU_BRANCH, 0, 5⟩], [⟨0, .R_NPU_PCREL_LEA, 0, 3⟩,
    ⟨4, .R_NPU_PCREL_MEM, 0, 7⟩]]

def twoRelocated : List (List Relocation) :=
  [[⟨.R_GOT, .R_NPU_PCREL_MEM, 0, 0, 7⟩, ⟨.R_PC, .R_NPU_BRANCH, 4, 0, 5⟩],
    [⟨.R_GOT, .R_NPU_PCREL_LEA, 0, 0, 3⟩, ⟨.R_GOT, .R_NPU_PCREL_MEM, 4, 0, 7⟩]]

def twoAddresses : Addresses := ⟨fun sym => BitVec.ofNat 64 (0x1000 + sym), 0x40⟩

theorem two_sections_linked :
    ∃ got table, scanRelocations Got.empty twoSections = some (got, twoRelocated) ∧
      got.numEntries = 2 ∧
      relocateAlloc (targetVA twoAddresses got.gotIndex 0x40) (List.replicate 8 0)
        got.relocations = some (.written table) := by
  obtain ⟨⟨got, relocated⟩, scanned⟩ := Option.isSome_iff_exists.mp
    (show (scanRelocations Got.empty twoSections).isSome by decide)
  have found : relocated = twoRelocated := by
    have kept : (scanRelocations Got.empty twoSections).map Prod.snd = some twoRelocated := by
      decide
    rw [scanned, Option.map_some, Option.some.injEq] at kept
    exact kept
  subst found
  have two : got.numEntries = 2 := by
    have counted : (scanRelocations Got.empty twoSections).map (fun scan => scan.1.numEntries) =
        some 2 := by decide
    rw [scanned, Option.map_some, Option.some.injEq] at counted
    exact counted
  obtain ⟨-, -, table, linked, -⟩ := linked_through_table twoAddresses (by decide) scanned
    (show (List.replicate 8 (0 : Byte)).length = 4 * got.numEntries by rw [two]; rfl)
  exact ⟨got, table, scanned, two, linked⟩

end Table

end NaplesPU.SectionRelocation
