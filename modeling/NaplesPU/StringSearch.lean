import NaplesPU.Ctype
import NaplesPU.Lib.CStrings
import NaplesPU.Lib.Loops

/-!
The library's `strchr` and `memchr`. They compare plain characters, which are signed, with an
`int` that they do not convert.
-/

namespace NaplesPU.StringSearch

open ByteMemory CStrings Ctype Loops Machine

section Routines

variable (memory : Memory 32) (c : Word)

def strchrBody (s : Word) : Word ⊕ Word :=
  if charValue (memory s) = c then .inl s else .inr (s + 1)

variable {memory}

theorem strchr_shorter (terminated : Terminated memory) (s next : Word)
    (more : decide (memory s ≠ 0) = true) (continued : strchrBody memory c s = .inr next) :
    stringLength terminated next < stringLength terminated s := by
  rw [strchrBody] at continued
  split at continued
  · cases continued
  · cases continued
    rw [string_length_succ terminated (of_decide_eq_true more)]
    exact Nat.lt_succ_self _

/-- A null pointer is `none`. -/
def strchr (terminated : Terminated memory) (string : Word) : Option Word :=
  (returnLoop (fun s => decide (memory s ≠ 0)) (strchrBody memory c) (stringLength terminated)
    (strchr_shorter c terminated) string).getLeft?

variable (memory)

def memchrBody (s i : Word) : Word ⊕ Word :=
  if charValue (memory (s + i)) = c then .inl (s + i) else .inr (i + 1)

theorem memchr_shorter (s n i next : Word) (more : decide (i < n) = true)
    (continued : memchrBody memory c s i = .inr next) :
    n.toNat - next.toNat < n.toNat - i.toNat := by
  have less : i < n := of_decide_eq_true more
  have ordered : i.toNat < n.toNat := less
  rw [memchrBody] at continued
  split at continued
  · cases continued
  · cases continued
    rw [next_index less]
    omega

def memchr (_s n : Word) : Option Word :=
  (returnLoop (fun i => decide (i < n)) (memchrBody memory c _s) (fun i => n.toNat - i.toNat)
    (memchr_shorter memory c _s n) 0).getLeft?

end Routines

section Occurrences

def NoOccurrence (found : Byte → Prop) (memory : Memory 32) (start : Word) (count : Nat) : Prop :=
  ∀ offset < count, ¬ found (memory (start + BitVec.ofNat 32 offset))

/-- The address of the first byte of a kind among those from an address on, or nothing if there
is none. -/
def FirstOccurrence (found : Byte → Prop) (memory : Memory 32) (start : Word) (count : Nat) :
    Option Word → Prop
  | some address => ∃ offset < count, address = start + BitVec.ofNat 32 offset ∧
      found (memory address) ∧ NoOccurrence found memory start offset
  | none => NoOccurrence found memory start count

/-- The bytes that the routines take for the character that they look for. -/
def Taken (c : Word) (byte : Byte) : Prop := charValue byte = c

/-- The bytes equal to the character converted to `char`. -/
def Sought (c : Word) (byte : Byte) : Prop := byte = c.setWidth 8

variable {memory : Memory 32} {start c : Word} {count offset : Nat} {found : Byte → Prop}

theorem no_occurrence_zero : NoOccurrence found memory start 0 :=
  fun offset below => absurd below (Nat.not_lt_zero offset)

theorem no_occurrence_succ (passed : NoOccurrence found memory start offset)
    (different : ¬ found (memory (start + BitVec.ofNat 32 offset))) :
    NoOccurrence found memory start (offset + 1) := by
  intro before below
  rcases Nat.lt_succ_iff_lt_or_eq.mp below with earlier | rfl
  · exact passed before earlier
  · exact different

/-- A search that looks for the character only if a condition holds finds it exactly if the
condition holds or there is none. -/
theorem guarded_search_iff {guard : Prop} {result : Option Word}
    (searched : FirstOccurrence (fun byte => Sought c byte ∧ guard) memory start count result) :
    FirstOccurrence (Sought c) memory start count result ↔
      guard ∨ NoOccurrence (Sought c) memory start count := by
  by_cases holds : guard
  · have same : (fun byte => Sought c byte ∧ guard) = Sought c := by
      funext byte
      rw [and_iff_left holds]
    rw [same] at searched
    exact iff_of_true searched (Or.inl holds)
  · cases result with
    | none =>
        rw [or_iff_right holds]
        exact Iff.rfl
    | some address =>
        obtain ⟨offset, below, located, ⟨sought, holding⟩, first⟩ := searched
        exact absurd holding holds

theorem memchr_finds (memory : Memory 32) (c _s n : Word) :
    FirstOccurrence (Taken c) memory _s n.toNat (memchr memory c _s n) := by
  have loop := @return_invariant Word Word (fun i => decide (i < n)) (memchrBody memory c _s)
    (fun i => n.toNat - i.toNat) (memchr_shorter memory c _s n)
    (fun i => i.toNat ≤ n.toNat ∧ NoOccurrence (Taken c) memory _s i.toNat)
    (fun address => FirstOccurrence (Taken c) memory _s n.toNat (some address))
    ?kept 0 ⟨Nat.zero_le _, no_occurrence_zero⟩
  case kept =>
    rintro i ⟨within, passed⟩ more
    have less : i < n := of_decide_eq_true more
    have ordered : i.toNat < n.toNat := less
    have index : BitVec.ofNat 32 i.toNat = i := by
      rw [BitVec.ofNat_toNat, BitVec.setWidth_eq]
    rw [memchrBody]
    split
    · rename_i equal
      exact ⟨i.toNat, ordered, by rw [index], equal, passed⟩
    · rename_i different
      rw [← index] at different
      rw [Sum.elim_inr, next_index less]
      exact ⟨ordered, no_occurrence_succ passed different⟩
  rw [memchr]
  cases outcome : returnLoop (fun i => decide (i < n)) (memchrBody memory c _s)
    (fun i => n.toNat - i.toNat) (memchr_shorter memory c _s n) 0 with
  | inl address =>
      rw [outcome] at loop
      exact loop
  | inr i =>
      rw [outcome] at loop
      obtain ⟨⟨within, passed⟩, stopped⟩ := loop
      have reached : ¬ i.toNat < n.toNat := of_decide_eq_false stopped
      intro offset below
      exact passed offset (by omega)

/-- The loop of `strchr` sees the bytes before the terminator. -/
theorem strchr_finds (terminated : Terminated memory) (string c : Word) :
    FirstOccurrence (Taken c) memory string (stringLength terminated string)
      (strchr c terminated string) := by
  have loop := @return_invariant Word Word (fun s => decide (memory s ≠ 0)) (strchrBody memory c)
    (stringLength terminated) (strchr_shorter c terminated)
    (fun s => ∃ offset, s = string + BitVec.ofNat 32 offset ∧
      NoOccurrence (fun byte => byte = 0) memory string offset ∧
      NoOccurrence (Taken c) memory string offset)
    (fun address => FirstOccurrence (Taken c) memory string (stringLength terminated string)
      (some address))
    ?kept string ⟨0, (BitVec.add_zero string).symm, no_occurrence_zero, no_occurrence_zero⟩
  case kept =>
    rintro s ⟨offset, rfl, nonzero, passed⟩ more
    have longer := no_occurrence_succ nonzero (of_decide_eq_true more)
    rw [strchrBody]
    split
    · rename_i equal
      exact ⟨offset, lt_string_length terminated longer, rfl, equal, passed⟩
    · rename_i different
      exact ⟨offset + 1, offset_add_one string offset, longer,
        no_occurrence_succ passed different⟩
  rw [strchr]
  cases outcome : returnLoop (fun s => decide (memory s ≠ 0)) (strchrBody memory c)
    (stringLength terminated) (strchr_shorter c terminated) string with
  | inl address =>
      rw [outcome] at loop
      exact loop
  | inr s =>
      rw [outcome] at loop
      obtain ⟨⟨reached, rfl, nonzero, passed⟩, stopped⟩ := loop
      have zero := not_not.mp (of_decide_eq_false stopped)
      rw [string_length_eq terminated nonzero zero]
      exact passed

theorem taken_iff : Taken c = fun byte => Sought c byte ∧ InCharRange c := by
  funext byte
  exact propext char_value_eq_iff

/-- With the terminator counted, the loop passes over a zero that it is to find. -/
theorem strchr_finds_nonzero (terminated : Terminated memory) (string c : Word) :
    FirstOccurrence (fun byte => Sought c byte ∧ InCharRange c ∧ c ≠ 0) memory string
      (stringLength terminated string + 1) (strchr c terminated string) := by
  have searched := strchr_finds terminated string c
  have weaker {count : Nat} (passed : NoOccurrence (Taken c) memory string count) :
      NoOccurrence (fun byte => Sought c byte ∧ InCharRange c ∧ c ≠ 0) memory string count := by
    rintro offset below ⟨sought, inRange, nonzero⟩
    exact passed offset below (char_value_eq_iff.mpr ⟨sought, inRange⟩)
  cases outcome : strchr c terminated string with
  | some address =>
      rw [outcome] at searched
      obtain ⟨offset, below, rfl, taken, passed⟩ := searched
      have equal := char_value_eq_iff.mp taken
      refine ⟨offset, Nat.lt_succ_of_lt below, rfl, ⟨equal.1, equal.2, ?_⟩, weaker passed⟩
      rintro rfl
      exact byte_before_length terminated below equal.1
  | none =>
      rw [outcome] at searched
      apply no_occurrence_succ (weaker searched)
      rintro ⟨sought, inRange, nonzero⟩
      rw [byte_at_length terminated] at sought
      exact nonzero (char_value_eq_iff.mpr ⟨sought, inRange⟩).symm

/-- The searches are right exactly if the character fits into a `char`, and is not the
terminator in `strchr`, or does not occur. -/
theorem searches_iff (memory : Memory 32) (s c n : Word) :
    (FirstOccurrence (Sought c) memory s n.toNat (memchr memory c s n) ↔
      InCharRange c ∨ NoOccurrence (Sought c) memory s n.toNat) ∧
    ∀ terminated : Terminated memory,
      FirstOccurrence (Sought c) memory s (stringLength terminated s + 1)
          (strchr c terminated s) ↔
        InCharRange c ∧ c ≠ 0 ∨
          NoOccurrence (Sought c) memory s (stringLength terminated s + 1) := by
  constructor
  · apply guarded_search_iff
    rw [← taken_iff]
    exact memchr_finds memory c s n
  · intro terminated
    exact guarded_search_iff (strchr_finds_nonzero terminated s c)

def oneLetter : Memory 32 := fun cell => if cell = 0x10 then 0x61 else 0

theorem one_letter_terminated : Terminated oneLetter := ⟨0, by decide⟩

theorem letter_found :
    FirstOccurrence (Sought 0x61) oneLetter 0x10 1 (memchr oneLetter 0x61 0x10 1) ∧
      FirstOccurrence (Sought 0x61) oneLetter 0x10 (stringLength one_letter_terminated 0x10 + 1)
        (strchr 0x61 one_letter_terminated 0x10) := by
  have searches := searches_iff oneLetter 0x10 0x61 1
  exact ⟨searches.1.mpr (Or.inl (by decide)),
    (searches.2 one_letter_terminated).mpr (Or.inl (by decide))⟩

theorem terminator_missed :
    ¬ ∀ (memory : Memory 32) (s c n : Word),
      FirstOccurrence (Sought c) memory s n.toNat (memchr memory c s n) ∧
        ∀ terminated : Terminated memory,
          FirstOccurrence (Sought c) memory s (stringLength terminated s + 1)
            (strchr c terminated s) := by
  intro right
  have found := (right oneLetter 0x20 0 0).2 one_letter_terminated
  have searched := guarded_search_iff (strchr_finds_nonzero one_letter_terminated 0x20 0)
  rcases searched.mp found with ⟨inRange, nonzero⟩ | passed
  · exact nonzero rfl
  · exact passed 0 (Nat.succ_pos _) rfl

end Occurrences

end NaplesPU.StringSearch
