import NaplesPU.Lib.ByteMemory
import NaplesPU.FixupKinds

/-!
The assembler backend: the table of fixup kinds, the value it computes for a
fixup, and how it writes that value into the four bytes at the fixup. The table
declares a row for each of the six kinds and initialises four of them.
-/

namespace NaplesPU.AsmBackend

open ByteMemory FixupKinds

/-- How a value reached the bytes of a section: written, refused with a range error,
or by an operation the language leaves undefined. -/
inductive Outcome where
  | written (data : List Byte)
  | outOfRange
  | undefinedBehaviour
deriving DecidableEq

structure MCFixupKindInfo where
  targetOffset : Nat
  targetSize : Nat
  isPCRel : Bool
deriving DecidableEq, Repr

/-- The rows of `Infos` that have an initialiser. -/
def infos : List MCFixupKindInfo := [⟨0, 18, true⟩, ⟨3, 9, true⟩, ⟨3, 9, true⟩, ⟨3, 9, true⟩]

/-- A row past the initialisers is zero in every member. -/
def getFixupKindInfo : MCFixupKind → MCFixupKindInfo
  | .FK_Data_4 => ⟨0, 32, false⟩
  | .target kind => infos.getD kind.index ⟨0, 0, false⟩

/-- The value is returned as `unsigned`, so only thirty-two bits of it survive. -/
def adjustFixupValue (value : BitVec 64) : BitVec 64 := (value.setWidth 32).setWidth 64

/-- The word of a fixup with the value ored into its target bits; there is no range
check. A shift by the full width of the mask is undefined. -/
def fixupWord (info : MCFixupKindInfo) (curVal value : BitVec 64) : Option (BitVec 64) :=
  if 64 - info.targetSize < 64 then
    let mask := BitVec.allOnes 64 >>> (64 - info.targetSize)
    some (curVal ||| ((adjustFixupValue value <<< info.targetOffset) &&&
      (mask <<< info.targetOffset)))
  else none

def applyFixup (kind : MCFixupKind) (data : List Byte) (offset : Nat) (value : BitVec 64) :
    Outcome :=
  if offset + 4 ≤ data.length then
    match fixupWord (getFixupKindInfo kind) (BitVec.ofNat 64 (readAt data offset 4)) value with
    | some word => .written (writeAt data offset 4 word.toNat)
    | none => .undefinedBehaviour
  else .undefinedBehaviour

/-- The value of a fixup against a symbol defined in the section of the fixup: constant
plus symbol offset, less the thirty-two bit offset of the fixup if it is PC-relative. -/
def evaluateFixup (kind : MCFixupKind) (constant symbolOffset : BitVec 64)
    (fixupOffset : BitVec 32) : BitVec 64 :=
  if (getFixupKindInfo kind).isPCRel then constant + symbolOffset - fixupOffset.setWidth 64
  else constant + symbolOffset

end NaplesPU.AsmBackend
