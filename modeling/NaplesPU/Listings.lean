import NaplesPU.PrintAssemble

/-!
The listing of a whole image, line by line, and what the assembler makes of it. Words that do not
decode are left out of the listing; the others come back as each does by itself.
-/

namespace NaplesPU.Listings

open BitLayout ByteMemory Scanning
open InstrFormats InstrInfo DecoderTable FixupKinds MCCodeEmitter Disassembler EncodeDecode
open AsmLexer AsmParser AsmStatements AsmMatching InstPrinter DecodedWords PrintedText PrintAssemble

section Printing

variable (symbolName : Nat → List Char)

def image (words : List Nat) : List Byte := words.flatMap (bytesLE 4)

end Printing

section Lines

variable {symbolName : Nat → List Char}

end Lines

section Assembling

variable (context : MCContext)

end Assembling

section Images

end Images

end NaplesPU.Listings
