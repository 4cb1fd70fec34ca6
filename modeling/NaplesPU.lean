import NaplesPU.Lib.BitLayout
import NaplesPU.Lib.TwosComplement
import NaplesPU.Lib.ByteMemory
import NaplesPU.Lib.StepRuns
import NaplesPU.Lib.TraceSimulation
import NaplesPU.Lib.Interleaving
import NaplesPU.Lib.CStrings
import NaplesPU.Lib.Loops
import NaplesPU.Lib.ExchangeSort
import NaplesPU.Lib.Alignment
import NaplesPU.Lib.Rounding
import NaplesPU.Lib.Scanning
import NaplesPU.Lib.Comparison
import NaplesPU.Lib.Lanes
import NaplesPU.Lib.KeyedTables
import NaplesPU.Lib.AffineOrbits
import NaplesPU.Lib.SeparateWrites
import NaplesPU.Lib.CodeLayout
import NaplesPU.Lib.Assertions
import NaplesPU.RegisterInfo
import NaplesPU.InstrFormats
import NaplesPU.InstrInfo
import NaplesPU.DecoderTable
import NaplesPU.FixupKinds
import NaplesPU.MCCodeEmitter
import NaplesPU.Disassembler
import NaplesPU.EncodeDecode
import NaplesPU.AsmBackend
import NaplesPU.ELFRelocations
import NaplesPU.FixupAgreement
import NaplesPU.RelocationWrites
import NaplesPU.SectionRelocation
import NaplesPU.FixupBytes
import NaplesPU.Machine
import NaplesPU.AtomicExpansion
import NaplesPU.AtomicRuns
import NaplesPU.AtomicThreads
import NaplesPU.BranchAnalysis
import NaplesPU.DebugValues
import NaplesPU.BranchTargets
import NaplesPU.CallingConv
import NaplesPU.ReturnConvention
import NaplesPU.OperationActions
import NaplesPU.VariadicArguments
import NaplesPU.DivisionLowering
import NaplesPU.UnsignedConversion
import NaplesPU.RuntimeDivision
import NaplesPU.FrameLayout
import NaplesPU.StackSlots
import NaplesPU.SpillRecognisers
import NaplesPU.FrameLowering
import NaplesPU.CallStack
import NaplesPU.FrameIndices
import NaplesPU.CallPassing
import NaplesPU.WorstCaseFrame
import NaplesPU.ConstantLoads
import NaplesPU.MaskedLanes
import NaplesPU.Memcpy
import NaplesPU.RoutineImages
import NaplesPU.MemcpyImage
import NaplesPU.Memset
import NaplesPU.Ctype
import NaplesPU.StringCompare
import NaplesPU.CaseCompare
import NaplesPU.StringSearch
import NaplesPU.Strncpy
import NaplesPU.Numerals
import NaplesPU.Atoi
import NaplesPU.Strtof
import NaplesPU.Strtol
import NaplesPU.Qsort
import NaplesPU.Bsearch
import NaplesPU.Rand
import NaplesPU.AddressLowering
import NaplesPU.SelectionDAG
import NaplesPU.SelectionTypes
import NaplesPU.CompareLowering
import NaplesPU.SelectLowering
import NaplesPU.ShuffleLowering
import NaplesPU.SelectExpansion
import NaplesPU.ExpandISelPseudos
import NaplesPU.MainCreate
import NaplesPU.Elf2Hex
import NaplesPU.HexImage
import NaplesPU.Startup
import NaplesPU.Preload
import NaplesPU.BootProtocol
import NaplesPU.AsmStrings
import NaplesPU.AsmLexer
import NaplesPU.AsmParser
import NaplesPU.StatementGrammar
import NaplesPU.AsmStatements
import NaplesPU.AsmMatching
import NaplesPU.AliasEncoding
import NaplesPU.LeaEncoding
import NaplesPU.OperandRanges
import NaplesPU.InstPrinter
import NaplesPU.DecodedWords
import NaplesPU.PrintedText
import NaplesPU.PrintAssemble
import NaplesPU.Listings
import NaplesPU.HexProgram
import NaplesPU.SortedSearch
import NaplesPU.StringCopies
import NaplesPU.BootAccesses
import NaplesPU.ConcurrentBoot
