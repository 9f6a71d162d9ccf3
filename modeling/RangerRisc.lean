import RangerRisc.Core
import RangerRisc.Instruction
import RangerRisc.Refinement
import RangerRisc.SeqCores
import RangerRisc.CsrCore
import RangerRisc.Isa
import RangerRisc.SynthesisCore
import RangerRisc.Agreement
import RangerRisc.Boundary
import RangerRisc.MemoryInstructions
import RangerRisc.Reset
import RangerRisc.FetchCoherence
import RangerRisc.PcParity
import RangerRisc.Interrupts
import RangerRisc.InterruptProtocol
import RangerRisc.Lib.Accumulator
import RangerRisc.Lib.ShiftRegister
import RangerRisc.Uart
import RangerRisc.UartFrame
import RangerRisc.UartLoopback
import RangerRisc.AssemblerUtils
import RangerRisc.Assemblers
import RangerRisc.AssemblerLines
import RangerRisc.Lib.Rv32iFormats
import RangerRisc.AssemblerDecode
import RangerRisc.AssemblerSections
import RangerRisc.Shifts
import RangerRisc.CsrInstructions
import RangerRisc.ResetFlush
import RangerRisc.Ports
import RangerRisc.PortFrame
import RangerRisc.AssemblerPasses
import RangerRisc.DebugLink
import RangerRisc.DebugLinkRun
import RangerRisc.SpiSlave
import RangerRisc.SpiHalf
import RangerRisc.SpiFrame
import RangerRisc.SpiRun
import RangerRisc.SpiTransfers
import RangerRisc.MeipReadOnly
import RangerRisc.MicroCodeMatrixCSRs
import RangerRisc.Unrecognised
import RangerRisc.AssemblerCsrs
import RangerRisc.PcRelative
import RangerRisc.AssemblerMain
import RangerRisc.MachineCodes
import RangerRisc.OperandLines
import RangerRisc.LabelAddresses
import RangerRisc.MemoryAssembly
import RangerRisc.MemoryOperands
import RangerRisc.References
import RangerRisc.UndefinedLabels
import RangerRisc.LabelTargets
import RangerRisc.Lib.TwoRuns
import RangerRisc.TrailingComments
import RangerRisc.TwosComplement
import RangerRisc.Console
import RangerRisc.ConsoleMemory
import RangerRisc.Lib.Blocks
import RangerRisc.SectionOverlap
import RangerRisc.SpiLength
import RangerRisc.SpiAgree
import RangerRisc.SpiReset
import RangerRisc.DebugCommands
import RangerRisc.StatusFrame
import RangerRisc.BaudTolerance
import RangerRisc.Hart
import RangerRisc.HartSteps
import RangerRisc.HartRuns
import RangerRisc.HartProgress
import RangerRisc.HartTraps
import RangerRisc.InterruptMasking
import RangerRisc.RamFile
import RangerRisc.Programs
import RangerRisc.UartRecovery
import RangerRisc.LineReader
import RangerRisc.SourceFiles
import RangerRisc.UartChannel
import RangerRisc.ConsoleSession
