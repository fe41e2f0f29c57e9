import OpenMethodBench.Lib.DefUse
import OpenMethodBench.Lib.Sampling
import OpenMethodBench.Spec.Hierarchy
import OpenMethodBench.Spec.Env
import OpenMethodBench.Spec.Verify
import OpenMethodBench.Proofs.GateCoverage
import OpenMethodBench.Proofs.GateDiscrimination
import OpenMethodBench.Lib.Slicing
import OpenMethodBench.Lib.Text
import OpenMethodBench.Spec.Asm
import OpenMethodBench.Proofs.SliceLoop
import OpenMethodBench.Proofs.SlicePrecision
import OpenMethodBench.Spec.Machine
import OpenMethodBench.Proofs.SliceRendering
import OpenMethodBench.Proofs.SliceSoundness
import OpenMethodBench.Proofs.SliceArguments
import OpenMethodBench.Proofs.AffineReport
import OpenMethodBench.Lib.Dict
import OpenMethodBench.Proofs.CsvRoundTrip
import OpenMethodBench.Lib.Script
import OpenMethodBench.Spec.Manifest
import OpenMethodBench.Spec.Generator
import OpenMethodBench.Lib.Outcome
import OpenMethodBench.Proofs.TableReads
import OpenMethodBench.Spec.Variants
import OpenMethodBench.Proofs.GeneratorRun
import OpenMethodBench.Proofs.Datasets
import OpenMethodBench.Proofs.Rendering
import OpenMethodBench.Proofs.PassCount
import OpenMethodBench.Proofs.ManifestColumns
import OpenMethodBench.Proofs.ControlEffect
import OpenMethodBench.Lib.Bisect
import OpenMethodBench.Spec.Symbols
import OpenMethodBench.Proofs.SymbolLookup
import OpenMethodBench.Proofs.PairedDraws
import OpenMethodBench.Proofs.DispatchStores
import OpenMethodBench.Lib.Reaching
import OpenMethodBench.Spec.Roles
import OpenMethodBench.Proofs.RolePass
import OpenMethodBench.Proofs.RoleInference
import OpenMethodBench.Proofs.FactorRoles
import OpenMethodBench.Lib.Depth
import OpenMethodBench.Spec.Chain
import OpenMethodBench.Proofs.ChainText
import OpenMethodBench.Proofs.ChainDepth
import OpenMethodBench.Proofs.ChainPaths
import OpenMethodBench.Proofs.AddressArithmetic
import OpenMethodBench.Proofs.Respelling
import OpenMethodBench.Proofs.OpenOperand
import OpenMethodBench.Spec.Stack
import OpenMethodBench.Proofs.StackText
import OpenMethodBench.Proofs.StackSlots
import OpenMethodBench.Spec.Globals
import OpenMethodBench.Proofs.GlobalReads
import OpenMethodBench.Proofs.AliasInvariance
import OpenMethodBench.Spec.Align
import OpenMethodBench.Proofs.Aligning
import OpenMethodBench.Lib.Rounding
import OpenMethodBench.Proofs.IndirectDelta
import OpenMethodBench.Spec.Statistics
import OpenMethodBench.Proofs.Statistics
import OpenMethodBench.Spec.Flush
import OpenMethodBench.Proofs.ColdLines
import OpenMethodBench.Spec.Consistent
import OpenMethodBench.Proofs.FieldNames
import OpenMethodBench.Lib.Words
import OpenMethodBench.Spec.Scripts
import OpenMethodBench.Proofs.ManifestReaders
import OpenMethodBench.Lib.Strto
import OpenMethodBench.Spec.CommandLine
import OpenMethodBench.Proofs.CommandLine
import OpenMethodBench.Spec.Allocation
import OpenMethodBench.Proofs.AllocationBlind
import OpenMethodBench.Lib.Spacing
import OpenMethodBench.Spec.Objdump
import OpenMethodBench.Proofs.Disassembly
import OpenMethodBench.Lib.Substitute
import OpenMethodBench.Spec.Extract
import OpenMethodBench.Proofs.NamedOperands
import OpenMethodBench.Proofs.ExtractRun
import OpenMethodBench.Proofs.OracleGate
import OpenMethodBench.Lib.Columns
import OpenMethodBench.Lib.Fill
import OpenMethodBench.Spec.Document
import OpenMethodBench.Proofs.Prose
import OpenMethodBench.Proofs.ReadBack
import OpenMethodBench.Proofs.ListingBlocks
import OpenMethodBench.Proofs.SummaryTable
import OpenMethodBench.Proofs.ShownProse
import OpenMethodBench.Proofs.Document
import OpenMethodBench.Proofs.PublishedWhen
import OpenMethodBench.Lib.Steps
import OpenMethodBench.Spec.Matrix
import OpenMethodBench.Proofs.MatrixRun
import OpenMethodBench.Proofs.MatrixReport
import OpenMethodBench.Proofs.LabReport
import OpenMethodBench.Proofs.PublishedFigures
import OpenMethodBench.Spec.Session
import OpenMethodBench.Proofs.SessionFigures
import OpenMethodBench.Proofs.SessionFile
import OpenMethodBench.Spec.Lab
import OpenMethodBench.Proofs.LabRun
import OpenMethodBench.Spec.Readme
import OpenMethodBench.Proofs.TableBack
import OpenMethodBench.Proofs.ReportCells
import OpenMethodBench.Proofs.ReportBack
