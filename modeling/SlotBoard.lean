import SlotBoard.Editor.Session
import SlotBoard.Files.Tree
import SlotBoard.Main
import SlotBoard.Module.Script
import SlotBoard.Proofs.Draft
import SlotBoard.Proofs.Patching
import SlotBoard.Proofs.Region
import SlotBoard.Proofs.Function
import SlotBoard.Proofs.Validity
import SlotBoard.Proofs.Calls
import SlotBoard.Proofs.Twins
import SlotBoard.Proofs.Parallel
import SlotBoard.Proofs.Independence
import SlotBoard.Proofs.Layout
import SlotBoard.Proofs.TwoPass
import SlotBoard.Proofs.Branches
import SlotBoard.Proofs.Machine
import SlotBoard.Proofs.Names
import SlotBoard.Proofs.Agreement
import SlotBoard.Proofs.Simulation
import SlotBoard.Proofs.Correctness
import SlotBoard.Proofs.Numbering
import SlotBoard.Proofs.Appending
import SlotBoard.Proofs.SymbolTable
import SlotBoard.Proofs.Acceptance
import SlotBoard.Proofs.Reports
import SlotBoard.Proofs.Operands
import SlotBoard.Proofs.Blocks
import SlotBoard.Proofs.Dominance
import SlotBoard.Proofs.Shape
import SlotBoard.Proofs.Cbor
import SlotBoard.Proofs.Snapshot
import SlotBoard.Proofs.Construction
import SlotBoard.Proofs.Forms
import SlotBoard.Proofs.Text
import SlotBoard.Proofs.JsonText
import SlotBoard.Proofs.Transcription
import SlotBoard.Proofs.Documents
import SlotBoard.Proofs.FileTree
import SlotBoard.Proofs.Store
import SlotBoard.Proofs.Log
import SlotBoard.Proofs.Session
import SlotBoard.Proofs.Delivery
import SlotBoard.Proofs.CommandRun
import SlotBoard.Proofs.Preview
import SlotBoard.Proofs.Workers
import SlotBoard.Proofs.SingleExit
import SlotBoard.Proofs.Abandoned
import SlotBoard.Proofs.Temporaries
import SlotBoard.Proofs.Opcodes
import SlotBoard.Proofs.Warnings
import SlotBoard.Proofs.ControlFlow
import SlotBoard.Proofs.Loops
import SlotBoard.Proofs.Traversal
import SlotBoard.Proofs.Word
import SlotBoard.Proofs.Faults
import SlotBoard.Proofs.Path
import SlotBoard.Proofs.FileView
import SlotBoard.Proofs.Search
import SlotBoard.Proofs.Pattern
import SlotBoard.Proofs.TreeView
import SlotBoard.Proofs.Expansion
import SlotBoard.Proofs.Sources
