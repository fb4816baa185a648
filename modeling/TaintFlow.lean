import TaintFlow.Replay.Report
import TaintFlow.Text.Hex
import TaintFlow.Proofs.Overwriting
import TaintFlow.Proofs.Queries
import TaintFlow.Proofs.Safety
import TaintFlow.Proofs.TraceText
import TaintFlow.Proofs.ConfigText
import TaintFlow.Proofs.Snapshots
import TaintFlow.Proofs.Bitmaps
import TaintFlow.Proofs.ReportContents
import TaintFlow.Proofs.Independence
import TaintFlow.Proofs.RecordEdits
import TaintFlow.Proofs.SortedList
import TaintFlow.Proofs.Subtraction
import TaintFlow.Proofs.EditedText
import TaintFlow.Proofs.RegisterMap
import TaintFlow.Proofs.RegisterRanges
import TaintFlow.Proofs.ByteTotals
import TaintFlow.Proofs.SaveRestore
import TaintFlow.Proofs.Addressing
import TaintFlow.Proofs.Classification
import TaintFlow.Proofs.LayoutRules
import TaintFlow.Proofs.Packing
import TaintFlow.Proofs.Height
