import MethodEdit.Code
import MethodEdit.Command.Answer
import MethodEdit.Command.Code
import MethodEdit.Command.Session
import MethodEdit.Command.Symbols
import MethodEdit.Decimal.Binary
import MethodEdit.Decimal.Shortest
import MethodEdit.Decimal.Style
import MethodEdit.Edit
import MethodEdit.EditError
import MethodEdit.Flags
import MethodEdit.Graph.Basic
import MethodEdit.Graph.Cache
import MethodEdit.Graph.Core
import MethodEdit.Graph.Lookup
import MethodEdit.Injection.Binding
import MethodEdit.Injection.Branch
import MethodEdit.Injection.Bulk
import MethodEdit.Injection.Call
import MethodEdit.Injection.Constant
import MethodEdit.Injection.Replace
import MethodEdit.Instruction
import MethodEdit.Label
import MethodEdit.Member
import MethodEdit.ModelError
import MethodEdit.Name
import MethodEdit.Opcode
import MethodEdit.Operand
import MethodEdit.Query
import MethodEdit.Session.Basic
import MethodEdit.Session.Edit
import MethodEdit.Session.Search
import MethodEdit.Settings
import MethodEdit.Symbols.Basic
import MethodEdit.Symbols.Labels
import MethodEdit.Symbols.Slots
import MethodEdit.Text.Blank
import MethodEdit.Text.Layout
import MethodEdit.Text.Quoted
import MethodEdit.Text.Unprintable
import MethodEdit.Types.Assignable
import MethodEdit.Types.Basic
import MethodEdit.Types.Fit
import MethodEdit.Proofs.Edit
import MethodEdit.Proofs.Symbols.Index
import MethodEdit.Proofs.Symbols.Growth
import MethodEdit.Proofs.Code.Placement
import MethodEdit.Proofs.Session.Synced
import MethodEdit.Proofs.Session.Evolution
import MethodEdit.Proofs.Session.Operations
import MethodEdit.Proofs.Session.Reachable
import MethodEdit.Proofs.Session.Transaction
import MethodEdit.Proofs.Session.AllOrNothing
import MethodEdit.Proofs.Code.Flow
import MethodEdit.Proofs.Code.Relocation
import MethodEdit.Proofs.Code.Undoing
import MethodEdit.Proofs.Injection.Binding
import MethodEdit.Proofs.Injection.Block
import MethodEdit.Proofs.Injection.SingleEntry
import MethodEdit.Proofs.Injection.StackTypes
import MethodEdit.Proofs.Injection.Contract
import MethodEdit.Proofs.Session.JumpTargets
import MethodEdit.Proofs.Injection.Addresses
import MethodEdit.Proofs.Session.Steps
import MethodEdit.Proofs.Session.Reopening
import MethodEdit.Proofs.Session.Refusals
import MethodEdit.Proofs.Session.FreshLabels
import MethodEdit.Proofs.Symbols.Placeholders
import MethodEdit.Proofs.Symbols.Names
import MethodEdit.Proofs.Symbols.ChosenNames
import MethodEdit.Proofs.Symbols.Rollback
import MethodEdit.Proofs.Session.Growth
import MethodEdit.Proofs.Graph.Caching
import MethodEdit.Proofs.Graph.Hierarchy
import MethodEdit.Proofs.Graph.Identity
import MethodEdit.Proofs.Graph.Overloads
import MethodEdit.Proofs.Graph.Reachability
import MethodEdit.Proofs.Graph.References
import MethodEdit.Proofs.Graph.Resolution
import MethodEdit.Proofs.Graph.TypeNames
import MethodEdit.Proofs.Session.Numbering
import MethodEdit.Proofs.Session.Searching
import MethodEdit.Proofs.Session.Encodings
import MethodEdit.Proofs.Injection.Decisions
import MethodEdit.Proofs.Injection.Returns
import MethodEdit.Proofs.Injection.Rebinding
import MethodEdit.Proofs.Injection.Bulk
import MethodEdit.Proofs.Injection.BulkCalls
import MethodEdit.Proofs.Injection.Constants
import MethodEdit.Proofs.Session.HandingBack
