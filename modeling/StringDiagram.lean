import StringDiagram.Category
import StringDiagram.Asked
import StringDiagram.Drawing
import StringDiagram.Fault.Message
import StringDiagram.Note.Text
import StringDiagram.Value.Identity
import StringDiagram.Value.Order
import StringDiagram.Proofs.Diagram.Consistent
import StringDiagram.Proofs.Diagram.Wires
import StringDiagram.Proofs.Store.Runs
import StringDiagram.Proofs.Network.Walks
import StringDiagram.Proofs.Network.Chains
import StringDiagram.Proofs.Diagram.Spliced
import StringDiagram.Proofs.Store.Copies
import StringDiagram.Proofs.Substitution.Inlined
import StringDiagram.Proofs.Substitution.Chains
import StringDiagram.Proofs.Network.Stages
import StringDiagram.Proofs.Substitution.Stages
import StringDiagram.Proofs.Substitution.Renumbered
import StringDiagram.Proofs.Substitution.Independent
import StringDiagram.Proofs.Substitution.Inward
import StringDiagram.Proofs.Substitution.Nested
import StringDiagram.Proofs.Store.Texts
import StringDiagram.Proofs.Store.Matched
import StringDiagram.Proofs.Substitution.Direct
import StringDiagram.Proofs.Category.Plan
import StringDiagram.Proofs.Category.Blueprint
import StringDiagram.Proofs.Category.Likeness
import StringDiagram.Proofs.Category.Graft
import StringDiagram.Proofs.Category.Tips
import StringDiagram.Proofs.Category.Scaffold
import StringDiagram.Proofs.Category.Joined
import StringDiagram.Proofs.Category.Operations
import StringDiagram.Proofs.Category.Correspond
import StringDiagram.Proofs.Category.Terms
import StringDiagram.Proofs.Category.Laws
import StringDiagram.Proofs.Validity.Types
import StringDiagram.Proofs.Validity.Splicing
import StringDiagram.Proofs.Validity.Substituted
import StringDiagram.Proofs.Network.Lines
import StringDiagram.Proofs.Linear.Ports
import StringDiagram.Proofs.Linear.Spliced
import StringDiagram.Proofs.Linear.Substituted
import StringDiagram.Proofs.Category.Apart
import StringDiagram.Proofs.Linear.Strands
import StringDiagram.Proofs.Linear.Assembled
import StringDiagram.Proofs.Linear.Composites
import StringDiagram.Proofs.Flattening.Layers
import StringDiagram.Proofs.Flattening.Ranks
import StringDiagram.Proofs.Flattening.Opening
import StringDiagram.Proofs.Store.Carried
import StringDiagram.Proofs.Flattening.Unfolding
import StringDiagram.Proofs.Flattening.Progress
import StringDiagram.Proofs.Flattening.Agreement
import StringDiagram.Proofs.Flattening.Confluence
import StringDiagram.Proofs.Network.Orders
import StringDiagram.Proofs.Substitution.Orders
import StringDiagram.Proofs.Category.Composed
import StringDiagram.Proofs.Drawing.Codes
import StringDiagram.Proofs.Drawing.Injective
import StringDiagram.Proofs.Diagram.Listing
import StringDiagram.Proofs.Store.Readings
import StringDiagram.Proofs.Store.Histories
import StringDiagram.Proofs.Diagram.Extends
import StringDiagram.Proofs.Substitution.Refused
import StringDiagram.Proofs.Substitution.Retained
import StringDiagram.Proofs.Diagram.Revision
import StringDiagram.Proofs.Store.Refusals
import StringDiagram.Proofs.Linear.Solo
import StringDiagram.Proofs.Category.Units
import StringDiagram.Proofs.Category.Generators
import StringDiagram.Proofs.Store.Sessions
import StringDiagram.Proofs.Substitution.Copied
import StringDiagram.Proofs.Substitution.Itself
import StringDiagram.Proofs.Category.Served
import StringDiagram.Proofs.Value.Products
import StringDiagram.Proofs.Validity.Inserted
import StringDiagram.Proofs.Drawing.Tokens
import StringDiagram.Proofs.Drawing.Labels
import StringDiagram.Proofs.Drawing.Reading
import StringDiagram.Proofs.Drawing.Cells
import StringDiagram.Proofs.Drawing.Panels
import StringDiagram.Proofs.Drawing.Attached
