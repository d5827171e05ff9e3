import GraphSplice.Application
import GraphSplice.Ascending
import GraphSplice.Combination
import GraphSplice.CommandLine.Arguments
import GraphSplice.CommandLine.Run
import GraphSplice.Derivation
import GraphSplice.Domain
import GraphSplice.Dungeon
import GraphSplice.Dungeon.Growth
import GraphSplice.Ends
import GraphSplice.Event
import GraphSplice.Footprint
import GraphSplice.Grammar
import GraphSplice.Grammar.Text
import GraphSplice.Graph
import GraphSplice.Graph.Shapes
import GraphSplice.Handle
import GraphSplice.Json
import GraphSplice.Json.Decimal
import GraphSplice.Json.Reader
import GraphSplice.Json.Scalar
import GraphSplice.Json.Typed
import GraphSplice.Json.Value
import GraphSplice.Main
import GraphSplice.Matching
import GraphSplice.Pattern
import GraphSplice.Power
import GraphSplice.Profile.Access
import GraphSplice.Profile.Directory
import GraphSplice.Profile.Error
import GraphSplice.Profile.Name
import GraphSplice.Profile.Store
import GraphSplice.Proofs.Adjacency
import GraphSplice.Proofs.Application
import GraphSplice.Proofs.Ascending
import GraphSplice.Proofs.Binding
import GraphSplice.Proofs.Blueprint
import GraphSplice.Proofs.Blueprint.Assembly
import GraphSplice.Proofs.Blueprint.Batch
import GraphSplice.Proofs.Blueprint.Carrying
import GraphSplice.Proofs.Blueprint.Classes
import GraphSplice.Proofs.Blueprint.Continuation
import GraphSplice.Proofs.Blueprint.Correspondence
import GraphSplice.Proofs.Blueprint.Cutting
import GraphSplice.Proofs.Blueprint.Detached
import GraphSplice.Proofs.Blueprint.Growth
import GraphSplice.Proofs.Blueprint.Independence
import GraphSplice.Proofs.Blueprint.Insertion
import GraphSplice.Proofs.Blueprint.Isomorphism
import GraphSplice.Proofs.Blueprint.Leads
import GraphSplice.Proofs.Blueprint.Provenance
import GraphSplice.Proofs.Blueprint.Reading
import GraphSplice.Proofs.Blueprint.Realization
import GraphSplice.Proofs.Blueprint.Refusal
import GraphSplice.Proofs.Blueprint.Removal
import GraphSplice.Proofs.Blueprint.Renaming
import GraphSplice.Proofs.Blueprint.Reordering
import GraphSplice.Proofs.Blueprint.Replacement
import GraphSplice.Proofs.Blueprint.Separation
import GraphSplice.Proofs.Blueprint.Stamping
import GraphSplice.Proofs.Blueprint.Structure
import GraphSplice.Proofs.Blueprint.Transport
import GraphSplice.Proofs.Blueprint.Turning
import GraphSplice.Proofs.Blueprint.Yield
import GraphSplice.Proofs.Combination
import GraphSplice.Proofs.CommandLine.Grow
import GraphSplice.Proofs.Completeness
import GraphSplice.Proofs.Conflict
import GraphSplice.Proofs.ConflictTable
import GraphSplice.Proofs.Creation
import GraphSplice.Proofs.Crowding
import GraphSplice.Proofs.Derivation
import GraphSplice.Proofs.Dungeon.Callbacks
import GraphSplice.Proofs.Dungeon.Extension
import GraphSplice.Proofs.Dungeon.FloorPlan
import GraphSplice.Proofs.Dungeon.Growth
import GraphSplice.Proofs.Dungeon.Level
import GraphSplice.Proofs.Dungeon.Rounds
import GraphSplice.Proofs.Dungeon.Rules
import GraphSplice.Proofs.Ends
import GraphSplice.Proofs.Except
import GraphSplice.Proofs.Footprint
import GraphSplice.Proofs.Frame
import GraphSplice.Proofs.Graph.Adjacency
import GraphSplice.Proofs.Graph.Consistency
import GraphSplice.Proofs.Graph.EdgeList
import GraphSplice.Proofs.Graph.Subdivision
import GraphSplice.Proofs.Graph.Succession
import GraphSplice.Proofs.History
import GraphSplice.Proofs.Independence
import GraphSplice.Proofs.Induced
import GraphSplice.Proofs.Json.Keys
import GraphSplice.Proofs.Json.Reader
import GraphSplice.Proofs.Json.Scalar
import GraphSplice.Proofs.Json.Value
import GraphSplice.Proofs.Limit
import GraphSplice.Proofs.Lists
import GraphSplice.Proofs.Matching
import GraphSplice.Proofs.Numbering
import GraphSplice.Proofs.Occurrences
import GraphSplice.Proofs.Parity
import GraphSplice.Proofs.Profile.Calls
import GraphSplice.Proofs.Profile.Decoding
import GraphSplice.Proofs.Profile.Directory
import GraphSplice.Proofs.Profile.Store
import GraphSplice.Proofs.Random
import GraphSplice.Proofs.Registration
import GraphSplice.Proofs.Reordering
import GraphSplice.Proofs.Replacement
import GraphSplice.Proofs.Requests
import GraphSplice.Proofs.Resolution
import GraphSplice.Proofs.Rule.Arrangements
import GraphSplice.Proofs.Rule.Automorphism
import GraphSplice.Proofs.Rule.Calls
import GraphSplice.Proofs.Rule.Clash
import GraphSplice.Proofs.Rule.Compilation
import GraphSplice.Proofs.Rule.Conflict
import GraphSplice.Proofs.Rule.Drafting
import GraphSplice.Proofs.Rule.Orbits
import GraphSplice.Proofs.Rule.Overlay
import GraphSplice.Proofs.Rule.Symmetries
import GraphSplice.Proofs.Rule.Twins
import GraphSplice.Proofs.Rule.WellFormed
import GraphSplice.Proofs.Samples
import GraphSplice.Proofs.Search.Allotment
import GraphSplice.Proofs.Search.Assignment
import GraphSplice.Proofs.Search.Curtailment
import GraphSplice.Proofs.Search.Detection
import GraphSplice.Proofs.Search.Extension
import GraphSplice.Proofs.Search.Order
import GraphSplice.Proofs.Search.Placement
import GraphSplice.Proofs.Selection
import GraphSplice.Proofs.Sequence
import GraphSplice.Proofs.Settings
import GraphSplice.Proofs.Staleness
import GraphSplice.Proofs.Subdivision
import GraphSplice.Proofs.Succession
import GraphSplice.Proofs.Target
import GraphSplice.Proofs.Turning
import GraphSplice.Proofs.Walk
import GraphSplice.Proofs.Wiring.Arena
import GraphSplice.Proofs.Wiring.Assembly
import GraphSplice.Proofs.Wiring.Classes
import GraphSplice.Proofs.Wiring.Collapse
import GraphSplice.Proofs.Wiring.Components
import GraphSplice.Proofs.Wiring.Contraction
import GraphSplice.Proofs.Wiring.Counting
import GraphSplice.Proofs.Wiring.Expansion
import GraphSplice.Proofs.Wiring.Folding
import GraphSplice.Proofs.Wiring.Forest
import GraphSplice.Proofs.Wiring.Nodes
import GraphSplice.Proofs.Wiring.Partition
import GraphSplice.Proofs.Wiring.Passage
import GraphSplice.Proofs.Wiring.Preparation
import GraphSplice.Proofs.Wiring.Reconciliation
import GraphSplice.Proofs.Wiring.Settlement
import GraphSplice.Proofs.Wiring.Sockets
import GraphSplice.Proofs.Wiring.Soundness
import GraphSplice.Proofs.Wiring.Survivors
import GraphSplice.Proofs.Wiring.Trails
import GraphSplice.Random.ChaCha
import GraphSplice.Random.Source
import GraphSplice.Rule
import GraphSplice.Rule.Conflict
import GraphSplice.Rule.Declaration
import GraphSplice.Rule.Draft
import GraphSplice.Rule.Symmetry
import GraphSplice.Samples
import GraphSplice.Script.Condition
import GraphSplice.Script.Numbers
import GraphSplice.Search
import GraphSplice.Settings
import GraphSplice.Settings.Document
import GraphSplice.Text.Order
import GraphSplice.Text.Quoted
import GraphSplice.Text.Unprintable
import GraphSplice.Text.Utf8
import GraphSplice.Wiring
import GraphSplice.Wiring.Assembly
import GraphSplice.Wiring.Components
import GraphSplice.Wiring.Forest
import GraphSplice.Wiring.Merging
import GraphSplice.Wiring.Text
