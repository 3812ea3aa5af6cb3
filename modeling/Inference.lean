import Inference.Registry
import Inference.Supply
import Inference.Journal
import Inference.Shape
import Inference.Reify
import Inference.Rendering
import Inference.Description.Node
import Inference.Source.File
import Inference.Proofs.Lists
import Inference.Proofs.Search
import Inference.Proofs.Unfolding
import Inference.Proofs.Reification.Relation
import Inference.Proofs.Reification.Growth
import Inference.Proofs.Reification.Settling
import Inference.Proofs.Reification.Tuples
import Inference.Proofs.Reification.Correctness
import Inference.Proofs.Reification.Termination
import Inference.Proofs.Construction
import Inference.Proofs.Binding
import Inference.Proofs.Session
import Inference.Proofs.Reification.Outcome
import Inference.Proofs.Leaves
import Inference.Proofs.Reification.Meaning
import Inference.Proofs.Reification.Resolved
import Inference.Proofs.Reification.Repetition
import Inference.Proofs.Reification.Tables
import Inference.Proofs.Canonical
import Inference.Proofs.Reification.Branches
import Inference.Proofs.Reification.Order
import Inference.Proofs.Reification.Fixpoint
import Inference.Proofs.Requests
import Inference.Proofs.Reification.Early
import Inference.Proofs.Reification.Isolation
import Inference.Proofs.Equations
import Inference.Proofs.Identity
import Inference.Proofs.Policies
import Inference.Proofs.FirstInsertions
import Inference.Proofs.Interners
import Inference.Proofs.Descriptions
import Inference.Proofs.Journal
import Inference.Proofs.Operations
import Inference.Proofs.Rendering
import Inference.Proofs.Reification.Display
import Inference.Proofs.Reification.Reified
import Inference.Proofs.Decisions
import Inference.Proofs.Resolution
import Inference.Proofs.Agreement
import Inference.Proofs.Formats
import Inference.Proofs.Storage
import Inference.Proofs.Literals
import Inference.Proofs.Observation
import Inference.Proofs.Drawing
import Inference.Proofs.Reading
import Inference.Proofs.Utf8.Decoding
