import EdmxPruning.Main
import EdmxPruning.Proofs.Metadata.NameSets
import EdmxPruning.Proofs.Metadata.ShortNames
import EdmxPruning.Proofs.Metadata.Recognition
import EdmxPruning.Proofs.Metadata.Conventional
import EdmxPruning.Proofs.Metadata.Uniform
import EdmxPruning.Proofs.Navigation.Definitions
import EdmxPruning.Proofs.Navigation.Reachability
import EdmxPruning.Proofs.Navigation.Grouping
import EdmxPruning.Proofs.Navigation.Derivation
import EdmxPruning.Proofs.Markup.Closing
import EdmxPruning.Proofs.Markup.Leaves
import EdmxPruning.Proofs.Markup.Attributes
import EdmxPruning.Proofs.Markup.References
import EdmxPruning.Proofs.Markup.Tags
import EdmxPruning.Proofs.Markup.Tokens
import EdmxPruning.Proofs.Markup.Written
import EdmxPruning.Proofs.Markup.Reading
import EdmxPruning.Proofs.Markup.Openings
import EdmxPruning.Proofs.Document.Arena
import EdmxPruning.Proofs.Document.Removal
import EdmxPruning.Proofs.Document.Ancestry
import EdmxPruning.Proofs.Document.RoundTrip
import EdmxPruning.Proofs.Document.Likeness
import EdmxPruning.Proofs.Document.Blanks
import EdmxPruning.Proofs.Document.Listing
import EdmxPruning.Proofs.Document.Adjacency
import EdmxPruning.Proofs.Document.Renumbering
import EdmxPruning.Proofs.Document.Values
import EdmxPruning.Proofs.Document.Order
import EdmxPruning.Proofs.Document.Declarations
import EdmxPruning.Proofs.Document.Writing
import EdmxPruning.Proofs.Pruning.Passes
import EdmxPruning.Proofs.Pruning.Survival
import EdmxPruning.Proofs.Pruning.Integrity
import EdmxPruning.Proofs.Pruning.KeptNavigation
import EdmxPruning.Proofs.Pruning.Reasons
import EdmxPruning.Proofs.Pruning.Qualifiers
import EdmxPruning.Proofs.Pruning.Repetition
import EdmxPruning.Proofs.Pruning.Maximality
import EdmxPruning.Proofs.Pruning.Narrowing
import EdmxPruning.Proofs.Pruning.Sequences
import EdmxPruning.Proofs.Pruning.FixedPoint
import EdmxPruning.Proofs.Pruning.Account
import EdmxPruning.Proofs.Pruning.Surroundings
import EdmxPruning.Proofs.Pruning.Detachment
import EdmxPruning.Proofs.Pruning.Searches
import EdmxPruning.Proofs.Pruning.Excision
import EdmxPruning.Proofs.Pruning.Subtree
import EdmxPruning.Proofs.Pruning.Journal
import EdmxPruning.Proofs.Pruning.Scopes
import EdmxPruning.Proofs.Linked.Shape
import EdmxPruning.Proofs.Command.Agreement
import EdmxPruning.Proofs.Command.Storage
import EdmxPruning.Proofs.Command.Stages
import EdmxPruning.Proofs.Command.Selected
