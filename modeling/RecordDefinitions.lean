import RecordDefinitions.Main
import RecordDefinitions.Proofs.Definition.Canonical
import RecordDefinitions.Proofs.Generation.Imports
import RecordDefinitions.Proofs.Generation.Mutability
import RecordDefinitions.Proofs.Generation.UserTexts
import RecordDefinitions.Proofs.Import.Addresses
import RecordDefinitions.Proofs.Import.Base
import RecordDefinitions.Proofs.Import.Readings
import RecordDefinitions.Proofs.Import.Registration
import RecordDefinitions.Proofs.Inference.Reordering
import RecordDefinitions.Proofs.Inference.Soundness
import RecordDefinitions.Proofs.Inference.Tightness
import RecordDefinitions.Proofs.Inheritance.Declarers
import RecordDefinitions.Proofs.Location.Location
import RecordDefinitions.Proofs.Record.Nullability
import RecordDefinitions.Proofs.Resolution.Causes
import RecordDefinitions.Proofs.Resolution.Lineage
import RecordDefinitions.Proofs.Resolution.Reordering
import RecordDefinitions.Proofs.Schema.Cycles
import RecordDefinitions.Proofs.Schema.Kinds
import RecordDefinitions.Proofs.Schema.Names
import RecordDefinitions.Proofs.Schema.Nullability
import RecordDefinitions.Proofs.Schema.Visits
import RecordDefinitions.Proofs.Source.RoundTrip
import RecordDefinitions.Proofs.TypeExpr.Acceptance
import RecordDefinitions.Proofs.TypeExpr.Formation
import RecordDefinitions.Proofs.TypeExpr.Groups
import RecordDefinitions.Record.Basic
