import Grafbase.Operation.Blueprint.CaseSplit
import Grafbase.Response.RootObjects
import Grafbase.Operation.SkipInclude
import Grafbase.Operation.LogicalPlanner.ModifierSurvival
import Grafbase.Execution.HeaderRule
import Grafbase.Operation.OperationLimits
import Grafbase.FederatedGraph.UpgradeMeaning
import Grafbase.Schema.RequiredFieldPaths
import Grafbase.Schema.TypeReferences
import Grafbase.Operation.Coercion.BoundVariables
import Grafbase.Validation.Implementations
import Grafbase.Validation.InputObjectCycles
import Grafbase.FederatedGraph.UpgradeV2Fields
import Grafbase.PartialCaching.CacheKeys
import Grafbase.PartialCaching.ExactPartitions
import Grafbase.Normalizer.Scrubbing
import Grafbase.Normalizer.Signatures
import Grafbase.SchemaDiff.Structure
import Grafbase.SchemaDiff.PatchFrame
import Grafbase.Sources.EntityResponses
import Grafbase.Composition.EnumMerge
import Grafbase.OperationChecks.Schema
import Grafbase.SchemaDiff.Symmetry
import Grafbase.RateLimiting
import Grafbase.JwtVerifier
import Grafbase.Response.ObjectSet
