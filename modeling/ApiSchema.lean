import ApiSchema.Main
import ApiSchema.Proofs.ArktypeGrammar
import ApiSchema.Proofs.Bindings
import ApiSchema.Proofs.Brackets
import ApiSchema.Proofs.Closure
import ApiSchema.Proofs.Enumerations
import ApiSchema.Proofs.Exports
import ApiSchema.Proofs.GraphQL.DefinitionOrder
import ApiSchema.Proofs.GraphQL.InputValues
import ApiSchema.Proofs.GraphQL.Meaning
import ApiSchema.Proofs.GraphQL.Overrides
import ApiSchema.Proofs.GraphQL.Narrowing
import ApiSchema.Proofs.GraphQL.Repetition
import ApiSchema.Proofs.GraphQL.SpreadClosure
import ApiSchema.Proofs.GraphQL.Termination
import ApiSchema.Proofs.GraphQL.Unknown
import ApiSchema.Proofs.OpenApi.KeyOrder
import ApiSchema.Proofs.OpenApi.NullSpelling
import ApiSchema.Proofs.OpenApi.Parameters
import ApiSchema.Proofs.OpenApi.Positions
import ApiSchema.Proofs.OpenApi.Recursion
import ApiSchema.Proofs.OpenApi.StatusCodes
import ApiSchema.Proofs.OpenApi.Usage
import ApiSchema.Proofs.PlainObjects
import ApiSchema.Proofs.ScalarOptions
import ApiSchema.Proofs.Stability
import ApiSchema.Proofs.Translators
import ApiSchema.Proofs.Words
import ApiSchema.Template.Store
