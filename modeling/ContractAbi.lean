import ContractAbi.Proofs.AcceptedEndpoints
import ContractAbi.Proofs.ArgumentBytes
import ContractAbi.Proofs.ArgumentFlattening
import ContractAbi.Proofs.ArgumentLists
import ContractAbi.Proofs.ArgumentText
import ContractAbi.Proofs.Brackets
import ContractAbi.Proofs.Classification
import ContractAbi.Proofs.CodegenRuns
import ContractAbi.Proofs.CommandRuns
import ContractAbi.Proofs.CompositeNumbering
import ContractAbi.Proofs.ContextIndependence
import ContractAbi.Proofs.Contracts
import ContractAbi.Proofs.CountedLists
import ContractAbi.Proofs.Declarations
import ContractAbi.Proofs.DecoderAgreement
import ContractAbi.Proofs.DecoderBodies
import ContractAbi.Proofs.DecoderCalls
import ContractAbi.Proofs.DecoderFiles
import ContractAbi.Proofs.DecoderMatching
import ContractAbi.Proofs.DecoderNames
import ContractAbi.Proofs.DecoderRuns
import ContractAbi.Proofs.DecoderSolution
import ContractAbi.Proofs.Display
import ContractAbi.Proofs.DocComments
import ContractAbi.Proofs.DocumentText
import ContractAbi.Proofs.EndpointNames
import ContractAbi.Proofs.EndpointPolicy
import ContractAbi.Proofs.EnumDecoding
import ContractAbi.Proofs.EnumValidation
import ContractAbi.Proofs.Faults
import ContractAbi.Proofs.FirstUse
import ContractAbi.Proofs.Footprint
import ContractAbi.Proofs.GeneratedDecoders
import ContractAbi.Proofs.Grammar
import ContractAbi.Proofs.InputNesting
import ContractAbi.Proofs.ItemNames
import ContractAbi.Proofs.JsonText
import ContractAbi.Proofs.ModulePaths
import ContractAbi.Proofs.MutableOutputs
import ContractAbi.Proofs.NestedReads
import ContractAbi.Proofs.NestedSpellings
import ContractAbi.Proofs.NestingLimit
import ContractAbi.Proofs.OptionalWrappers
import ContractAbi.Proofs.OutputLayout
import ContractAbi.Proofs.PackedLists
import ContractAbi.Proofs.Paths
import ContractAbi.Proofs.PayloadAgreement
import ContractAbi.Proofs.PrintedOutputs
import ContractAbi.Proofs.Reading
import ContractAbi.Proofs.Registry
import ContractAbi.Proofs.RepeatedValues
import ContractAbi.Proofs.Resolution
import ContractAbi.Proofs.ResolutionRun
import ContractAbi.Proofs.ReturnEncoding
import ContractAbi.Proofs.SchemaFaults
import ContractAbi.Proofs.ShapeChecks
import ContractAbi.Proofs.SlotIsolation
import ContractAbi.Proofs.SlotNumbers
import ContractAbi.Proofs.SnakeCase
import ContractAbi.Proofs.TransactionData
import ContractAbi.Proofs.TreeChanges
import ContractAbi.Proofs.UndeclaredTypes
import ContractAbi.Proofs.ValueTypes
import ContractAbi.Proofs.WrittenModules
import ContractAbi.Bindings.Code
import ContractAbi.Bindings.Declaration
import ContractAbi.Bindings.Decoder
import ContractAbi.Bindings.Encoder
import ContractAbi.Bindings.Method
import ContractAbi.Bindings.SourceFile
import ContractAbi.Command.CommandFault
import ContractAbi.Command.Invocation
import ContractAbi.Command.Options
import ContractAbi.Command.Program
import ContractAbi.Command.Settings
import ContractAbi.Contract.Basic
import ContractAbi.Contract.Writing
import ContractAbi.ConversionFault
import ContractAbi.Data
import ContractAbi.Declarations
import ContractAbi.Document.Basic
import ContractAbi.Document.Reading
import ContractAbi.Document.Writing
import ContractAbi.Endpoint
import ContractAbi.FileTree
import ContractAbi.Json.Printer
import ContractAbi.Json.Reader
import ContractAbi.Json.Token
import ContractAbi.Json.Tree
import ContractAbi.Layout
import ContractAbi.Loading
import ContractAbi.Main
import ContractAbi.NameMap
import ContractAbi.Path
import ContractAbi.Primitive
import ContractAbi.Reflection
import ContractAbi.Resolution
import ContractAbi.ResolvedType
import ContractAbi.ReturnData
import ContractAbi.Text.Basic
import ContractAbi.Text.Identifier
import ContractAbi.Transaction
import ContractAbi.TypeExpr.Brackets
import ContractAbi.TypeExpr.Form
import ContractAbi.TypeExpr.Tree
import ContractAbi.Value
import ContractAbi.Wire.Argument
import ContractAbi.Wire.Codec
import ContractAbi.Wire.Cursor
import ContractAbi.Wire.Packing
import ContractAbi.Yaml.Cell
import ContractAbi.Yaml.Node
import ContractAbi.Yaml.Scalar
import ContractAbi.Yaml.Token
