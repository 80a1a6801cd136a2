import ShaderInterface.Declarator
import ShaderInterface.ElementFormat
import ShaderInterface.Interface.Attribute
import ShaderInterface.Interface.Output
import ShaderInterface.Interface.Variable
import ShaderInterface.Interface.Varying
import ShaderInterface.Link.Block
import ShaderInterface.Link.Cache
import ShaderInterface.Link.Code
import ShaderInterface.Link.Key
import ShaderInterface.Link.Linker
import ShaderInterface.LinkError
import ShaderInterface.Proofs.CacheTransparency
import ShaderInterface.Proofs.Declared
import ShaderInterface.Proofs.Fitting
import ShaderInterface.Proofs.Grammar
import ShaderInterface.Proofs.Insertion
import ShaderInterface.Proofs.KeyReading
import ShaderInterface.Proofs.LinkReads
import ShaderInterface.Proofs.Outcome
import ShaderInterface.Proofs.Places
import ShaderInterface.Proofs.Rescan
import ShaderInterface.Proofs.Residue
import ShaderInterface.Proofs.Rewriting
import ShaderInterface.Proofs.Spans
import ShaderInterface.Proofs.Splitting
import ShaderInterface.Resource.BindGroups
import ShaderInterface.Resource.BindingTable
import ShaderInterface.Resource.BufferLayout
import ShaderInterface.Resource.Group
import ShaderInterface.Resource.HostTables
import ShaderInterface.Resource.RoundUp
import ShaderInterface.Resource.Scope
import ShaderInterface.Resource.Texture
import ShaderInterface.Resource.WordLayout
import ShaderInterface.Semantic
import ShaderInterface.Source.Declaration
import ShaderInterface.Source.Keyword
import ShaderInterface.Source.Lexeme
import ShaderInterface.Source.Outline
import ShaderInterface.Source.Stripped
import ShaderInterface.Stage
import ShaderInterface.Text.Blank
import ShaderInterface.Text.Identifier
import ShaderInterface.Text.Neighbours
import ShaderInterface.Text.Numeral
import ShaderInterface.Uniform
import ShaderInterface.Proofs.Merging
import ShaderInterface.Proofs.Placement
import ShaderInterface.Proofs.Acceptance
import ShaderInterface.Proofs.Homes
import ShaderInterface.Proofs.Std140
import ShaderInterface.Proofs.Qualifiers
import ShaderInterface.Proofs.Slots
import ShaderInterface.Proofs.Retexting
import ShaderInterface.Proofs.OuterGroups
import ShaderInterface.Proofs.InjectionPoint
import ShaderInterface.Proofs.Faults
import ShaderInterface.Proofs.Causes
import ShaderInterface.Proofs.GlobalDeclarations
import ShaderInterface.Proofs.Identifiers
import ShaderInterface.Proofs.PairedVaryings
import ShaderInterface.Proofs.AssignedAttributes
import ShaderInterface.Proofs.TakenLocations
import ShaderInterface.Proofs.CacheHistory
import ShaderInterface.Proofs.Packing
import ShaderInterface.Proofs.MergedLines
import ShaderInterface.Proofs.WrittenDeclarators
import ShaderInterface.Proofs.BlockLines
import ShaderInterface.Proofs.Spelling
import ShaderInterface.Proofs.Reinsertion
import ShaderInterface.Proofs.RelevantInputs
import ShaderInterface.Proofs.MachineWords
import ShaderInterface.Proofs.PreparedScopes
import ShaderInterface.Proofs.AppendedText
import ShaderInterface.Proofs.InertCode
import ShaderInterface.Proofs.BoundTextures
import ShaderInterface.Proofs.CharBoundaries
import ShaderInterface.Proofs.ByteScanner
import ShaderInterface.Proofs.BytePlaces
import ShaderInterface.Proofs.ByteLexemes
import ShaderInterface.Proofs.ByteScanning
import ShaderInterface.Proofs.Numerals
import ShaderInterface.Proofs.SemanticNames
import ShaderInterface.Proofs.UnambiguousKeys
import ShaderInterface.Proofs.WordLayouts
