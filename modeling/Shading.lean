import Shading.Artifact
import Shading.Attribute
import Shading.Backend.Error
import Shading.Backend.Specialization
import Shading.Builtin
import Shading.Cache
import Shading.Canonical
import Shading.Check
import Shading.Check.Attributes
import Shading.Check.Declaration
import Shading.Check.Expression
import Shading.Check.Rejection
import Shading.Check.Session
import Shading.Check.Statement
import Shading.CommandLine.Compiler
import Shading.CommandLine.Disassembler
import Shading.CommandLine.Flag
import Shading.CommandLine.Numeral
import Shading.Decimal
import Shading.Decimal.Reader
import Shading.Diagnostic
import Shading.Directory
import Shading.Expr
import Shading.Failure
import Shading.FloatFormat
import Shading.FloatFormat.Arithmetic
import Shading.Glsl
import Shading.Glsl.Code
import Shading.Glsl.Expression
import Shading.Glsl.Name
import Shading.Glsl.Statement
import Shading.Glsl.Version
import Shading.Intrinsic
import Shading.Literal
import Shading.Lowering
import Shading.Main
import Shading.Module
import Shading.Module.Copy
import Shading.Module.Equality
import Shading.Number
import Shading.Operator
import Shading.Parser
import Shading.Parser.Declaration
import Shading.Parser.Expression
import Shading.Parser.Statement
import Shading.Parser.Stream
import Shading.Proofs.Wire.RoundTrip
import Shading.Registry
import Shading.Reserved
import Shading.Scope
import Shading.Source
import Shading.Spirv
import Shading.Spirv.Buffer
import Shading.Spirv.Builder
import Shading.Spirv.Code
import Shading.Spirv.Draft
import Shading.Spirv.Entry
import Shading.Spirv.Enumerant
import Shading.Spirv.Expression
import Shading.Spirv.Instruction
import Shading.Spirv.Listing
import Shading.Spirv.Opcode
import Shading.Spirv.Operator
import Shading.Spirv.Pool
import Shading.Spirv.Statement
import Shading.Stmt
import Shading.Swizzle
import Shading.Table
import Shading.Text
import Shading.Text.Letter
import Shading.Text.Quoted
import Shading.Text.Rune
import Shading.Token
import Shading.Token.Lexer
import Shading.Type
import Shading.Typing
import Shading.Value
import Shading.Value.Fold
import Shading.Walk
import Shading.Wire
import Shading.Wire.Decoder
import Shading.Wire.Encoder
import Shading.Proofs.Module.Comparison
import Shading.Proofs.Wire.Decoding
import Shading.Proofs.Text.Rune
import Shading.Proofs.Token.Lexing
import Shading.Proofs.Token.Numeral
import Shading.Proofs.Token.Partition
import Shading.Proofs.Literal
import Shading.Proofs.Expr.Source
import Shading.Proofs.Canonical.Lexemes
import Shading.Proofs.Parser.Stream
import Shading.Proofs.Parser.Expression
import Shading.Proofs.Parser.Operand
import Shading.Proofs.Canonical.Expression
import Shading.Proofs.Decimal.Reading
import Shading.Proofs.Parser.Result
import Shading.Proofs.Module.Parts
import Shading.Proofs.Token.Quotation
import Shading.Proofs.Canonical.Statement
import Shading.Proofs.Module.Fixpoint
import Shading.Proofs.Check.Expression
import Shading.Proofs.Check.Binding
import Shading.Proofs.Check.Nesting
import Shading.Proofs.Check.Loading
import Shading.Proofs.Module.Soundness
import Shading.Proofs.Module.Imports
import Shading.Proofs.Meaning.Reduction
import Shading.Proofs.Spirv.Layout
import Shading.Proofs.Spirv.Placement
import Shading.Proofs.Module.Resources
import Shading.Proofs.Cache.Transparency
import Shading.Proofs.Check.Linked
import Shading.Proofs.Check.Linking
import Shading.Proofs.Glsl.Naming
import Shading.Proofs.Check.Declaring
import Shading.Proofs.Check.Sustaining
import Shading.Proofs.Module.Constants
import Shading.Proofs.Module.Evaluation
import Shading.Proofs.Module.Resolving
import Shading.Proofs.Check.Resizing
import Shading.Proofs.Spirv.Called
import Shading.Proofs.Parser.Precedence
import Shading.Proofs.Spirv.Execution
import Shading.Proofs.Token.Place
import Shading.Proofs.Spirv.ConstantKey
import Shading.Proofs.Spirv.Inventory
import Shading.Proofs.Spirv.Requests
import Shading.Proofs.Glsl.Legality
import Shading.Proofs.Glsl.TypeName
import Shading.Proofs.Glsl.Literal
import Shading.Proofs.Tour
import Shading.Proofs.CommandLine.Numeral
import Shading.Proofs.Module.Options
import Shading.Proofs.Parser.Progress
import Shading.Proofs.Scope
