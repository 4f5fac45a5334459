import Shading.Text

/-! Numbers of the binary format that stand for one of several things. -/
namespace Shading.Spirv

/-- The name of a number in an enumeration; one without a name is written as it is. -/
def enumerant (names : List (UInt32 × String)) (n : UInt32) : Text :=
  match names.lookup n with
  | some name => name
  | none => Text.ofNat n.toNat

namespace Capability

def shader : UInt32 := 1
def float64 : UInt32 := 10
def sampled1D : UInt32 := 43

def names : List (UInt32 × String) :=
  [(0, "Matrix"), (1, "Shader"), (9, "Float16"), (10, "Float64"), (11, "Int64"), (22, "Int16"),
   (39, "Int8"), (43, "Sampled1D"), (44, "Image1D")]

end Capability

namespace AddressingModel

def logical : UInt32 := 0

def names : List (UInt32 × String) := [(0, "Logical")]

end AddressingModel

namespace MemoryModel

def glsl450 : UInt32 := 1

def names : List (UInt32 × String) := [(1, "GLSL450"), (3, "Vulkan")]

end MemoryModel

namespace SourceLanguage

def unknown : UInt32 := 0

def names : List (UInt32 × String) := [(0, "Unknown"), (2, "GLSL")]

end SourceLanguage

namespace ExecutionModel

def vertex : UInt32 := 0
def fragment : UInt32 := 4
def glCompute : UInt32 := 5

def names : List (UInt32 × String) :=
  [(0, "Vertex"), (1, "TessellationControl"), (2, "TessellationEvaluation"), (3, "Geometry"),
   (4, "Fragment"), (5, "GLCompute"), (6, "Kernel")]

end ExecutionModel

namespace ExecutionMode

def originUpperLeft : UInt32 := 7
def earlyFragmentTests : UInt32 := 9
def depthReplacing : UInt32 := 12
def depthGreater : UInt32 := 14
def depthLess : UInt32 := 15
def depthUnchanged : UInt32 := 16
def localSize : UInt32 := 17

def names : List (UInt32 × String) :=
  [(7, "OriginUpperLeft"), (8, "OriginLowerLeft"), (9, "EarlyFragmentTests"), (12, "DepthReplacing"),
   (14, "DepthGreater"), (15, "DepthLess"), (16, "DepthUnchanged"), (17, "LocalSize")]

end ExecutionMode

namespace StorageClass

def uniformConstant : UInt32 := 0
def input : UInt32 := 1
def uniform : UInt32 := 2
def output : UInt32 := 3
def function : UInt32 := 7
def storageBuffer : UInt32 := 12

def names : List (UInt32 × String) :=
  [(0, "UniformConstant"), (1, "Input"), (2, "Uniform"), (3, "Output"), (4, "Workgroup"),
   (5, "CrossWorkgroup"), (6, "Private"), (7, "Function"), (8, "Generic"), (9, "PushConstant"),
   (12, "StorageBuffer")]

end StorageClass

namespace Decoration

def block : UInt32 := 2
def bufferBlock : UInt32 := 3
def colMajor : UInt32 := 5
def arrayStride : UInt32 := 6
def matrixStride : UInt32 := 7
def builtIn : UInt32 := 11
def flat : UInt32 := 14
def location : UInt32 := 30
def binding : UInt32 := 33
def descriptorSet : UInt32 := 34
def offset : UInt32 := 35

def names : List (UInt32 × String) :=
  [(0, "RelaxedPrecision"), (1, "SpecId"), (2, "Block"), (3, "BufferBlock"), (4, "RowMajor"),
   (5, "ColMajor"), (6, "ArrayStride"), (7, "MatrixStride"), (11, "BuiltIn"), (13, "NoPerspective"),
   (14, "Flat"), (16, "Centroid"), (17, "Sample"), (18, "Invariant"), (24, "NonWritable"),
   (25, "NonReadable"), (30, "Location"), (31, "Component"), (33, "Binding"), (34, "DescriptorSet"),
   (35, "Offset")]

end Decoration

namespace BuiltIn

def position : UInt32 := 0
def fragCoord : UInt32 := 15
def frontFacing : UInt32 := 17
def fragDepth : UInt32 := 22
def numWorkgroups : UInt32 := 24
def workgroupId : UInt32 := 26
def localInvocationId : UInt32 := 27
def globalInvocationId : UInt32 := 28
def localInvocationIndex : UInt32 := 29
def vertexIndex : UInt32 := 42
def instanceIndex : UInt32 := 43

def names : List (UInt32 × String) :=
  [(0, "Position"), (1, "PointSize"), (3, "CullDistance"), (15, "FragCoord"), (16, "PointCoord"),
   (17, "FrontFacing"), (22, "FragDepth"), (24, "NumWorkgroups"), (25, "WorkgroupSize"),
   (26, "WorkgroupId"), (27, "LocalInvocationId"), (28, "GlobalInvocationId"),
   (29, "LocalInvocationIndex"), (42, "VertexIndex"), (43, "InstanceIndex")]

end BuiltIn

namespace Dim

def one : UInt32 := 0
def two : UInt32 := 1
def three : UInt32 := 2
def cube : UInt32 := 3

def names : List (UInt32 × String) :=
  [(0, "1D"), (1, "2D"), (2, "3D"), (3, "Cube"), (4, "Rect"), (5, "Buffer"), (6, "SubpassData")]

end Dim

namespace LoopControl

def none : UInt32 := 0
def unroll : UInt32 := 1
def dontUnroll : UInt32 := 2

def names : List (UInt32 × String) := [(0, "None"), (1, "Unroll"), (2, "DontUnroll")]

end LoopControl

/-- The image operand that gives a level of detail. -/
def lodOperand : UInt32 := 2

end Shading.Spirv
