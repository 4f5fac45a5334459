import Shading.Text

/-! Identifiers of generated GLSL. -/
namespace Shading.Glsl

/-- Reserved words, and the names that the language itself gives to variables, constants and functions,
in GLSL 4.60 and GLSL ES 3.20. -/
def reservedWords : List Text :=
  List.flatMap (fun line : String => Text.cut (Text.byte ' ') line) [
    -- basic types
    "void bool int uint float double",
    -- vector types
    "vec2 vec3 vec4 ivec2 ivec3 ivec4 uvec2 uvec3 uvec4 bvec2 bvec3 bvec4 dvec2 dvec3 dvec4",
    -- matrix types
    "mat2 mat3 mat4 mat2x2 mat2x3 mat2x4 mat3x2 mat3x3 mat3x4 mat4x2 mat4x3 mat4x4 dmat2",
    "dmat3 dmat4 dmat2x2 dmat2x3 dmat2x4 dmat3x2 dmat3x3 dmat3x4 dmat4x2 dmat4x3 dmat4x4",
    -- sampler types
    "sampler sampler1D sampler2D sampler3D samplerCube sampler2DRect sampler1DShadow",
    "sampler2DShadow samplerCubeShadow sampler2DRectShadow sampler1DArray sampler2DArray",
    "sampler1DArrayShadow sampler2DArrayShadow samplerCubeArray samplerCubeArrayShadow",
    "samplerBuffer sampler2DMS sampler2DMSArray",
    -- integer sampler types
    "isampler1D isampler2D isampler3D isamplerCube isampler2DRect isampler1DArray",
    "isampler2DArray isamplerCubeArray isamplerBuffer isampler2DMS isampler2DMSArray",
    -- unsigned integer sampler types
    "usampler1D usampler2D usampler3D usamplerCube usampler2DRect usampler1DArray",
    "usampler2DArray usamplerCubeArray usamplerBuffer usampler2DMS usampler2DMSArray",
    -- image types
    "image1D image2D image3D imageCube image2DRect image1DArray image2DArray imageCubeArray",
    "imageBuffer image2DMS image2DMSArray iimage1D iimage2D iimage3D iimageCube",
    "iimage2DRect iimage1DArray iimage2DArray iimageCubeArray iimageBuffer iimage2DMS",
    "iimage2DMSArray uimage1D uimage2D uimage3D uimageCube uimage2DRect uimage1DArray",
    "uimage2DArray uimageCubeArray uimageBuffer uimage2DMS uimage2DMSArray",
    -- atomic counter types
    "atomic_uint",
    -- keywords
    "attribute const uniform varying buffer shared coherent volatile restrict readonly",
    "writeonly layout centroid flat smooth noperspective patch sample break continue do for",
    "while switch case default if else subroutine in out inout true false invariant precise",
    "discard return struct",
    -- precision qualifiers
    "lowp mediump highp precision",
    -- reserved for future use
    "common partition active asm class union enum typedef template this resource goto",
    "inline noinline public static extern external interface long short half fixed unsigned",
    "superp input output hvec2 hvec3 hvec4 fvec2 fvec3 fvec4 sampler3DRect filter sizeof",
    "cast namespace using",
    -- built-in variables (vertex)
    "gl_VertexID gl_InstanceID gl_Position gl_PointSize gl_ClipDistance gl_CullDistance",
    "gl_PerVertex",
    -- built-in variables (fragment)
    "gl_FragCoord gl_FrontFacing gl_PointCoord gl_SampleID gl_SamplePosition",
    "gl_SampleMaskIn gl_FragDepth gl_SampleMask gl_Layer gl_ViewportIndex",
    "gl_HelperInvocation",
    -- built-in variables (compute)
    "gl_NumWorkGroups gl_WorkGroupSize gl_WorkGroupID gl_LocalInvocationID",
    "gl_GlobalInvocationID gl_LocalInvocationIndex",
    -- built-in variables (tessellation)
    "gl_PatchVerticesIn gl_PrimitiveID gl_InvocationID gl_TessLevelOuter gl_TessLevelInner",
    "gl_TessCoord",
    -- built-in variables (geometry)
    "gl_PrimitiveIDIn",
    -- built-in constants
    "gl_MaxVertexAttribs gl_MaxVertexUniformVectors gl_MaxVaryingVectors",
    "gl_MaxVertexTextureImageUnits gl_MaxCombinedTextureImageUnits gl_MaxTextureImageUnits",
    "gl_MaxFragmentUniformVectors gl_MaxDrawBuffers gl_MaxClipDistances gl_MaxCullDistances",
    "gl_MaxComputeWorkGroupCount gl_MaxComputeWorkGroupSize gl_MaxComputeUniformComponents",
    "gl_MaxComputeTextureImageUnits gl_MaxComputeImageUniforms gl_MaxComputeAtomicCounters",
    "gl_MaxComputeAtomicCounterBuffers",
    -- built-in functions
    "main radians degrees sin cos tan asin acos atan sinh cosh tanh asinh acosh atanh pow",
    "exp log exp2 log2 sqrt inversesqrt abs sign floor trunc round roundEven ceil fract mod",
    "modf min max clamp mix step smoothstep isnan isinf floatBitsToInt floatBitsToUint",
    "intBitsToFloat uintBitsToFloat fma frexp ldexp packUnorm2x16 packSnorm2x16",
    "packUnorm4x8 packSnorm4x8 unpackUnorm2x16 unpackSnorm2x16 unpackUnorm4x8",
    "unpackSnorm4x8 packHalf2x16 unpackHalf2x16 packDouble2x32 unpackDouble2x32 length",
    "distance dot cross normalize faceforward reflect refract matrixCompMult outerProduct",
    "transpose determinant inverse lessThan lessThanEqual greaterThan greaterThanEqual",
    "equal notEqual any all not uaddCarry usubBorrow umulExtended imulExtended",
    "bitfieldExtract bitfieldInsert bitfieldReverse bitCount findLSB findMSB textureSize",
    "textureQueryLod textureQueryLevels textureSamples texture textureProj textureLod",
    "textureOffset texelFetch texelFetchOffset textureProjLod textureProjOffset",
    "textureLodOffset textureProjLodOffset textureGrad textureGradOffset textureProjGrad",
    "textureProjGradOffset textureGather textureGatherOffset textureGatherOffsets dFdx dFdy",
    "dFdxFine dFdyFine dFdxCoarse dFdyCoarse fwidth fwidthFine fwidthCoarse",
    "interpolateAtCentroid interpolateAtSample interpolateAtOffset noise1 noise2 noise3",
    "noise4 EmitStreamVertex EndStreamPrimitive EmitVertex EndPrimitive barrier",
    "memoryBarrier memoryBarrierAtomicCounter memoryBarrierBuffer memoryBarrierShared",
    "memoryBarrierImage groupMemoryBarrier imageLoad imageStore imageAtomicAdd",
    "imageAtomicMin imageAtomicMax imageAtomicAnd imageAtomicOr imageAtomicXor",
    "imageAtomicExchange imageAtomicCompSwap imageSize imageSamples atomicCounterIncrement",
    "atomicCounterDecrement atomicCounter atomicCounterAdd atomicCounterSubtract",
    "atomicCounterMin atomicCounterMax atomicCounterAnd atomicCounterOr atomicCounterXor",
    "atomicCounterExchange atomicCounterCompSwap atomicAdd atomicMin atomicMax atomicAnd",
    "atomicOr atomicXor atomicExchange atomicCompSwap subpassLoad"
  ]

def isReserved (name : Text) : Bool := reservedWords.contains name

/-- Breaks up two underscores in a row, which GLSL reserves. -/
def separateUnderscores : Text → Text
  | [] => []
  | [b] => [b]
  | a :: b :: rest =>
    if a = Text.byte '_' ∧ b = Text.byte '_' then a :: Text.byte '0' :: separateUnderscores rest
    else a :: separateUnderscores (b :: rest)

/-- A name that neither the language nor the generator gives to something else. -/
def escape (name : Text) : Text :=
  if name.isEmpty then "_unnamed"
  else
    let name := separateUnderscores name
    if isReserved name || (Text.ofString "gl_").isPrefixOf name then "_" ++ name
    else if (Text.ofString "_nzsl").isPrefixOf name then "u" ++ name
    else name

/-- The names that are given already, and the last number that was put behind one. -/
structure Namer where
  used : List Text := []
  counter : UInt32 := 0

namespace Namer

def reserve (n : Namer) (name : Text) : Namer := { n with used := name :: n.used }

def numbered (name : Text) (n : UInt32) : Text := name ++ "_" ++ Text.ofNat n.toNat

/-- The first name with a number behind it that is not given yet, among as many as there are tries. -/
def next (used : List Text) (name : Text) (counter : UInt32) : Nat → UInt32
  | 0 => counter
  | tries + 1 =>
    let c := counter + 1
    if used.contains (numbered name c) then next used name c tries else c

/-- Gives a name, with a number behind it if it is given already. One try more than there are names
always finds one. -/
def unique (n : Namer) (name : Text) : Text × Namer :=
  if n.used.contains name then
    let c := next n.used name n.counter (n.used.length + 1)
    (numbered name c, { used := numbered name c :: n.used, counter := c })
  else (name, n.reserve name)

/-- Gives a name for an identifier of the source. -/
def fresh (n : Namer) (identifier : Text) : Text × Namer := n.unique (escape identifier)

end Namer

end Shading.Glsl
