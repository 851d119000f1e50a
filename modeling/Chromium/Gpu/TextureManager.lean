import Chromium.Library.Assoc
import Chromium.Library.Lists
import Chromium.Library.Run
import Mathlib.Algebra.Group.Int.Defs
import Mathlib.Algebra.Group.Nat.Defs

/-!
# Texture infos

`TextureInfo` records what the service knows about one texture: its target, its
parameters, and the size and format of every level of every face. `update`
derives from these whether the texture is of a power of two size, texture
complete and cube complete, and `canRender` decides whether it may be rendered.

A failed `DCHECK` or a reached `NOTREACHED` is a fault. A level that a face
does not have, which the source reads without a check, reads as a level that
was never set.
-/

namespace Chromium.Gpu

namespace Textures

open Library

def GL_TEXTURE_2D : Nat := 0x0DE1
def GL_TEXTURE_CUBE_MAP : Nat := 0x8513
def GL_TEXTURE_CUBE_MAP_POSITIVE_X : Nat := 0x8515
def GL_TEXTURE_CUBE_MAP_NEGATIVE_X : Nat := 0x8516
def GL_TEXTURE_CUBE_MAP_POSITIVE_Y : Nat := 0x8517
def GL_TEXTURE_CUBE_MAP_NEGATIVE_Y : Nat := 0x8518
def GL_TEXTURE_CUBE_MAP_POSITIVE_Z : Nat := 0x8519
def GL_TEXTURE_CUBE_MAP_NEGATIVE_Z : Nat := 0x851A
def GL_TEXTURE_MAG_FILTER : Nat := 0x2800
def GL_TEXTURE_MIN_FILTER : Nat := 0x2801
def GL_TEXTURE_WRAP_S : Nat := 0x2802
def GL_TEXTURE_WRAP_T : Nat := 0x2803
def GL_TEXTURE_MAX_ANISOTROPY_EXT : Nat := 0x84FE
def GL_NEAREST : Int := 0x2600
def GL_LINEAR : Int := 0x2601
def GL_NEAREST_MIPMAP_NEAREST : Int := 0x2700
def GL_NEAREST_MIPMAP_LINEAR : Int := 0x2702
def GL_REPEAT : Int := 0x2901
def GL_CLAMP_TO_EDGE : Int := 0x812F
def GL_RGBA : Nat := 0x1908
def GL_UNSIGNED_BYTE : Nat := 0x1401
def GL_FLOAT : Nat := 0x1406
def GL_HALF_FLOAT_OES : Nat := 0x8D61

/-- The flags of `FeatureInfo` that textures depend on. -/
structure FeatureInfo where
  npotOk : Bool
  enableTextureFloatLinear : Bool
  enableTextureHalfFloatLinear : Bool

/-- The checks of the source that can fail. -/
inductive Fault
  | noInfo
  | isDeleted
  | targetAlreadySet
  | negativeLevel
  | noSuchFace
  | noSuchLevel
  | negativeSize
  | notReached
  | clientIdInUse
  deriving DecidableEq

/-- The size and format of one level of one face. -/
structure LevelInfo where
  valid : Bool := false
  internalFormat : Nat := 0
  width : Int := 0
  height : Int := 0
  depth : Int := 0
  border : Int := 0
  format : Nat := 0
  type : Nat := 0
  deriving DecidableEq, Inhabited

/-- The members of `TextureInfo`, with the values of the constructor. -/
structure TextureInfo where
  serviceId : Nat
  levelInfos : List (List LevelInfo) := []
  deleted : Bool := false
  target : Nat := 0
  minFilter : Int := GL_NEAREST_MIPMAP_LINEAR
  magFilter : Int := GL_LINEAR
  wrapS : Int := GL_REPEAT
  wrapT : Int := GL_REPEAT
  maxLevelSet : Int := -1
  textureComplete : Bool := false
  cubeComplete : Bool := false
  npot : Bool := false
  deriving DecidableEq

/-- `base::bits::Log2Floor`. -/
def log2Floor (number : Nat) : Int :=
  if number = 0 then -1
  else
    ([4, 3, 2, 1, 0].foldl (fun (state : Nat × Nat) index =>
      let shifted := state.1 >>> (2 ^ index)
      if shifted ≠ 0 then (shifted, state.2 + 2 ^ index) else state)
      (number, 0)).2

/-- `ComputeMipMapCount`. -/
def computeMipMapCount (width height depth : Int) : Int :=
  1 + log2Floor (max (max width height) depth % 2 ^ 32).toNat

/-- `GLES2Util::IsNPOT`. -/
def isNPOT (value : Int) : Bool :=
  let value := (value % 2 ^ 32).toNat
  0 < value ∧ value &&& (value - 1) ≠ 0

/-- `GLTargetToFaceIndex`. -/
def glTargetToFaceIndex (target : Nat) : Except Fault Nat :=
  if target = GL_TEXTURE_2D then .ok 0
  else if target = GL_TEXTURE_CUBE_MAP_POSITIVE_X then .ok 0
  else if target = GL_TEXTURE_CUBE_MAP_NEGATIVE_X then .ok 1
  else if target = GL_TEXTURE_CUBE_MAP_POSITIVE_Y then .ok 2
  else if target = GL_TEXTURE_CUBE_MAP_NEGATIVE_Y then .ok 3
  else if target = GL_TEXTURE_CUBE_MAP_POSITIVE_Z then .ok 4
  else if target = GL_TEXTURE_CUBE_MAP_NEGATIVE_Z then .ok 5
  else .error .notReached

/-- `FaceIndexToGLTarget`. -/
def faceIndexToGLTarget : Nat -> Except Fault Nat
  | 0 => .ok GL_TEXTURE_CUBE_MAP_POSITIVE_X
  | 1 => .ok GL_TEXTURE_CUBE_MAP_NEGATIVE_X
  | 2 => .ok GL_TEXTURE_CUBE_MAP_POSITIVE_Y
  | 3 => .ok GL_TEXTURE_CUBE_MAP_NEGATIVE_Y
  | 4 => .ok GL_TEXTURE_CUBE_MAP_POSITIVE_Z
  | 5 => .ok GL_TEXTURE_CUBE_MAP_NEGATIVE_Z
  | _ => .error .notReached

/-- A dimension of the next smaller mip. -/
def nextMip (dimension : Int) : Int := max 1 (dimension >>> (1 : Nat))

/-- The first level of a face. -/
def level0 (face : List LevelInfo) : LevelInfo := face.getD 0 {}

namespace TextureInfo

/-- The first level of the first face. -/
def firstFace (info : TextureInfo) : LevelInfo := level0 (info.levelInfos.getD 0 [])

/-- `TextureInfo::NeedsMips`. -/
def needsMips (info : TextureInfo) : Bool :=
  info.minFilter ≠ GL_NEAREST ∧ info.minFilter ≠ GL_LINEAR

variable (fs : FeatureInfo)

/-- `TextureInfo::CanRender`. -/
def canRender (info : TextureInfo) : Bool :=
  if info.target = 0 ∨ info.deleted then false
  else if info.npot ∧ ¬fs.npotOk then
    !info.needsMips && (info.wrapS = GL_CLAMP_TO_EDGE) && (info.wrapT = GL_CLAMP_TO_EDGE)
  else if info.needsMips then
    if info.target = GL_TEXTURE_2D then info.textureComplete
    else info.textureComplete && info.cubeComplete
  else true

/-- `TextureInfo::SetTarget`. -/
def setTarget (info : TextureInfo) (target : Nat) (maxLevels : Int) : Except Fault TextureInfo :=
  if info.target ≠ 0 then .error .targetAlreadySet
  else
    let numFaces := if target = GL_TEXTURE_2D then 1 else 6
    .ok { info with
      target := target
      levelInfos := (resize info.levelInfos numFaces []).map fun levels =>
        resize levels maxLevels.toNat {} }

/-- Whether the levels of a face from one on are the mips of its first level.
The arguments are the number of levels left, the level and the dimensions of
the level before. -/
def mipsComplete (face : List LevelInfo) : Nat -> Nat -> Int -> Int -> Int -> Bool
  | 0, _, _, _, _ => true
  | left + 1, level, width, height, depth =>
    let info := face.getD level {}
    if !info.valid ∨ info.width ≠ nextMip width ∨
        info.height ≠ nextMip height ∨ info.depth ≠ nextMip depth ∨
        info.internalFormat ≠ (level0 face).internalFormat ∨
        info.format ≠ (level0 face).format ∨
        info.type ≠ (level0 face).type then
      false
    else mipsComplete face left (level + 1) (nextMip width) (nextMip height) (nextMip depth)

/-- Whether a first level differs from that of the first face. -/
def facesDiffer (first level : LevelInfo) : Bool :=
  !level.valid ∨ level.width ≠ first.width ∨ level.height ≠ first.height ∨
    level.depth ≠ 1 ∨ level.internalFormat ≠ first.internalFormat ∨
    level.format ≠ first.format ∨ level.type ≠ first.type

/-- The last loop of `TextureInfo::Update` over the faces: whether the texture
is still texture complete and cube complete. -/
def updateFaces (first : LevelInfo) (maxLevelSet : Int) :
    List (List LevelInfo) -> Bool -> Bool -> Bool × Bool
  | [], textureComplete, cubeComplete => (textureComplete, cubeComplete)
  | face :: faces, textureComplete, cubeComplete =>
    if cubeComplete ∨ textureComplete then
      let level := level0 face
      updateFaces first maxLevelSet faces (textureComplete && mipsComplete face maxLevelSet.toNat 1
          level.width level.height level.depth)
        (cubeComplete && !facesDiffer first level)
    else (textureComplete, cubeComplete)

section

variable (info : TextureInfo)

/-- Whether the filters need a linear filtering that is not enabled for the
type of the texture. -/
def lacksFilter : Bool :=
  ((info.firstFace.type = GL_FLOAT ∧ ¬fs.enableTextureFloatLinear) ∨
    (info.firstFace.type = GL_HALF_FLOAT_OES ∧ ¬fs.enableTextureHalfFloatLinear)) ∧
    (info.minFilter ≠ GL_NEAREST_MIPMAP_NEAREST ∨ info.magFilter ≠ GL_NEAREST)

/-- `TextureInfo::Update`. -/
def update : TextureInfo :=
  if info.levelInfos = [] then
    { info with npot := false, textureComplete := false, cubeComplete := false }
  else
    let first := info.firstFace
    let textureComplete :=
      info.maxLevelSet = computeMipMapCount first.width first.height first.depth - 1 ∧
        0 <= info.maxLevelSet ∧ ¬(first.width = 0 ∨ first.height = 0) ∧
        ¬lacksFilter fs info
    let cubeComplete := info.levelInfos.length = 6 ∧ first.width = first.height
    let complete := updateFaces first info.maxLevelSet info.levelInfos textureComplete cubeComplete
    { info with
      npot := info.levelInfos.any fun face =>
        isNPOT (level0 face).width || isNPOT (level0 face).height || isNPOT (level0 face).depth
      textureComplete := complete.1
      cubeComplete := complete.2 }

/-- The arguments that describe a level. -/
structure LevelArgs where
  target : Nat
  level : Int
  internalFormat : Nat
  width : Int
  height : Int
  depth : Int
  border : Int
  format : Nat
  type : Nat

/-- The level that a description sets. -/
def LevelArgs.toLevelInfo (args : LevelArgs) : LevelInfo where
  valid := true
  internalFormat := args.internalFormat
  width := args.width
  height := args.height
  depth := args.depth
  border := args.border
  format := args.format
  type := args.type

/-- `TextureInfo::SetLevelInfo`. -/
def setLevelInfo (args : LevelArgs) : Except Fault TextureInfo := do
  if args.level < 0 then throw .negativeLevel
  let face ← glTargetToFaceIndex args.target
  if ¬face < info.levelInfos.length then throw .noSuchFace
  if ¬args.level.toNat < (info.levelInfos.getD face []).length then throw .noSuchLevel
  if args.width < 0 ∨ args.height < 0 ∨ args.depth < 0 then throw .negativeSize
  return update fs { info with
    levelInfos := info.levelInfos.modify face fun levels =>
      levels.set args.level.toNat args.toLevelInfo
    maxLevelSet := max info.maxLevelSet args.level }

/-- `TextureInfo::SetParameter`. -/
def setParameter (pname : Nat) (param : Int) : Except Fault TextureInfo :=
  if pname = GL_TEXTURE_MIN_FILTER then .ok (update fs { info with minFilter := param })
  else if pname = GL_TEXTURE_MAG_FILTER then .ok (update fs { info with magFilter := param })
  else if pname = GL_TEXTURE_WRAP_S then .ok (update fs { info with wrapS := param })
  else if pname = GL_TEXTURE_WRAP_T then .ok (update fs { info with wrapT := param })
  else if pname = GL_TEXTURE_MAX_ANISOTROPY_EXT then .ok (update fs info)
  else .error .notReached

/-- `TextureInfo::CanGenerateMipmaps`. -/
def canGenerateMipmaps : Bool :=
  if (info.npot ∧ ¬fs.npotOk) ∨ info.levelInfos = [] ∨ info.deleted then false
  else info.levelInfos.all fun face => !facesDiffer info.firstFace (level0 face)

end

/-- The loop over the levels of `TextureInfo::MarkMipmapsGenerated`. The
arguments are the number of levels left, the level and the dimensions of the
level before. -/
def generateLevels (fs : FeatureInfo) (target : Nat) (level0 : LevelInfo) :
    Nat -> Int -> Int -> Int -> Int -> TextureInfo -> Except Fault TextureInfo
  | 0, _, _, _, _, info => .ok info
  | left + 1, level, width, height, depth, info => do
      let next ← setLevelInfo fs info {
        target := target
        level := level
        internalFormat := level0.internalFormat
        width := nextMip width
        height := nextMip height
        depth := nextMip depth
        border := level0.border
        format := level0.format
        type := level0.type }
      generateLevels fs target level0 left (level + 1) (nextMip width)
        (nextMip height) (nextMip depth) next

/-- The loop over the faces of `TextureInfo::MarkMipmapsGenerated`. The
arguments are the number of faces left and the face. -/
def generateFaces (fs : FeatureInfo) : Nat -> Nat -> TextureInfo -> Except Fault TextureInfo
  | 0, _, info => .ok info
  | left + 1, face, info => do
      let level := level0 (info.levelInfos.getD face [])
      let numMips := computeMipMapCount level.width level.height level.depth
      let target ← if info.target = GL_TEXTURE_2D then pure GL_TEXTURE_2D
        else faceIndexToGLTarget face
      let next ← generateLevels fs target level (numMips - 1).toNat 1
        level.width level.height level.depth info
      generateFaces fs left (face + 1) next

/-- `TextureInfo::MarkMipmapsGenerated`. -/
def markMipmapsGenerated (info : TextureInfo) : Except Fault (Bool × TextureInfo) := do
  if ¬canGenerateMipmaps fs info then return (false, info)
  let next ← generateFaces fs info.levelInfos.length 0 info
  return (true, next)

end TextureInfo

end Textures

/-!
## The texture manager

`TextureManager` maps client ids to texture infos, next to one default texture
for each target, and counts the textures that may not be rendered. Every
operation that may change whether a texture may be rendered subtracts the
texture from the counter before and adds it again after.
-/

namespace Textures

open Library

/-- The textures of a manager. -/
inductive Texture
  | default2d
  | defaultCubeMap
  | named (clientId : Nat)
  deriving DecidableEq

/-- The members of the class. -/
structure TextureManager where
  maxLevels : Int
  maxCubeMapLevels : Int
  numUnrenderableTextures : Int
  defaultTexture2d : TextureInfo
  defaultTextureCubeMap : TextureInfo
  textureInfos : List (Nat × TextureInfo)

namespace TextureManager

section

variable (manager : TextureManager)

/-- The info of a texture. -/
def get : Texture -> Option TextureInfo
  | .default2d => some manager.defaultTexture2d
  | .defaultCubeMap => some manager.defaultTextureCubeMap
  | .named clientId => manager.textureInfos.lookup clientId

/-- Write back the info of a texture. -/
def set (texture : Texture) (info : TextureInfo) : TextureManager :=
  match texture with
  | .default2d => { manager with defaultTexture2d := info }
  | .defaultCubeMap => { manager with defaultTextureCubeMap := info }
  | .named clientId =>
    { manager with
      textureInfos := Assoc.write manager.textureInfos clientId info }

/-- The infos of the live textures. -/
def live : List TextureInfo :=
  manager.defaultTexture2d :: manager.defaultTextureCubeMap :: manager.textureInfos.map Prod.snd

/-- `TextureManager::HaveUnrenderableTextures`. -/
def haveUnrenderableTextures : Bool := 0 < manager.numUnrenderableTextures

/-- `TextureManager::MaxLevelsForTarget`. -/
def maxLevelsForTarget (target : Nat) : Int :=
  if target = GL_TEXTURE_2D then manager.maxLevels
  else manager.maxCubeMapLevels

/-- `TextureManager::SetInfoTarget`. -/
def setInfoTarget (texture : Texture) (target : Nat) : Except Fault TextureManager :=
  match manager.get texture with
  | none => .error .noInfo
  | some info =>
    match info.setTarget target (manager.maxLevelsForTarget target) with
    | .error fault => .error fault
    | .ok next => .ok (manager.set texture next)

end

/-- Change the info of a texture, adjusting the counter by whether the texture
may be rendered before and after. -/
def adjust (fs : FeatureInfo) (manager : TextureManager) (texture : Texture)
    (change : TextureInfo -> Except Fault (α × TextureInfo)) :
    Except Fault (α × TextureManager) :=
  match manager.get texture with
  | none => .error .noInfo
  | some info =>
    if info.deleted then .error .isDeleted
    else
      let without :=
        if info.canRender fs then manager.numUnrenderableTextures
        else manager.numUnrenderableTextures - 1
      match change info with
      | .error fault => .error fault
      | .ok (result, next) =>
        .ok (result, { manager.set texture next with
          numUnrenderableTextures := if next.canRender fs then without else without + 1 })

/-- `TextureManager::SetLevelInfo`. -/
def setLevelInfo (fs : FeatureInfo) (manager : TextureManager)
    (texture : Texture) (args : TextureInfo.LevelArgs) :
    Except Fault (Unit × TextureManager) :=
  manager.adjust fs texture fun info => (info.setLevelInfo fs args).map ((), ·)

/-- `TextureManager::SetParameter`. -/
def setParameter (fs : FeatureInfo) (manager : TextureManager)
    (texture : Texture) (pname : Nat) (param : Int) :
    Except Fault (Unit × TextureManager) :=
  manager.adjust fs texture fun info => (info.setParameter fs pname param).map ((), ·)

/-- `TextureManager::MarkMipmapsGenerated`. -/
def markMipmapsGenerated (fs : FeatureInfo) (manager : TextureManager)
    (texture : Texture) : Except Fault (Bool × TextureManager) :=
  manager.adjust fs texture fun info => info.markMipmapsGenerated fs

/-- `TextureManager::CreateTextureInfo`. -/
def createTextureInfo (fs : FeatureInfo) (manager : TextureManager)
    (clientId serviceId : Nat) : Except Fault TextureManager :=
  if (manager.textureInfos.lookup clientId).isSome then .error .clientIdInUse
  else
    let info : TextureInfo := { serviceId := serviceId }
    .ok { manager with
      textureInfos := (clientId, info) :: manager.textureInfos
      numUnrenderableTextures :=
        if info.canRender fs then manager.numUnrenderableTextures
        else manager.numUnrenderableTextures + 1 }

/-- `TextureManager::RemoveTextureInfo`. -/
def removeTextureInfo (fs : FeatureInfo) (manager : TextureManager)
    (clientId : Nat) : TextureManager :=
  match manager.textureInfos.lookup clientId with
  | none => manager
  | some info =>
    { manager with
      textureInfos := Assoc.erase manager.textureInfos clientId
      numUnrenderableTextures :=
        if info.canRender fs then manager.numUnrenderableTextures
        else manager.numUnrenderableTextures - 1 }

/-- `GLES2Util::IndexToGLFaceTarget`, for the faces in order. -/
def cubeFaces : List Nat :=
  [GL_TEXTURE_CUBE_MAP_POSITIVE_X, GL_TEXTURE_CUBE_MAP_NEGATIVE_X,
    GL_TEXTURE_CUBE_MAP_POSITIVE_Y, GL_TEXTURE_CUBE_MAP_NEGATIVE_Y,
    GL_TEXTURE_CUBE_MAP_POSITIVE_Z, GL_TEXTURE_CUBE_MAP_NEGATIVE_Z]

/-- The level that `Initialize` sets on the default textures. -/
def blackLevel (target : Nat) : TextureInfo.LevelArgs where
  target := target
  level := 0
  internalFormat := GL_RGBA
  width := 1
  height := 1
  depth := 1
  border := 0
  format := GL_RGBA
  type := GL_UNSIGNED_BYTE

/-- The flags of a fresh `FeatureInfo`. -/
def tempFeatureInfo : FeatureInfo := ⟨false, false, false⟩

/-- The default texture of a target, with its level set on some faces. -/
def defaultTexture (serviceId target : Nat) (maxLevels : Int)
    (faces : List Nat) : Except Fault TextureInfo := do
  let info ← TextureInfo.setTarget { serviceId := serviceId } target maxLevels
  faces.foldlM (fun info face => info.setLevelInfo tempFeatureInfo (blackLevel face)) info

/-- The constructor and `TextureManager::Initialize`. -/
def init (maxTextureSize maxCubeMapTextureSize : Int)
    (default2dId defaultCubeMapId : Nat) : Except Fault TextureManager := do
  let maxLevels := computeMipMapCount maxTextureSize maxTextureSize maxTextureSize
  let maxCubeMapLevels := computeMipMapCount maxCubeMapTextureSize
    maxCubeMapTextureSize maxCubeMapTextureSize
  let default2d ← defaultTexture default2dId GL_TEXTURE_2D maxLevels [GL_TEXTURE_2D]
  let defaultCubeMap ← defaultTexture defaultCubeMapId GL_TEXTURE_CUBE_MAP
    maxCubeMapLevels cubeFaces
  return ⟨maxLevels, maxCubeMapLevels, 0, default2d, defaultCubeMap, []⟩

end TextureManager

end Textures

end Chromium.Gpu
