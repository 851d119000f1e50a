import Chromium.Gpu.TextureManager

/-!
# Runs of the texture manager

After every run the counter of the manager is the number of live textures that
may not be rendered. Setting the target of a texture does not adjust the
counter, so it relies on being called before any parameter or level is set: a
texture with the parameters of its constructor may not be rendered.
-/

namespace Chromium.Gpu.Textures

open List
open Library

namespace TextureManager

/-- The level of one black pixel. -/
def black : LevelInfo := (blackLevel GL_TEXTURE_2D).toLevelInfo

/-- Faces of one black pixel each are complete. -/
theorem updateFaces_black (isBlack : ∀ face ∈ faces, level0 face = black) :
    TextureInfo.updateFaces black 0 faces true cubeComplete = (true, cubeComplete) := by
  induction faces with
  | nil => rfl
  | cons face faces ih =>
    have same := isBlack face mem_cons_self
    have agrees : TextureInfo.facesDiffer black black = false := by decide
    rw [TextureInfo.updateFaces, if_pos (Or.inr rfl), same]
    simp only [agrees, Int.toNat_zero, TextureInfo.mipsComplete, Bool.and_true, Bool.not_false]
    exact ih (forall_mem_cons.mp isBlack).2

variable {info : TextureInfo}

/-- A texture whose faces are one black pixel each may be rendered with any
features. -/
theorem canRender_black (other : FeatureInfo) (faces : Nat)
    (isBlack : info.levelInfos.map level0 = List.replicate (faces + 1) black)
    (onlyLevel : info.maxLevelSet = 0) (bound : info.target ≠ 0) (present : info.deleted = false)
    (complete : info.target = GL_TEXTURE_2D ∨ faces = 5) :
    (info.update fs).canRender other = true := by
  have ne : info.levelInfos ≠ [] := by
    intro isNil
    simp [isNil] at isBlack
  have each : ∀ face ∈ info.levelInfos, level0 face = black := by
    intro face mem
    have mapped := List.mem_map_of_mem (f := level0) mem
    rw [isBlack] at mapped
    exact eq_of_mem_replicate mapped
  have first : info.firstFace = black := by
    unfold TextureInfo.firstFace
    cases equality : info.levelInfos with
    | nil => exact absurd equality ne
    | cons face faces => exact each face (equality ▸ mem_cons_self)
  have notNpot : (info.levelInfos.any fun face =>
      isNPOT (level0 face).width || isNPOT (level0 face).height ||
        isNPOT (level0 face).depth) = false := by
    rw [List.any_eq_false]
    intro face mem
    rw [each face mem]
    decide
  have length : info.levelInfos.length = faces + 1 := by simpa using congrArg length isBlack
  have one : computeMipMapCount black.width black.height black.depth = 1 := by decide
  have filtered : info.lacksFilter fs = false := by
    unfold TextureInfo.lacksFilter
    rw [first]
    simp [black, blackLevel, TextureInfo.LevelArgs.toLevelInfo,
      GL_UNSIGNED_BYTE, GL_FLOAT, GL_HALF_FLOAT_OES]
  have initially : decide ((0 : Int) = computeMipMapCount black.width black.height black.depth - 1 ∧
        (0 : Int) <= 0 ∧ ¬(black.width = 0 ∨ black.height = 0) ∧
        ¬info.lacksFilter fs) = true := by
    rw [one, filtered]
    rfl
  have squares : decide (info.levelInfos.length = 6 ∧
      black.width = black.height) = decide (faces = 5) := by
    simp [length, black, blackLevel, TextureInfo.LevelArgs.toLevelInfo]
  have npot : (info.update fs).npot = false := by
    rw [TextureInfo.update, if_neg ne]
    exact notNpot
  have textureComplete : (info.update fs).textureComplete = true := by
    rw [TextureInfo.update, if_neg ne]
    simp only [first, onlyLevel]
    rw [initially, updateFaces_black each]
  have cubeComplete : (info.update fs).cubeComplete = decide (faces = 5) := by
    rw [TextureInfo.update, if_neg ne]
    simp only [first, onlyLevel]
    rw [initially, squares, updateFaces_black each]
  have kept : (info.update fs).target = info.target ∧ (info.update fs).deleted = info.deleted := by
    rw [TextureInfo.update, if_neg ne]
    exact ⟨rfl, rfl⟩
  rw [TextureInfo.canRender, kept.1, kept.2, npot, textureComplete, cubeComplete]
  rcases complete with plane | cube
  · rw [plane] at bound
    simp [bound, present, plane]
  · simp [bound, present, cube]

/-- A default texture only depends on the number of levels. -/
theorem defaultTexture_toNat (maxLevels : Int) : defaultTexture serviceId target maxLevels faces =
      defaultTexture serviceId target maxLevels.toNat faces := by
  unfold defaultTexture TextureInfo.setTarget
  rw [Int.toNat_natCast]

/-- The default textures may be rendered with any features. -/
theorem canRender_defaultTexture (made : defaultTexture serviceId target levels faces = .ok info)
    (ofTarget : target = GL_TEXTURE_2D ∧ faces = [GL_TEXTURE_2D] ∨
      target = GL_TEXTURE_CUBE_MAP ∧ faces = cubeFaces) :
    info.canRender fs = true := by
  rw [defaultTexture_toNat] at made
  rcases ofTarget with ⟨rfl, rfl⟩ | ⟨rfl, rfl⟩
  · cases count : levels.toNat with
    | zero =>
      rw [count] at made
      cases made
    | succ others =>
      rw [count] at made
      cases made
      refine canRender_black _ 0 rfl rfl ?_ rfl (Or.inl rfl)
      change GL_TEXTURE_2D ≠ 0
      decide
  · cases count : levels.toNat with
    | zero =>
      rw [count] at made
      cases made
    | succ others =>
      rw [count] at made
      cases made
      refine canRender_black _ 5 rfl rfl ?_ rfl (Or.inr rfl)
      change GL_TEXTURE_CUBE_MAP ≠ 0
      decide

/-- After `Initialize` every live texture may be rendered with any features. -/
theorem init_spec (initialized : init maxTextureSize maxCubeMapTextureSize default2dId
      defaultCubeMapId = .ok manager) :
    manager.textureInfos = [] ∧ manager.numUnrenderableTextures = 0 ∧
      ∀ fs, ∀ info ∈ manager.live, info.canRender fs = true := by
  simp only [init, bind, Except.bind, pure, Except.pure] at initialized
  split at initialized
  · cases initialized
  · rename_i plane madePlane
    split at initialized
    · cases initialized
    · rename_i cube madeCube
      cases initialized
      refine ⟨rfl, rfl, ?_⟩
      intro fs info mem
      simp only [live, map_nil, mem_cons, not_mem_nil, or_false] at mem
      rcases mem with rfl | rfl
      · exact canRender_defaultTexture madePlane (Or.inl ⟨rfl, rfl⟩)
      · exact canRender_defaultTexture madeCube (Or.inr ⟨rfl, rfl⟩)

/-- The number of live textures that may not be rendered. -/
def unrenderable (fs : FeatureInfo) (manager : TextureManager) : Nat :=
  manager.live.countP fun info => !info.canRender fs

/-- What a texture contributes to the counter. -/
def weight (fs : FeatureInfo) (info : TextureInfo) : Nat :=
  if info.canRender fs then 0 else 1

theorem countP_cons_weight : ((info :: rest).countP fun info => !info.canRender fs) =
      (rest.countP fun info => !info.canRender fs) + weight fs info := by
  rw [countP_cons, weight]
  cases info.canRender fs <;> rfl

/-- Writing back an info exchanges its contribution. -/
theorem unrenderable_set (fs : FeatureInfo) (nodup : Assoc.Distinct manager.textureInfos)
    (hit : manager.get texture = some info) (next : TextureInfo) :
    unrenderable fs (manager.set texture next) + weight fs info =
      unrenderable fs manager + weight fs next := by
  unfold unrenderable live
  cases texture with
  | default2d =>
    cases hit
    simp only [set, countP_cons_weight]
    omega
  | defaultCubeMap =>
    cases hit
    simp only [set, countP_cons_weight]
    omega
  | named clientId =>
    obtain ⟨front, back, split, absent⟩ := nodup.exists_split hit
    simp only [set, split, Assoc.write_append_cons absent,
      map_append, map_cons, countP_cons_weight, countP_append]
    omega

/-- A new texture adds its contribution. -/
theorem unrenderable_cons :
    unrenderable fs { manager with
        textureInfos := (clientId, info) :: manager.textureInfos
        numUnrenderableTextures := counter } =
      unrenderable fs manager + weight fs info := by
  simp only [unrenderable, live, map_cons, countP_cons_weight]
  omega

/-- Erasing a texture takes its contribution away. -/
theorem unrenderable_erase (fs : FeatureInfo) (nodup : Assoc.Distinct manager.textureInfos)
    (hit : manager.textureInfos.lookup clientId = some info)
    (counter : Int) :
    unrenderable fs { manager with
        textureInfos := Assoc.erase manager.textureInfos clientId
        numUnrenderableTextures := counter } + weight fs info =
      unrenderable fs manager := by
  obtain ⟨front, back, split, absent⟩ := nodup.exists_split hit
  simp only [unrenderable, live, split, Assoc.erase_append_cons absent,
    map_append, map_cons, countP_cons_weight, countP_append]
  omega

/-- A texture of unknown levels with the filter of its constructor may not be
rendered. -/
theorem canRender_of_incomplete
    (initialFilter : info.minFilter = GL_NEAREST_MIPMAP_LINEAR) (powerOfTwo : info.npot = false)
    (incomplete : info.textureComplete = false) :
    info.canRender fs = false := by
  have needsMips : info.needsMips = true := by
    rw [TextureInfo.needsMips, initialFilter]
    decide
  rw [TextureInfo.canRender, powerOfTwo, needsMips, incomplete]
  simp

/-- Setting the target of a fresh texture keeps it from being rendered. -/
theorem canRender_setTarget {next : TextureInfo} (fs : FeatureInfo)
    (targeted : TextureInfo.setTarget { serviceId := serviceId } target levels = .ok next) :
    next.canRender fs = false := by
  cases targeted
  exact canRender_of_incomplete rfl rfl rfl

/-- An operation between subtracting a texture and adding it again keeps the
counter right. -/
theorem adjust_spec {after : TextureManager} (nodup : Assoc.Distinct manager.textureInfos)
    (counted : manager.numUnrenderableTextures = unrenderable fs manager)
    (adjusted : manager.adjust fs texture change = .ok (result, after)) :
    ∃ info next, manager.get texture = some info ∧ change info = .ok (result, next) ∧
      after.textureInfos = (manager.set texture next).textureInfos ∧
      after.numUnrenderableTextures = unrenderable fs after := by
  unfold adjust at adjusted
  split at adjusted
  · cases adjusted
  · rename_i info hit
    split at adjusted
    · cases adjusted
    · dsimp only at adjusted
      split at adjusted
      · cases adjusted
      · rename_i other next changed
        cases adjusted
        refine ⟨info, next, hit, changed, rfl, ?_⟩
        have exchanged := unrenderable_set fs nodup hit next
        change _ = ((unrenderable fs (manager.set texture next) : Nat) : Int)
        simp only [weight] at exchanged
        cases before : info.canRender fs <;> cases after : next.canRender fs <;>
          simp only [before, after, if_true, if_false, Bool.false_eq_true] at exchanged ⊢ <;>
          omega

/-- Adding a fresh texture keeps the counter right. -/
theorem createTextureInfo_spec {after : TextureManager}
    (counted : manager.numUnrenderableTextures = unrenderable fs manager)
    (created : manager.createTextureInfo fs clientId serviceId = .ok after) :
    after.textureInfos = (clientId, { serviceId := serviceId }) :: manager.textureInfos ∧
      manager.textureInfos.lookup clientId = none ∧
      after.numUnrenderableTextures = unrenderable fs after := by
  unfold createTextureInfo at created
  split at created
  · cases created
  · rename_i vacant
    cases created
    have absent : manager.textureInfos.lookup clientId = none :=
      Option.not_isSome_iff_eq_none.mp vacant
    have hidden : TextureInfo.canRender fs { serviceId := serviceId } = false := rfl
    refine ⟨rfl, absent, ?_⟩
    rw [unrenderable_cons, weight, hidden]
    simp [counted]

/-- Removing a texture keeps the counter right. -/
theorem removeTextureInfo_spec (nodup : Assoc.Distinct manager.textureInfos)
    (counted : manager.numUnrenderableTextures = unrenderable fs manager) :
    (manager.removeTextureInfo fs clientId).textureInfos =
        Assoc.erase manager.textureInfos clientId ∧
      (manager.removeTextureInfo fs clientId).numUnrenderableTextures =
        unrenderable fs (manager.removeTextureInfo fs clientId) := by
  unfold removeTextureInfo
  split
  · rename_i vacant
    refine ⟨(Assoc.erase_of_absent ?_).symm, counted⟩
    intro entry mem same
    have ne := lookup_eq_none_iff.mp vacant entry mem
    rw [bne_iff_ne] at ne
    exact ne same.symm
  · rename_i info found
    refine ⟨rfl, ?_⟩
    have removed := unrenderable_erase fs nodup found
    simp only [weight] at removed
    cases renders : info.canRender fs with
    | true =>
      have same := removed manager.numUnrenderableTextures
      rw [renders, if_pos rfl] at same
      simp only [if_true]
      omega
    | false =>
      have same := removed (manager.numUnrenderableTextures - 1)
      rw [renders, if_neg Bool.false_ne_true] at same
      simp only [Bool.false_eq_true, if_false]
      omega

end TextureManager

/-- The calls that create, change and remove textures. -/
inductive Call
  | createTextureInfo (clientId serviceId : Nat)
  | setInfoTarget (texture : Texture) (target : Nat)
  | setLevelInfo (texture : Texture) (args : TextureInfo.LevelArgs)
  | setParameter (texture : Texture) (pname : Nat) (param : Int)
  | markMipmapsGenerated (texture : Texture)
  | removeTextureInfo (clientId : Nat)

/-- The manager together with the client ids of the textures on which no
target, level or parameter was set since they were created. -/
structure Session where
  manager : TextureManager
  fresh : List Nat

namespace Session

open TextureManager

/-- The session after `Initialize`. -/
def start (manager : TextureManager) : Session where
  manager := manager
  fresh := []

/-- The fresh textures other than one that is set up. -/
def touch (s : Session) (texture : Texture) : List Nat :=
  s.fresh.filter fun clientId => .named clientId ≠ texture

/-- The session after a call with fixed features, unless a check of the source
fails. -/
def perform (fs : FeatureInfo) (s : Session) : Call -> Except Fault Session
  | .createTextureInfo clientId serviceId =>
    (s.manager.createTextureInfo fs clientId serviceId).map (⟨·, clientId :: s.fresh⟩)
  | .setInfoTarget texture target =>
    (s.manager.setInfoTarget texture target).map (⟨·, s.touch texture⟩)
  | .setLevelInfo texture args =>
    (s.manager.setLevelInfo fs texture args).map (⟨·.2, s.touch texture⟩)
  | .setParameter texture pname param =>
    (s.manager.setParameter fs texture pname param).map (⟨·.2, s.touch texture⟩)
  | .markMipmapsGenerated texture =>
    (s.manager.markMipmapsGenerated fs texture).map (⟨·.2, s.fresh⟩)
  | .removeTextureInfo clientId =>
    .ok ⟨s.manager.removeTextureInfo fs clientId, s.touch (.named clientId)⟩

/-- The target of a texture is set once, before any parameter or level. -/
def Permitted (s : Session) : Call -> Prop
  | .setInfoTarget texture _ => ∃ clientId ∈ s.fresh, texture = .named clientId
  | _ => True

/-- The step relation of a session on permitted calls. -/
def Performed (fs : FeatureInfo) (s : Session) (call : Call) (next : Session) : Prop :=
  s.Permitted call ∧ s.perform fs call = .ok next

/-- The counter is right, and the fresh textures are as constructed. -/
structure Consistent (fs : FeatureInfo) (s : Session) : Prop where
  distinct : Assoc.Distinct s.manager.textureInfos
  counted : s.manager.numUnrenderableTextures = s.manager.unrenderable fs
  untouched : ∀ clientId ∈ s.fresh, ∃ serviceId,
    s.manager.textureInfos.lookup clientId = some { serviceId := serviceId }

variable {s : Session} {after : TextureManager}

theorem mem_touch : clientId ∈ s.touch texture ↔
      clientId ∈ s.fresh ∧ .named clientId ≠ texture := by
  simp [touch]

/-- Writing back a texture does not change the other textures. -/
theorem lookup_set_of_ne (manager : TextureManager) (ne : .named clientId ≠ texture) :
    (manager.set texture info).textureInfos.lookup clientId =
      manager.textureInfos.lookup clientId := by
  cases texture with
  | default2d => rfl
  | defaultCubeMap => rfl
  | named other =>
    apply Assoc.lookup_write_of_ne
    intro same
    exact ne (congrArg _ same)

/-- Writing back a texture keeps the keys distinct. -/
theorem distinct_set {manager : TextureManager} (nodup : Assoc.Distinct manager.textureInfos) :
    Assoc.Distinct (manager.set texture info).textureInfos := by
  cases texture with
  | default2d => exact nodup
  | defaultCubeMap => exact nodup
  | named clientId => exact nodup.write clientId info

section

variable (holds : s.Consistent fs)
include holds

/-- An operation that adjusts the counter keeps the session consistent, when
the texture counts as touched or stays as constructed. -/
theorem Consistent.adjust {change : TextureInfo -> Except Fault (α × TextureInfo)}
    (adjusted : s.manager.adjust fs texture change = .ok (result, after))
    (fresh : List Nat)
    (stays : ∀ clientId ∈ fresh, clientId ∈ s.fresh ∧
      (texture = .named clientId -> ∀ serviceId other next,
        change { serviceId := serviceId } = .ok (other, next) ->
          next = { serviceId := serviceId })) :
    Consistent fs ⟨after, fresh⟩ := by
  obtain ⟨info, next, hit, changed, sameInfos, counted⟩ :=
    TextureManager.adjust_spec holds.distinct holds.counted adjusted
  refine ⟨?_, counted, ?_⟩
  · rw [sameInfos]
    exact distinct_set holds.distinct
  · intro clientId mem
    obtain ⟨wasFresh, unchanged⟩ := stays clientId mem
    obtain ⟨serviceId, stored⟩ := holds.untouched clientId wasFresh
    refine ⟨serviceId, ?_⟩
    rw [sameInfos]
    by_cases same : texture = .named clientId
    · subst same
      have equal : info = { serviceId := serviceId } := Option.some.inj (hit.symm.trans stored)
      rw [equal] at changed
      rw [unchanged rfl serviceId result next changed]
      exact Assoc.lookup_write_self stored
    · rw [lookup_set_of_ne _ (Ne.symm same)]
      exact stored

/-- Creating a texture keeps the session consistent. -/
theorem Consistent.createTextureInfo
    (created : s.manager.createTextureInfo fs clientId serviceId = .ok after) :
    Consistent fs ⟨after, clientId :: s.fresh⟩ := by
  obtain ⟨infos, absent, counted⟩ :=
    TextureManager.createTextureInfo_spec holds.counted created
  refine ⟨?_, counted, ?_⟩
  · dsimp only
    rw [infos]
    exact holds.distinct.cons absent _
  · intro other mem
    rw [infos]
    rcases mem_cons.mp mem with rfl | older
    · exact ⟨serviceId, lookup_cons_self⟩
    · obtain ⟨stored, hit⟩ := holds.untouched other older
      refine ⟨stored, ?_⟩
      have ne : (other == clientId) = false := by
        rw [beq_eq_false_iff_ne]
        rintro rfl
        rw [absent] at hit
        cases hit
      rw [lookup_cons, ne]
      exact hit

/-- Setting the target of a fresh texture keeps the session consistent, though
it does not adjust the counter. -/
theorem Consistent.setInfoTarget (isFresh : clientId ∈ s.fresh)
    (targeted : s.manager.setInfoTarget (.named clientId) target = .ok after) :
    Consistent fs ⟨after, s.touch (.named clientId)⟩ := by
  obtain ⟨serviceId, stored⟩ := holds.untouched clientId isFresh
  have hit : s.manager.get (.named clientId) = some { serviceId := serviceId } := stored
  rw [TextureManager.setInfoTarget, hit] at targeted
  dsimp only at targeted
  split at targeted
  · cases targeted
  · rename_i next changed
    cases targeted
    have exchanged := TextureManager.unrenderable_set fs holds.distinct hit next
    have hidden := TextureManager.canRender_setTarget fs changed
    have wasHidden : TextureInfo.canRender fs { serviceId := serviceId } = false := rfl
    simp only [TextureManager.weight, hidden, wasHidden] at exchanged
    refine ⟨distinct_set holds.distinct, ?_, ?_⟩
    · have sameCount : unrenderable fs (s.manager.set (.named clientId) next) =
            unrenderable fs s.manager := by omega
      exact holds.counted.trans (congrArg _ sameCount.symm)
    · intro other mem
      obtain ⟨wasFresh, ne⟩ := mem_touch.mp mem
      rw [lookup_set_of_ne _ ne]
      exact holds.untouched other wasFresh

/-- Removing a texture keeps the session consistent. -/
theorem Consistent.removeTextureInfo (clientId : Nat) :
    Consistent fs ⟨s.manager.removeTextureInfo fs clientId, s.touch (.named clientId)⟩ := by
  obtain ⟨infos, counted⟩ := TextureManager.removeTextureInfo_spec holds.distinct holds.counted
  refine ⟨?_, counted, ?_⟩
  · dsimp only
    rw [infos]
    exact holds.distinct.erase clientId
  · intro other mem
    obtain ⟨wasFresh, ne⟩ := mem_touch.mp mem
    rw [infos, Assoc.lookup_erase_of_ne fun same => ne (congrArg _ same)]
    exact holds.untouched other wasFresh

/-- An operation that adjusts the counter and sets up its texture keeps the
session consistent. -/
theorem Consistent.adjust_touch {change : TextureInfo -> Except Fault (α × TextureInfo)}
    (adjusted : s.manager.adjust fs texture change = .ok (result, after)) :
    Consistent fs ⟨after, s.touch texture⟩ := by
  refine holds.adjust adjusted _ fun clientId mem => ?_
  obtain ⟨wasFresh, ne⟩ := mem_touch.mp mem
  exact ⟨wasFresh, fun same => absurd same.symm ne⟩

/-- Every permitted call keeps the session consistent. -/
theorem Consistent.performed {next : Session}
    (performed : s.Performed fs call next) : next.Consistent fs := by
  obtain ⟨ok, performed⟩ := performed
  cases call with
  | createTextureInfo clientId serviceId =>
    obtain ⟨after, created, rfl⟩ := map_eq_ok_iff.mp performed
    exact holds.createTextureInfo created
  | setInfoTarget texture target =>
    obtain ⟨clientId, isFresh, rfl⟩ := ok
    obtain ⟨after, targeted, rfl⟩ := map_eq_ok_iff.mp performed
    exact holds.setInfoTarget isFresh targeted
  | setLevelInfo texture args =>
    obtain ⟨after, adjusted, rfl⟩ := map_eq_ok_iff.mp performed
    exact holds.adjust_touch adjusted
  | setParameter texture pname param =>
    obtain ⟨after, adjusted, rfl⟩ := map_eq_ok_iff.mp performed
    exact holds.adjust_touch adjusted
  | markMipmapsGenerated texture =>
    obtain ⟨after, adjusted, rfl⟩ := map_eq_ok_iff.mp performed
    refine holds.adjust adjusted _ fun clientId mem => ⟨mem, ?_⟩
    rintro - serviceId other next changed
    cases changed
    rfl
  | removeTextureInfo clientId =>
    cases performed
    exact holds.removeTextureInfo clientId

end

/-- After every run from `Initialize` with fixed features, the counter is the
number of live textures that may not be rendered, so the manager has no
unrenderable textures exactly when every live texture may be rendered. -/
theorem textureManager_run_counts {manager : TextureManager} {s : Session}
    (initialized : TextureManager.init maxTextureSize maxCubeMapTextureSize
      default2dId defaultCubeMapId = .ok manager)
    (run : Run (Performed fs) (start manager) calls s) :
    s.manager.numUnrenderableTextures = ((s.manager.live.filter
          fun info => ¬info.canRender fs).length : Int) ∧
      (s.manager.haveUnrenderableTextures = false ↔
        ∀ info ∈ s.manager.live, info.canRender fs = true) := by
  obtain ⟨noInfos, zero, renders⟩ := TextureManager.init_spec initialized
  have startConsistent : (start manager).Consistent fs := by
    refine ⟨?_, ?_, by simp [start]⟩
    · simp [start, noInfos, Assoc.Distinct]
    · have none : unrenderable fs manager = 0 := by
        rw [unrenderable, countP_eq_zero]
        intro info member
        simp [renders fs info member]
      simp only [start, zero, none]
      rfl
  have holds : s.Consistent fs :=
    run.invariant (Consistent fs) (fun holds performed => holds.performed performed) startConsistent
  have counted := holds.counted
  refine ⟨?_, ?_⟩
  · rw [counted, unrenderable, countP_eq_length_filter]
    simp
  · have noneHidden : unrenderable fs s.manager = 0 ↔
        ∀ info ∈ s.manager.live, info.canRender fs = true := by
      rw [unrenderable, countP_eq_zero]
      simp
    rw [haveUnrenderableTextures, counted, decide_eq_false_iff_not, ← noneHidden]
    omega

/-- A run that creates a texture, sets it up and makes it renderable. -/
theorem textureManager_run_counts_linear : ∃ manager s,
      TextureManager.init 64 64 1 2 = .ok manager ∧
      Run (Performed ⟨false, false, false⟩) (start manager)
        [.createTextureInfo 5 9, .setInfoTarget (.named 5) GL_TEXTURE_2D,
          .setParameter (.named 5) GL_TEXTURE_MIN_FILTER GL_LINEAR] s ∧
      (s.manager.haveUnrenderableTextures = false ↔ ∀ info ∈ s.manager.live,
          info.canRender ⟨false, false, false⟩ = true) := by
  obtain ⟨manager, initialized⟩ : ∃ manager, TextureManager.init 64 64 1 2 = .ok manager := ⟨_, rfl⟩
  have noInfos := (TextureManager.init_spec initialized).1
  obtain ⟨s, run⟩ : ∃ s, Run (Performed ⟨false, false, false⟩) (start manager)
        [.createTextureInfo 5 9, .setInfoTarget (.named 5) GL_TEXTURE_2D,
          .setParameter (.named 5) GL_TEXTURE_MIN_FILTER GL_LINEAR]
        s := by
    obtain ⟨maxLevels, maxCubeMapLevels, counter, default2d, defaultCubeMap, infos⟩ := manager
    cases noInfos
    exact ⟨_, .cons ⟨trivial, rfl⟩ (.cons ⟨⟨5, mem_cons_self, rfl⟩, rfl⟩
      (.cons ⟨trivial, rfl⟩ (.nil _)))⟩
  exact ⟨manager, s, initialized, run, (textureManager_run_counts initialized run).2⟩

end Session

end Chromium.Gpu.Textures
