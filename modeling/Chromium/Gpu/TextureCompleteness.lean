import Chromium.Gpu.TextureManager
import Mathlib.Data.List.GetD
import Mathlib.Data.Nat.Log

/-!
# Texture completeness

`Update` compares the largest level that was ever set with the last level that
the first face needs. This module says what texture completeness is, level by
level, and when the two agree.
-/

namespace Chromium.Gpu.Textures

open List
open Library

theorem foldl_log2Floor (n : Nat) : ∀ {val log : Nat}, val ≠ 0 -> val < 2 ^ 2 ^ n ->
      ((List.range n).reverse.foldl (fun (s : Nat × Nat) index =>
        let shifted := s.1 >>> (2 ^ index)
        if shifted ≠ 0 then (shifted, s.2 + 2 ^ index) else s)
        (val, log)).2 = log + Nat.log 2 val := by
  induction n with
  | zero =>
    intro val log nonzero small
    have one : val = 1 := by omega
    simp [one]
  | succ n ih =>
    intro val log nonzero small
    rw [range_succ, reverse_append, reverse_singleton, singleton_append, foldl_cons]
    dsimp only
    have halves : Nat.log 2 (val >>> 2 ^ n) = Nat.log 2 val - 2 ^ n := by
      rw [Nat.shiftRight_eq_div_pow, Nat.log_div_base_pow]
    split_ifs with large
    · have reaches : 2 ^ n <= Nat.log 2 val := by
        apply Nat.le_log_of_pow_le (by decide)
        rw [Nat.shiftRight_eq_div_pow] at large
        exact Nat.le_of_not_lt fun less => large (Nat.div_eq_of_lt less)
      rw [ih large ?_, halves]
      · omega
      · rw [Nat.shiftRight_eq_div_pow]
        apply Nat.div_lt_of_lt_mul
        rwa [← Nat.pow_add, ← Nat.two_mul, ← Nat.pow_succ']
    · apply ih nonzero
      rw [Nat.shiftRight_eq_div_pow, not_not] at large
      exact (Nat.div_eq_zero_iff.mp large).resolve_left (Nat.two_pow_pos _).ne'

theorem log2Floor_eq (nonzero : number ≠ 0) (small : number < 2 ^ 32) :
    log2Floor number = Nat.log 2 number := by
  have folded := @foldl_log2Floor 5 number 0 nonzero small
  rw [Nat.zero_add] at folded
  rw [log2Floor, if_neg nonzero, ← folded]
  rfl

/-- The last level that is needed from a first level down to a single pixel. -/
def lastMip (first : LevelInfo) : Nat :=
  Nat.log 2 (max (max first.width first.height) first.depth).toNat

theorem computeMipMapCount_eq (pos : 0 < max (max first.width first.height) first.depth)
    (small : max (max first.width first.height) first.depth < 2 ^ 31) :
    computeMipMapCount first.width first.height first.depth = lastMip first + 1 := by
  rw [computeMipMapCount, Int.emod_eq_of_lt (by omega) (by omega),
    log2Floor_eq (by omega) (by omega), lastMip]
  omega

/-- A level is set as a mip of a first level, with some dimensions. -/
def IsMip (first info : LevelInfo) (width height depth : Int) : Prop :=
  info.valid = true ∧ info.width = width ∧ info.height = height ∧
    info.depth = depth ∧ info.internalFormat = first.internalFormat ∧
      info.format = first.format ∧ info.type = first.type

/-- The levels of a face from one on are the mips of its first level, down to
a last level. -/
def MipsFit (last : Nat) (face : List LevelInfo) : Prop :=
  ∀ level, 0 < level -> level <= last -> IsMip (level0 face) (face.getD level {})
      (nextMip^[level] (level0 face).width)
      (nextMip^[level] (level0 face).height)
      (nextMip^[level] (level0 face).depth)

/-- The first level of a face is set and not empty. -/
def HasBase (face : List LevelInfo) : Prop :=
  (level0 face).valid = true ∧ (level0 face).width ≠ 0 ∧ (level0 face).height ≠ 0

namespace TextureInfo

section

variable (info : TextureInfo)

/-- The required mips of every face are set. -/
def MipsSet : Prop := ∀ face ∈ info.levelInfos, MipsFit (lastMip info.firstFace) face

/-- The first level of every face is set. -/
def BasesSet : Prop := ∀ face ∈ info.levelInfos, HasBase face

/-- What texture completeness means: every face has its first level and the
mips that the first face needs. -/
def Complete : Prop := info.BasesSet ∧ info.MipsSet

/-- The first face is not empty. -/
def FirstNonempty : Prop := info.firstFace.width ≠ 0 ∧ info.firstFace.height ≠ 0

end

/-- No level above the last one that is needed was ever set, once all that are
needed are, and no face lacks its first level where the rest is there. -/
structure Unambiguous (info : TextureInfo) : Prop where
  noStaleLevel : info.BasesSet -> info.MipsSet -> info.maxLevelSet <= lastMip info.firstFace
  noMissingBase : info.FirstNonempty -> info.MipsSet ->
    info.maxLevelSet = lastMip info.firstFace -> info.BasesSet

end TextureInfo

theorem mipsComplete_iff : ∀ {level : Nat} {width height depth : Int},
      TextureInfo.mipsComplete face left level width height depth = true ↔
        ∀ i < left, IsMip (level0 face) (face.getD (level + i) {})
          (nextMip^[i + 1] width) (nextMip^[i + 1] height) (nextMip^[i + 1] depth) := by
  induction left with
  | zero =>
    intro level width height depth
    simp [TextureInfo.mipsComplete]
  | succ left ih =>
    intro level width height depth
    have first : ∀ next : LevelInfo, (¬(!next.valid ∨
        next.width ≠ nextMip width ∨ next.height ≠ nextMip height ∨
        next.depth ≠ nextMip depth ∨
        next.internalFormat ≠ (level0 face).internalFormat ∨
        next.format ≠ (level0 face).format ∨
        next.type ≠ (level0 face).type)) ↔
          IsMip (level0 face) next (nextMip width) (nextMip height) (nextMip depth) := by
      intro next
      simp [IsMip]
    rw [TextureInfo.mipsComplete]
    by_cases fits : IsMip (level0 face) (face.getD level {}) (nextMip width)
        (nextMip height) (nextMip depth)
    · rw [if_neg ((first _).mpr fits), ih]
      constructor
      · intro rest i bound
        cases i with
        | zero => exact fits
        | succ i =>
          have := rest i (by omega)
          rwa [Nat.add_right_comm] at this
      · intro all i bound
        have := all (i + 1) (by omega)
        rwa [← Nat.add_assoc, Nat.add_right_comm] at this
    · rw [if_pos (not_not.mp fun no => fits ((first _).mp no))]
      simp only [Bool.false_eq_true, false_iff]
      intro all
      exact fits (all 0 (by omega))

theorem mipsComplete_level0_iff : TextureInfo.mipsComplete face last 1 (level0 face).width
        (level0 face).height (level0 face).depth = true ↔ MipsFit last face := by
  rw [mipsComplete_iff]
  constructor
  · intro all level pos bound
    have := all (level - 1) (by omega)
    rwa [Nat.add_sub_of_le pos, Nat.sub_add_cancel pos] at this
  · intro fits i bound
    rw [Nat.add_comm 1 i]
    exact fits (i + 1) (by omega) (by omega)

namespace TextureInfo

theorem updateFaces_fst (first : LevelInfo) (maxLevelSet : Int) (faces : List (List LevelInfo)) :
    ∀ textureComplete cubeComplete,
      (updateFaces first maxLevelSet faces textureComplete cubeComplete).1 = true ↔
        textureComplete = true ∧ ∀ face ∈ faces, MipsFit maxLevelSet.toNat face := by
  induction faces with
  | nil =>
    intro textureComplete cubeComplete
    simp [updateFaces]
  | cons face faces ih =>
    intro textureComplete cubeComplete
    rw [updateFaces]
    split_ifs with goesOn
    · rw [ih, Bool.and_eq_true, mipsComplete_level0_iff, forall_mem_cons, and_assoc]
    · rw [not_or, Bool.not_eq_true, Bool.not_eq_true] at goesOn
      simp [goesOn.2]

/-- A level that was never set, or one of unsigned bytes with dimensions. -/
def Plain (level : LevelInfo) : Prop :=
  level = {} ∨ (level.valid = true ∧ level.type = GL_UNSIGNED_BYTE ∧
    (0 <= level.width ∧ level.width < 2 ^ 31) ∧
    (0 <= level.height ∧ level.height < 2 ^ 31) ∧ 0 <= level.depth ∧ level.depth < 2 ^ 31)

/-- The levels of a face are plain, and none above a last one is set. -/
def FaceKept (maxLevelSet : Int) (face : List LevelInfo) : Prop :=
  ∀ level : Nat, Plain (face.getD level {}) ∧
    ((face.getD level {}).valid = true -> (level : Int) <= maxLevelSet)

/-- Texture completeness is what `Update` finds in the levels. -/
structure Kept (info : TextureInfo) : Prop where
  faces : info.levelInfos.length = if info.target = GL_TEXTURE_2D then 1 else 6
  face : ∀ face ∈ info.levelInfos, FaceKept info.maxLevelSet face
  updated : info.textureComplete = true ↔ info.maxLevelSet = computeMipMapCount info.firstFace.width
        info.firstFace.height info.firstFace.depth - 1 ∧
      0 <= info.maxLevelSet ∧ info.FirstNonempty ∧
        ∀ face ∈ info.levelInfos, MipsFit info.maxLevelSet.toNat face

variable {info next : TextureInfo} {fs : FeatureInfo} {args : LevelArgs}

theorem Kept.first (kept : Kept info) :
    info.levelInfos.getD 0 [] ∈ info.levelInfos ∧ Plain info.firstFace := by
  have some_ : 0 < info.levelInfos.length := by
    rw [kept.faces]
    split <;> decide
  have mem : info.levelInfos.getD 0 [] ∈ info.levelInfos := by
    rw [getD_eq_getElem _ _ some_]
    exact getElem_mem some_
  exact ⟨mem, (kept.face _ mem 0).1⟩

theorem update_levels (fs : FeatureInfo) (info : TextureInfo) :
    (update fs info).levelInfos = info.levelInfos ∧
      (update fs info).maxLevelSet = info.maxLevelSet ∧
      (update fs info).target = info.target := by
  unfold update
  split_ifs
  · exact ⟨rfl, rfl, rfl⟩
  · exact ⟨rfl, rfl, rfl⟩

theorem kept_update (faces : info.levelInfos.length = if info.target = GL_TEXTURE_2D then 1 else 6)
    (face : ∀ face ∈ info.levelInfos, FaceKept info.maxLevelSet face) :
    Kept (update fs info) := by
  have some_ : info.levelInfos ≠ [] := by
    rintro none
    rw [none] at faces
    split at faces <;> cases faces
  have levels := update_levels fs info
  have firstFace : (update fs info).firstFace = info.firstFace := by
    rw [TextureInfo.firstFace, levels.1]
    rfl
  refine ⟨?_, ?_, ?_⟩
  · rw [levels.1, levels.2.2, faces]
  · rw [levels.1, levels.2.1]
    exact face
  · have plain : lacksFilter fs info = false := by
      have mem : info.levelInfos.getD 0 [] ∈ info.levelInfos := by
        rw [getD_eq_getElem _ _ (length_pos_of_ne_nil some_)]
        exact getElem_mem _
      have byte : info.firstFace.type = 0 ∨ info.firstFace.type = GL_UNSIGNED_BYTE := by
        rcases (face _ mem 0).1 with unset | isSet
        · left
          exact congrArg LevelInfo.type unset
        · exact .inr isSet.2.1
      rcases byte with byte | byte <;>
        simp [lacksFilter, byte, GL_FLOAT, GL_HALF_FLOAT_OES, GL_UNSIGNED_BYTE]
    have complete : (update fs info).textureComplete =
        (updateFaces info.firstFace info.maxLevelSet info.levelInfos (decide (info.maxLevelSet =
            computeMipMapCount info.firstFace.width info.firstFace.height info.firstFace.depth - 1 ∧
            0 <= info.maxLevelSet ∧
            ¬(info.firstFace.width = 0 ∨ info.firstFace.height = 0) ∧
              ¬lacksFilter fs info = true))
          (decide (info.levelInfos.length = 6 ∧
            info.firstFace.width = info.firstFace.height))).1 := by
      rw [update, if_neg some_]
    rw [complete, updateFaces_fst, levels.1, levels.2.1]
    simp only [FirstNonempty, firstFace, plain, decide_eq_true_eq, not_or]
    simp [and_assoc]

theorem setLevelInfo_ok (isSet : setLevelInfo fs info args = .ok next) :
    ∃ face, 0 <= args.level ∧ glTargetToFaceIndex args.target = .ok face ∧
      args.level.toNat < (info.levelInfos.getD face []).length ∧
      next = update fs { info with
        levelInfos := info.levelInfos.modify face fun levels =>
          levels.set args.level.toNat args.toLevelInfo
        maxLevelSet := max info.maxLevelSet args.level } := by
  by_cases negative : args.level < 0
  · simp [setLevelInfo, negative, bind, Except.bind, throw, throwThe, MonadExceptOf.throw] at isSet
  · cases i : glTargetToFaceIndex args.target with
    | error fault => simp [setLevelInfo, negative, i, bind, Except.bind] at isSet
    | ok face =>
      by_cases levelless : args.level.toNat < (info.levelInfos.getD face []).length
      · refine ⟨face, not_lt.mp negative, rfl, levelless, ?_⟩
        simp only [setLevelInfo, negative, i, bind, Except.bind, throw,
          throwThe, MonadExceptOf.throw, pure, Except.pure, if_false] at isSet
        split_ifs at isSet
        cases isSet
        rfl
      · simp only [setLevelInfo, negative, i, levelless, bind, Except.bind,
          throw, throwThe, MonadExceptOf.throw, pure, Except.pure, if_false,
          not_false_eq_true, if_true] at isSet
        split_ifs at isSet

theorem getD_set_level (levels : List LevelInfo) (i level : Nat)
    (info : LevelInfo) (bound : i < levels.length) :
    (levels.set i info).getD level {} =
      if level = i then info else levels.getD level {} := by
  rw [getD_eq_getElem?_getD, List.getElem?_set]
  by_cases same : i = level
  · rw [if_pos same, if_pos bound, if_pos same.symm]
    rfl
  · rw [if_neg same, if_neg fun equal => same equal.symm, getD_eq_getElem?_getD]

theorem plain_toLevelInfo (type : args.type = GL_UNSIGNED_BYTE)
    (width : 0 ≤ args.width ∧ args.width < 2 ^ 31) (height : 0 ≤ args.height ∧ args.height < 2 ^ 31)
    (depth : 0 <= args.depth ∧ args.depth < 2 ^ 31) :
    Plain args.toLevelInfo :=
  .inr ⟨rfl, type, width, height, depth⟩

theorem mem_modify {faces : List (List LevelInfo)} (mem : face ∈ faces.modify index change) :
    face ∈ faces ∨ (index < faces.length ∧ face = change (faces.getD index [])) := by
  obtain ⟨place, bound, rfl⟩ := mem_iff_getElem.mp mem
  rw [length_modify] at bound
  rw [getElem_modify]
  split_ifs with same
  · subst same
    exact .inr ⟨bound, by rw [getD_eq_getElem _ _ bound]⟩
  · exact .inl (getElem_mem bound)

/-- Setting a plain level keeps a texture. -/
theorem Kept.setLevelInfo (kept : Kept info) (plain : Plain args.toLevelInfo)
    (isSet : info.setLevelInfo fs args = .ok next) :
    Kept next := by
  obtain ⟨i, nonneg, -, bound, rfl⟩ := setLevelInfo_ok isSet
  apply kept_update
  · simpa using kept.faces
  · intro face mem level
    have grows : info.maxLevelSet <= max info.maxLevelSet args.level := le_max_left _ _
    rcases mem_modify mem with before | ⟨here, rfl⟩
    · have held := kept.face face before level
      exact ⟨held.1, fun valid => (held.2 valid).trans grows⟩
    · have inside : info.levelInfos.getD i [] ∈ info.levelInfos := by
        rw [getD_eq_getElem _ _ here]
        exact getElem_mem here
      have held := kept.face _ inside level
      rw [getD_set_level _ _ _ _ bound]
      split_ifs with same
      · refine ⟨plain, fun _ => ?_⟩
        dsimp only
        omega
      · exact ⟨held.1, fun valid => (held.2 valid).trans grows⟩

/-- Setting a parameter leaves the levels alone. -/
theorem Kept.setParameter (kept : Kept info) (isSet : info.setParameter fs pname param = .ok next) :
    Kept next := by
  unfold TextureInfo.setParameter at isSet
  split_ifs at isSet
  all_goals
    cases isSet
    exact kept_update kept.faces kept.face

theorem nextMip_range (range : 0 <= dimension ∧ dimension < 2 ^ 31) :
    0 <= nextMip dimension ∧ nextMip dimension < 2 ^ 31 := by
  rw [nextMip, Int.shiftRight_eq_div_pow]
  omega

section Generating

variable {target : Nat} {first : LevelInfo}

theorem generateLevels_succ {info next : TextureInfo}
    (gen : generateLevels fs target first (left + 1) level width height depth info = .ok next) :
    ∃ middle, info.setLevelInfo fs ⟨target, level, first.internalFormat,
        nextMip width, nextMip height, nextMip depth, first.border,
        first.format, first.type⟩ = .ok middle ∧
      generateLevels fs target first left (level + 1) (nextMip width)
        (nextMip height) (nextMip depth) middle = .ok next := by
  rw [generateLevels] at gen
  generalize info.setLevelInfo fs _ = result at gen ⊢
  cases result with
  | error fault => cases gen
  | ok middle => exact ⟨middle, rfl, gen⟩

theorem Kept.generateLevels (type : first.type = GL_UNSIGNED_BYTE) (left : Nat) :
    ∀ {level width height depth : Int} {info next : TextureInfo}, Kept info ->
      (0 ≤ width ∧ width < 2 ^ 31) → (0 ≤ height ∧ height < 2 ^ 31) → (0 ≤ depth ∧ depth < 2 ^ 31) →
      TextureInfo.generateLevels fs target first left level width height
        depth info = .ok next -> Kept next := by
  induction left with
  | zero =>
    intro level width height depth info next kept _ _ _ gen
    cases gen
    exact kept
  | succ left ih =>
    intro level width height depth info next kept isWidth isHeight isDepth gen
    obtain ⟨middle, isSet, rest⟩ := generateLevels_succ gen
    have kept' := kept.setLevelInfo
      (plain_toLevelInfo type (nextMip_range isWidth) (nextMip_range isHeight)
        (nextMip_range isDepth)) isSet
    exact ih kept' (nextMip_range isWidth) (nextMip_range isHeight) (nextMip_range isDepth) rest

end Generating

theorem generateFaces_succ (gen : generateFaces fs (left + 1) face info = .ok next) :
    ∃ target middle, (info.target = GL_TEXTURE_2D -> target = GL_TEXTURE_2D) ∧
      generateLevels fs target (level0 (info.levelInfos.getD face []))
        (computeMipMapCount (level0 (info.levelInfos.getD face [])).width
          (level0 (info.levelInfos.getD face [])).height
          (level0 (info.levelInfos.getD face [])).depth - 1).toNat 1
        (level0 (info.levelInfos.getD face [])).width (level0 (info.levelInfos.getD face [])).height
        (level0 (info.levelInfos.getD face [])).depth info = .ok middle ∧
      generateFaces fs left (face + 1) middle = .ok next := by
  rw [generateFaces] at gen
  split_ifs at gen with planar
  · simp only [pure_bind] at gen
    generalize levels : TextureInfo.generateLevels fs _ _ _ _ _ _ _ _ = result at gen
    cases result with
    | error fault => cases gen
    | ok middle => exact ⟨_, middle, fun _ => rfl, levels, gen⟩
  · cases toTarget : faceIndexToGLTarget face with
    | error fault =>
      rw [toTarget] at gen
      cases gen
    | ok target =>
      rw [toTarget] at gen
      simp only [bind, Except.bind] at gen
      generalize levels : TextureInfo.generateLevels fs _ _ _ _ _ _ _ _ = result at gen
      cases result with
      | error fault => cases gen
      | ok middle => exact ⟨target, middle, fun equal => absurd equal planar, levels, gen⟩

theorem Kept.generateFaces (left : Nat) : ∀ {face : Nat} {info next : TextureInfo}, Kept info ->
      TextureInfo.generateFaces fs left face info = .ok next -> Kept next := by
  induction left with
  | zero =>
    intro face info next kept gen
    cases gen
    exact kept
  | succ left ih =>
    intro face info next kept gen
    obtain ⟨target, middle, -, levels, rest⟩ := generateFaces_succ gen
    refine ih ?_ rest
    have plain : Plain (level0 (info.levelInfos.getD face [])) := by
      by_cases bound : face < info.levelInfos.length
      · rw [getD_eq_getElem _ _ bound]
        exact (kept.face _ (getElem_mem bound) 0).1
      · rw [getD_eq_default _ _ (not_lt.mp bound)]
        exact .inl rfl
    rcases plain with unset | ⟨-, type, width, height, depth⟩
    · rw [unset] at levels
      -- Nothing is generated from a level that was never set.
      cases levels
      exact kept
    · exact Kept.generateLevels type _ kept width height depth levels

theorem Kept.markMipmapsGenerated (kept : Kept info)
    (marked : info.markMipmapsGenerated fs = .ok (result, next)) :
    Kept next ∧ (result = true -> info.canGenerateMipmaps fs = true ∧
      TextureInfo.generateFaces fs info.levelInfos.length 0 info = .ok next) := by
  cases can : info.canGenerateMipmaps fs with
  | false =>
    simp only [TextureInfo.markMipmapsGenerated, can] at marked
    cases marked
    exact ⟨kept, fun isTrue => absurd isTrue Bool.false_ne_true⟩
  | true =>
    simp only [TextureInfo.markMipmapsGenerated, can] at marked
    cases faces : TextureInfo.generateFaces fs info.levelInfos.length 0 info with
    | error fault =>
      rw [faces] at marked
      cases marked
    | ok gen =>
      rw [faces] at marked
      cases marked
      exact ⟨Kept.generateFaces _ kept faces, fun _ => ⟨rfl, rfl⟩⟩

/-- The levels of the only face of a planar texture. -/
def planarLevel (info : TextureInfo) (level : Nat) : LevelInfo :=
  (info.levelInfos.getD 0 []).getD level {}

theorem setLevelInfo_planar (target : args.target = GL_TEXTURE_2D)
    (isSet : info.setLevelInfo fs args = .ok next) :
    next.target = info.target ∧ next.maxLevelSet = max info.maxLevelSet args.level ∧
      ∀ level, next.planarLevel level = if level = args.level.toNat then args.toLevelInfo
        else info.planarLevel level := by
  obtain ⟨face, -, i, bound, rfl⟩ := setLevelInfo_ok isSet
  rw [target] at i
  cases i
  have lt : 0 < info.levelInfos.length := by
    apply Nat.pos_of_ne_zero
    intro empty
    rw [eq_nil_of_length_eq_zero empty] at bound
    simp at bound
  have levels := update_levels fs { info with
    levelInfos := info.levelInfos.modify 0 fun levels =>
      levels.set args.level.toNat args.toLevelInfo
    maxLevelSet := max info.maxLevelSet args.level }
  refine ⟨levels.2.2, levels.2.1, fun level => ?_⟩
  rw [planarLevel, levels.1, planarLevel, ← getD_set_level _ _ _ _ bound]
  congr 1
  rw [getD_eq_getElem _ _ (by simpa using lt),
    getElem_modify, if_pos rfl, getD_eq_getElem _ _ lt]

/-- The generated levels, and the ones that stay. -/
theorem generateLevels_planar (left : Nat) :
    ∀ {level : Nat} {width height depth : Int} {info next : TextureInfo},
      (level : Int) - 1 <= info.maxLevelSet ->
      generateLevels fs GL_TEXTURE_2D first left level width height depth info = .ok next ->
      next.target = info.target ∧ next.maxLevelSet = max info.maxLevelSet (level + left - 1) ∧
      (∀ i < level, next.planarLevel i = info.planarLevel i) ∧
      ∀ i < left, IsMip first (next.planarLevel (level + i))
        (nextMip^[i + 1] width) (nextMip^[i + 1] height) (nextMip^[i + 1] depth) := by
  induction left with
  | zero =>
    intro level width height depth info next reached gen
    cases gen
    refine ⟨rfl, ?_, fun _ _ => rfl, fun i bound => absurd bound (by omega)⟩
    omega
  | succ left ih =>
    intro level width height depth info next reached gen
    obtain ⟨middle, isSet, rest⟩ := generateLevels_succ gen
    obtain ⟨middleTarget, middleMax, middleLevel⟩ := setLevelInfo_planar rfl isSet
    dsimp only at middleMax middleLevel
    have isNat : (level : Int) + 1 = ((level + 1 : Nat) : Int) := by omega
    rw [isNat] at rest
    obtain ⟨nextTarget, nextMax, before, mips⟩ := ih (by omega) rest
    refine ⟨nextTarget.trans middleTarget, by omega, fun i bound => ?_, fun i bound => ?_⟩
    · rw [before i (by omega), middleLevel, if_neg (by omega)]
    · cases i with
      | zero =>
        rw [Nat.add_zero, before level (by omega), middleLevel, if_pos (by omega)]
        exact ⟨rfl, rfl, rfl, rfl, rfl, rfl, rfl⟩
      | succ i =>
        have := mips i (by omega)
        rwa [Nat.add_right_comm] at this

/-- After mipmaps were generated for a planar texture it is complete unless it
is empty or a level above the last mip was set before. -/
theorem textureComplete_marked (kept : Kept info) (planar : info.target = GL_TEXTURE_2D)
    (marked : info.markMipmapsGenerated fs = .ok (true, next)) :
    next.textureComplete = true ↔
      info.maxLevelSet <= lastMip info.firstFace ∧ info.FirstNonempty := by
  obtain ⟨kept', gen⟩ := kept.markMipmapsGenerated marked
  obtain ⟨can, faces⟩ := gen rfl
  have one : info.levelInfos.length = 1 := by rw [kept.faces, if_pos planar]
  obtain ⟨inside, plain⟩ := kept.first
  have same : facesDiffer info.firstFace info.firstFace = false := by
    unfold canGenerateMipmaps at can
    split_ifs at can
    have agrees := List.all_eq_true.mp can _ inside
    rw [Bool.not_eq_true'] at agrees
    exact agrees
  simp only [facesDiffer, decide_eq_false_iff_not, not_or, not_not,
    Bool.not_eq_true', Bool.not_eq_false] at same
  obtain ⟨valid, -, -, depth, -⟩ := same
  rw [one] at faces
  obtain ⟨target, middle, isPlanar, levels, rest⟩ := generateFaces_succ faces
  cases rest
  rw [isPlanar planar] at levels
  have n : computeMipMapCount info.firstFace.width info.firstFace.height
      info.firstFace.depth = lastMip info.firstFace + 1 := by
    rcases plain with unset | ⟨-, -, width, height, -⟩
    · rw [unset] at valid
      cases valid
    · exact computeMipMapCount_eq (by omega) (by omega)
  have nonneg := (kept.face _ inside 0).2 valid
  change generateLevels fs GL_TEXTURE_2D info.firstFace
    (computeMipMapCount info.firstFace.width info.firstFace.height
      info.firstFace.depth - 1).toNat ((1 : Nat) : Int) info.firstFace.width
    info.firstFace.height info.firstFace.depth info = .ok next at levels
  obtain ⟨nextTarget, nextMax, before, mips⟩ := generateLevels_planar _ (by omega) levels
  have firstFace : next.firstFace = info.firstFace := before 0 (by omega)
  have only : ∀ face ∈ next.levelInfos, face = next.levelInfos.getD 0 [] := by
    have single : next.levelInfos.length = 1 := by
      rw [kept'.faces, if_pos (nextTarget.trans planar)]
    obtain ⟨alone, isAlone⟩ := length_eq_one_iff.mp single
    rw [isAlone]
    simp
  rw [kept'.updated, firstFace, n]
  constructor
  · rintro ⟨reaches, -, ne, -⟩
    refine ⟨by omega, ?_⟩
    rwa [FirstNonempty, firstFace] at ne
  · rintro ⟨small, ne⟩
    refine ⟨by omega, by omega, ?_, ?_⟩
    · rwa [FirstNonempty, firstFace]
    · intro face mem level pos bound
      rw [only face mem]
      have mip := mips (level - 1) (by omega)
      rw [Nat.add_sub_of_le pos, Nat.sub_add_cancel pos, ← firstFace] at mip
      exact mip

/-- The sizes that the texture manager was made with. -/
structure Limits where
  maxTextureSize : Int
  maxCubeMapTextureSize : Int

/-- `TextureManager::MaxSizeForTarget`. -/
def Limits.maxSizeForTarget (limits : Limits) (target : Nat) : Int :=
  if target = GL_TEXTURE_2D then limits.maxTextureSize
  else limits.maxCubeMapTextureSize

/-- `TextureManager::MaxLevelsForTarget`, of the levels the sizes allow. -/
def Limits.maxLevelsForTarget (limits : Limits) (target : Nat) : Int :=
  let maxSize := limits.maxSizeForTarget target
  computeMipMapCount maxSize maxSize maxSize

/-- `TextureManager::ValidForTarget`. -/
def validForTarget (limits : Limits) (fs : FeatureInfo) (args : LevelArgs) : Bool :=
  let maxSize := limits.maxSizeForTarget args.target
  0 <= args.level ∧ 0 <= args.width ∧ 0 <= args.height ∧ 0 <= args.depth ∧
    args.level < limits.maxLevelsForTarget args.target ∧
    args.width <= maxSize ∧ args.height <= maxSize ∧ args.depth <= maxSize ∧
    (args.level = 0 ∨ fs.npotOk ∨
      (!isNPOT args.width && !isNPOT args.height && !isNPOT args.depth)) ∧
    (args.target ≠ GL_TEXTURE_CUBE_MAP ∨ (args.width = args.height ∧ args.depth = 1)) ∧
    (args.target ≠ GL_TEXTURE_2D ∨ args.depth = 1)

/-- The textures of unsigned bytes that calls lead to from a fresh one. -/
inductive Reachable (limits : Limits) (fs : FeatureInfo) : TextureInfo -> Prop
  | setTarget {serviceId target : Nat} {info : TextureInfo}
      (bound : target = GL_TEXTURE_2D ∨ target = GL_TEXTURE_CUBE_MAP)
      (made : TextureInfo.setTarget { serviceId := serviceId } target
        (limits.maxLevelsForTarget target) = .ok info) :
      Reachable limits fs info
  | setLevelInfo {info next : TextureInfo} {args : LevelArgs} (before : Reachable limits fs info)
      (valid : validForTarget limits fs args = true)
      (type : args.type = GL_UNSIGNED_BYTE)
      (made : info.setLevelInfo fs args = .ok next) :
      Reachable limits fs next
  | setParameter {info next : TextureInfo} {pname : Nat} {param : Int}
      (before : Reachable limits fs info)
      (made : info.setParameter fs pname param = .ok next) :
      Reachable limits fs next
  | markMipmapsGenerated {info next : TextureInfo} {result : Bool}
      (before : Reachable limits fs info)
      (made : info.markMipmapsGenerated fs = .ok (result, next)) :
      Reachable limits fs next

theorem kept_setTarget {serviceId target : Nat}
    (made : TextureInfo.setTarget { serviceId := serviceId } target levels = .ok info) :
    Kept info := by
  cases made
  refine ⟨?_, ?_, ?_⟩
  · simp [resize]
  · intro face mem level
    obtain ⟨empty, isEmpty, rfl⟩ := List.mem_map.mp mem
    rw [resize_nil] at isEmpty
    rw [eq_of_mem_replicate isEmpty, getD_resize (Nat.zero_le _)]
    exact ⟨.inl rfl, fun valid => absurd valid Bool.false_ne_true⟩
  · simp

/-- The sizes are 32-bit integers. -/
def Limits.Fits (limits : Limits) : Prop :=
  limits.maxTextureSize < 2 ^ 31 ∧ limits.maxCubeMapTextureSize < 2 ^ 31

theorem kept_of_reachable (fits : limits.Fits) (reachable : Reachable limits fs info) :
    Kept info := by
  induction reachable with
  | setTarget bound made => exact kept_setTarget made
  | setLevelInfo before valid type made ih =>
    simp only [validForTarget, decide_eq_true_eq] at valid
    obtain ⟨-, width, height, depth, -, width', height', depth', -⟩ := valid
    have bounded : ∀ target, limits.maxSizeForTarget target < 2 ^ 31 := by
      intro target
      unfold Limits.maxSizeForTarget
      split_ifs
      · exact fits.1
      · exact fits.2
    exact ih.setLevelInfo (plain_toLevelInfo type ⟨width, width'.trans_lt (bounded _)⟩
        ⟨height, height'.trans_lt (bounded _)⟩
        ⟨depth, depth'.trans_lt (bounded _)⟩) made
  | setParameter before made ih => exact ih.setParameter made
  | markMipmapsGenerated before made ih => exact (ih.markMipmapsGenerated made).1

theorem lastMip_le (kept : Kept info) (bases : info.BasesSet) (mips : info.MipsSet) :
    (lastMip info.firstFace : Int) <= info.maxLevelSet := by
  obtain ⟨inside, -⟩ := kept.first
  have held := kept.face _ inside
  rcases Nat.eq_zero_or_pos (lastMip info.firstFace) with none | some_
  · rw [none]
    exact (held 0).2 (bases _ inside).1
  · exact (held _).2 (mips _ inside _ some_ (le_refl _)).1

/-- Texture completeness is found exactly in the textures that are
unambiguous. -/
theorem textureComplete_iff (kept : Kept info) :
    (info.textureComplete = true ↔ info.Complete) ↔ info.Unambiguous := by
  obtain ⟨inside, plain⟩ := kept.first
  by_cases ne : info.FirstNonempty
  · have n : computeMipMapCount info.firstFace.width info.firstFace.height
        info.firstFace.depth = lastMip info.firstFace + 1 := by
      rcases plain with unset | ⟨-, -, width, height, depth⟩
      · exact absurd (congrArg LevelInfo.width unset) ne.1
      · have := ne.1
        exact computeMipMapCount_eq (by omega) (by omega)
    have hit : info.textureComplete = true ↔
        info.maxLevelSet = lastMip info.firstFace ∧ info.MipsSet := by
      rw [kept.updated, n, Int.add_sub_cancel]
      constructor
      · rintro ⟨reaches, -, -, fit⟩
        rw [reaches, Int.toNat_natCast] at fit
        exact ⟨reaches, fit⟩
      · rintro ⟨reaches, fit⟩
        refine ⟨reaches, by omega, ne, ?_⟩
        rw [reaches, Int.toNat_natCast]
        exact fit
    rw [hit]
    constructor
    · intro agrees
      refine ⟨fun bases mips => ?_, fun _ mips reaches => ?_⟩
      · exact (agrees.mpr ⟨bases, mips⟩).1.le
      · exact (agrees.mp ⟨reaches, mips⟩).1
    · intro unambiguous
      constructor
      · rintro ⟨reaches, mips⟩
        exact ⟨unambiguous.noMissingBase ne mips reaches, mips⟩
      · rintro ⟨bases, mips⟩
        have upper := unambiguous.noStaleLevel bases mips
        exact ⟨le_antisymm upper (lastMip_le kept bases mips), mips⟩
  · have incomplete : ¬info.textureComplete = true := fun isComplete =>
      ne (kept.updated.mp isComplete).2.2.1
    have baseless : ¬info.BasesSet := fun bases => ne (bases _ inside).2
    constructor
    · intro _
      exact ⟨fun bases => absurd bases baseless, fun isNonempty => absurd isNonempty ne⟩
    · intro _
      constructor
      · exact fun isComplete => absurd isComplete incomplete
      · exact fun complete => absurd complete.1 baseless

/-- In every state that calls lead to, completeness is found exactly when the
texture is unambiguous; and mipmaps that were generated for a planar texture
make it complete exactly when it is not empty and no level above the last mip
was set before. -/
theorem textureComplete_of_run {limits : Limits} {fs : FeatureInfo} {info : TextureInfo}
    (fits : limits.Fits) (reachable : Reachable limits fs info) :
    ((info.textureComplete = true ↔ info.Complete) ↔ info.Unambiguous) ∧
      ∀ next, info.target = GL_TEXTURE_2D ->
        info.markMipmapsGenerated fs = .ok (true, next) -> (next.textureComplete = true ↔
            info.maxLevelSet <= lastMip info.firstFace ∧ info.FirstNonempty) :=
  have kept := kept_of_reachable fits reachable
  ⟨textureComplete_iff kept, fun _ planar marked => textureComplete_marked kept planar marked⟩

/-- One pixel. -/
def pixelLevel (level : Int) : LevelArgs where
  target := GL_TEXTURE_2D
  level := level
  internalFormat := GL_RGBA
  width := 1
  height := 1
  depth := 1
  border := 0
  format := GL_RGBA
  type := GL_UNSIGNED_BYTE

/-- A texture whose level one was set before its first level, both of one
pixel. -/
def staleTexture : TextureInfo where
  serviceId := 1
  levelInfos := [[(pixelLevel 0).toLevelInfo, (pixelLevel 1).toLevelInfo]]
  target := GL_TEXTURE_2D
  maxLevelSet := 1

theorem reachable_staleTexture : Reachable ⟨2, 2⟩ ⟨false, false, false⟩ staleTexture := by
  have fresh : Reachable ⟨2, 2⟩ ⟨false, false, false⟩
      { serviceId := 1, levelInfos := [[{}, {}]], target := GL_TEXTURE_2D } :=
    .setTarget (.inl rfl) rfl
  have one : Reachable ⟨2, 2⟩ ⟨false, false, false⟩
      { serviceId := 1, levelInfos := [[{}, (pixelLevel 1).toLevelInfo]],
        target := GL_TEXTURE_2D, maxLevelSet := 1 } :=
    @Reachable.setLevelInfo _ _ _ _ (pixelLevel 1) fresh (by decide) rfl rfl
  exact @Reachable.setLevelInfo _ _ _ _ (pixelLevel 0) one (by decide) rfl rfl

theorem textureComplete_of_run_staleTexture :
    (staleTexture.textureComplete = true ↔ staleTexture.Complete) ↔ staleTexture.Unambiguous :=
  (textureComplete_of_run ⟨by decide, by decide⟩ reachable_staleTexture).1

/-- The stale level keeps the texture from being found complete. -/
theorem not_textureComplete_of_run : ¬∀ (limits : Limits) (fs : FeatureInfo) (info : TextureInfo),
      limits.Fits -> Reachable limits fs info -> (info.textureComplete = true ↔ info.Complete) := by
  intro claim
  have agrees := claim _ _ _ ⟨by decide, by decide⟩ reachable_staleTexture
  have complete : staleTexture.Complete := by
    have only : ∀ face ∈ staleTexture.levelInfos, level0 face = (pixelLevel 0).toLevelInfo := by
      intro face mem
      rw [mem_singleton.mp mem]
      rfl
    have last : lastMip staleTexture.firstFace = 0 := by
      rw [lastMip, show (max (max staleTexture.firstFace.width
        staleTexture.firstFace.height) staleTexture.firstFace.depth).toNat = 1
        from rfl, Nat.log_one_right]
    refine ⟨fun face mem => ?_, fun face _ level pos bound => ?_⟩
    · rw [HasBase, only face mem]
      decide
    · omega
  exact Bool.false_ne_true (agrees.mpr complete)

end TextureInfo
end Chromium.Gpu.Textures
