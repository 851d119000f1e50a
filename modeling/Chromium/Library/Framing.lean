import Mathlib.Algebra.GroupWithZero.Nat
import Mathlib.Data.List.Basic
import Mathlib.Data.List.Induction
import Mathlib.Data.List.TakeWhile

/-!
# Cursors into sorted lists

A cursor passes the items whose keys are below a bound, and the bound rises. A
walk visits the positions of an interval, some of which are wide.
-/

namespace Chromium.Library

open List

section

/-- What is left behind the items with keys below a bound. -/
def pass (key : α -> Nat) (bound : Nat) (items : List α) : List α :=
  items.dropWhile fun item => key item < bound

theorem pass_zero : pass key 0 items = items := by
  cases items with
  | nil => rfl
  | cons item rest => exact dropWhile_cons_of_neg (by simp)

/-- No key in front of the cursor is below the bound. -/
theorem le_head_pass (isHead : (pass key bound items).head? = some item) : bound <= key item := by
  induction items with
  | nil => cases isHead
  | cons first rest ih =>
    rw [pass, dropWhile_cons] at isHead
    split_ifs at isHead with below
    · exact ih isHead
    · cases isHead
      simpa using below

theorem pass_pass (lower higher : Nat) : pass key higher (pass key lower items) =
      pass key (max lower higher) items := by
  induction items with
  | nil => rfl
  | cons first rest ih =>
    by_cases below : key first < lower
    · have within : key first < max lower higher := by omega
      rw [pass, pass, pass, dropWhile_cons_of_pos (by simpa using below),
        dropWhile_cons_of_pos (by simpa using within)]
      exact ih
    · by_cases within : key first < higher
      · rw [max_eq_right (by omega), pass, pass, dropWhile_cons_of_neg (by simpa using below)]
        rfl
      · have above : ¬ key first < max lower higher := by omega
        rw [pass, pass, pass, dropWhile_cons_of_neg (by simpa using below),
          dropWhile_cons_of_neg (by simpa using within),
          dropWhile_cons_of_neg (by simpa using above)]

/-- An item of a sorted list is found at its key. -/
theorem head_pass_iff (injective : Function.Injective key)
    (sorted : items.Pairwise fun left right => key left <= key right) (low : bound <= key item) :
    (pass key (key item) (pass key bound items)).head? = some item ↔ item ∈ items := by
  rw [pass_pass, max_eq_right low]
  induction items with
  | nil => simp [pass]
  | cons first rest ih =>
    obtain ⟨below, sortedRest⟩ := pairwise_cons.mp sorted
    rw [pass, dropWhile_cons]
    by_cases isBelow : key first < key item
    · rw [if_pos (by simpa using isBelow)]
      have ne : item ≠ first := by
        rintro rfl
        exact Nat.lt_irrefl _ isBelow
      rw [mem_cons, or_iff_right ne]
      exact ih sortedRest
    · rw [if_neg (by simpa using isBelow), List.head?_cons, Option.some_inj]
      constructor
      · rintro rfl
        exact mem_cons_self
      · intro mem
        rcases mem_cons.mp mem with rfl | later
        · rfl
        · have above := below item later
          exact injective (by omega)

/-- An item below the bound is not found any more. -/
theorem head_pass_ne (high : key item < bound) :
    (pass key (key item) (pass key bound items)).head? ≠ some item := by
  intro isHead
  rw [pass_pass] at isHead
  have least := le_head_pass isHead
  omega

/-- The positions that a walk visits: it goes on by one, and by some more at the
wide ones. -/
def stops (extra : Nat -> Nat) (limit pos : Nat) : List Nat :=
  if pos < limit then pos :: stops extra limit (pos + 1 + extra pos)
  else []
termination_by limit - pos

variable {extra : Nat -> Nat} {limit pos : Nat}

theorem stops_of_lt (lt : pos < limit) : stops extra limit pos =
      pos :: stops extra limit (pos + 1 + extra pos) := by
  rw [stops, if_pos lt]

theorem stops_of_le (outside : limit <= pos) : stops extra limit pos = [] := by
  rw [stops, if_neg (Nat.not_lt_of_le outside)]

theorem mem_stops (mem : stop ∈ stops extra limit pos) : pos <= stop ∧ stop < limit := by
  induction pos using stops.induct extra limit with
  | case1 pos inside ih =>
    rw [stops_of_lt inside] at mem
    rcases mem_cons.mp mem with rfl | later
    · exact ⟨Nat.le_refl _, inside⟩
    · have bounds := ih later
      exact ⟨by omega, bounds.2⟩
  | case2 pos outside =>
    rw [stops_of_le (Nat.le_of_not_lt outside)] at mem
    cases mem

theorem le_sum_stops : limit - pos <=
      ((stops extra limit pos).map fun stop => 1 + extra stop).sum := by
  induction pos using stops.induct extra limit with
  | case1 pos inside ih =>
    rw [stops_of_lt inside, map_cons, sum_cons]
    omega
  | case2 pos outside => omega

/-- It covers no more if no wide position is close to the end. -/
theorem sum_stops_iff : ((stops extra limit pos).map fun stop => 1 + extra stop).sum = limit - pos ↔
      ∀ stop ∈ stops extra limit pos, stop + 1 + extra stop <= limit := by
  induction pos using stops.induct extra limit with
  | case1 pos inside ih =>
    rw [stops_of_lt inside, map_cons, sum_cons, forall_mem_cons, ← ih]
    omega
  | case2 pos outside =>
    rw [stops_of_le (Nat.le_of_not_lt outside)]
    exact iff_of_true (by simp; omega) (fun _ mem => by cases mem)

/-- Only the last stop can be close to the end. -/
theorem sum_stops_le (narrow : ∀ stop, extra stop <= bound) :
    ((stops extra limit pos).map fun stop => 1 + extra stop).sum <=
      limit - pos + bound := by
  induction pos using stops.induct extra limit with
  | case1 pos inside ih =>
    have width := narrow pos
    rw [stops_of_lt inside, map_cons, sum_cons]
    by_cases fits : pos + 1 + extra pos < limit
    · omega
    · rw [stops_of_le (Nat.le_of_not_lt fits), map_nil, sum_nil]
      omega
  | case2 pos outside =>
    rw [stops_of_le (Nat.le_of_not_lt outside), map_nil, sum_nil]
    omega

end

/-!
## Frames that tell their length

A frame is a header of a fixed width and a payload, whose size the header
tells. Such frames one behind the other start where a walk stops that goes on,
at each header, by its width and the size that it tells.
-/

section

variable (width : Nat) (size : List α -> Nat)

/-- A frame is as long as its header tells. -/
def Whole (frame : List α) : Prop := frame.length = width + size frame

instance (frame : List α) : Decidable (Whole width size frame) :=
  inferInstanceAs (Decidable (_ = _))

/-- The positions where frames start, from one of them on. -/
def startsFrom (items : List α) (pos : Nat) : List Nat :=
  stops (fun start => width - 1 + size (items.drop start)) items.length pos

/-- The positions where frames start. -/
def frameStarts (items : List α) : List Nat := startsFrom width size items 0

/-- Where lists begin that lie one behind the other, the first at a
position. -/
def beginnings (pos : Nat) : List (List α) -> List Nat
  | [] => []
  | frame :: later => pos :: beginnings (pos + frame.length) later

theorem beginnings_append : beginnings pos (frames ++ later) = beginnings pos frames ++
        beginnings (pos + frames.flatten.length) later := by
  induction frames generalizing pos with
  | nil => rfl
  | cons frame frames ih =>
    rw [cons_append, beginnings, ih, beginnings, cons_append, flatten_cons, length_append,
      Nat.add_assoc]

theorem beginnings_concat :
    beginnings 0 (frames ++ [frame]) = beginnings 0 frames ++ [frames.flatten.length] := by
  rw [beginnings_append, Nat.zero_add]
  rfl

variable {width : Nat} {size : List α -> Nat} {frame part done rest : List α}
  {frames : List (List α)}

/-- A beginning is at the front of a frame. -/
theorem mem_beginnings (mem : start ∈ beginnings 0 frames) :
    ∃ before frame after, frames = before ++ frame :: after ∧ start = before.flatten.length := by
  induction frames using reverseRecOn with
  | nil => cases mem
  | append_singleton frames last ih =>
    rw [beginnings_concat] at mem
    rcases mem_append.mp mem with earlier | isLast
    · obtain ⟨before, frame, after, rfl, isStart⟩ := ih earlier
      exact ⟨before, frame, after ++ [last], by simp, isStart⟩
    · rw [mem_singleton] at isLast
      exact ⟨frames, last, [], rfl, isLast⟩

/-- The walk ends where nothing is left. -/
theorem startsFrom_of_le (items : List α) (outside : items.length <= pos) :
    startsFrom width size items pos = [] :=
  stops_of_le outside

section Walk

variable (positive : 0 < width) (reads : ∀ {header rest : List α}, width <= header.length ->
    size (header ++ rest) = size header)

include positive

/-- The walk goes on behind the frame that is told at a position. -/
theorem startsFrom_of_lt {items : List α} (lt : done.length < items.length) :
    startsFrom width size items done.length = done.length :: startsFrom width size items
        (done.length + (width + size (items.drop done.length))) := by
  have next : ∀ payload, done.length + 1 + (width - 1 + payload) =
      done.length + (width + payload) := by omega
  rw [startsFrom, stops_of_lt lt, next]
  rfl

theorem startsFrom_last (ne : part ≠ []) (incomplete : part.length <= width + size part) :
    startsFrom width size (done ++ part) done.length = [done.length] := by
  have lt : done.length < (done ++ part).length := by
    rw [length_append]
    have := length_pos_iff.mpr ne
    omega
  rw [startsFrom_of_lt positive lt, drop_left, startsFrom_of_le]
  rw [length_append]
  omega

include reads

theorem startsFrom_whole (isWhole : Whole width size frame) (rest : List α) :
    startsFrom width size (done ++ frame ++ rest) done.length =
      done.length :: startsFrom width size (done ++ frame ++ rest) (done ++ frame).length := by
  rw [Whole] at isWhole
  have lt : done.length < (done ++ frame ++ rest).length := by
    simp only [length_append]
    omega
  have told : size ((done ++ frame ++ rest).drop done.length) = size frame := by
    rw [append_assoc, drop_left, reads (by omega)]
  rw [startsFrom_of_lt positive lt, told, ← isWhole, length_append]

section

variable (whole : ∀ frame ∈ frames, Whole width size frame)
include whole

/-- Whole frames start where they begin, whatever follows. -/
theorem startsFrom_flatten (done : List α) :
    startsFrom width size (done ++ frames.flatten ++ rest) done.length =
      beginnings done.length frames ++ startsFrom width size (done ++ frames.flatten ++ rest)
          (done ++ frames.flatten).length := by
  induction frames generalizing done with
  | nil => simp [beginnings]
  | cons frame frames ih =>
    obtain ⟨isWhole, laterWhole⟩ := forall_mem_cons.mp whole
    have same : done ++ (frame :: frames).flatten ++ rest =
        done ++ frame ++ (frames.flatten ++ rest) := by simp
    have sizes : done.length + frame.length = (done ++ frame).length := length_append.symm
    have later := ih laterWhole (done ++ frame)
    rw [append_assoc (done ++ frame)] at later
    rw [same, startsFrom_whole positive reads isWhole, beginnings, sizes,
      later, cons_append, flatten_cons,
      ← append_assoc done frame frames.flatten]

theorem frameStarts_flatten :
    frameStarts width size (frames.flatten ++ rest) = beginnings 0 frames ++
        startsFrom width size (frames.flatten ++ rest) frames.flatten.length :=
  startsFrom_flatten positive reads whole []

/-- Nothing starts inside a frame that is told. -/
theorem not_mem_frameStarts (told : width <= part.length) (within : 0 < size part) :
    frames.flatten.length + width ∉ frameStarts width size (frames.flatten ++ (part ++ rest)) := by
  have lt : frames.flatten.length < (frames.flatten ++ (part ++ rest)).length := by
    simp only [length_append]
    omega
  rw [frameStarts_flatten positive reads whole,
    startsFrom_of_lt positive lt, drop_left, reads told]
  intro mem
  rcases mem_append.mp mem with earlier | later
  · obtain ⟨before, frame, after, rfl, isStart⟩ := mem_beginnings earlier
    rw [flatten_append, length_append] at isStart
    omega
  · rcases mem_cons.mp later with isFirst | behind
    · omega
    · have bound := (mem_stops behind).1
      omega

end

end Walk

section Unique

variable (positive : 0 < width) (reads : ∀ {header rest : List α}, width <= header.length ->
    size (header ++ rest) = size header)
  {others : List (List α)}

include positive in
theorem Whole.ne_nil (isWhole : Whole width size frame) : frame ≠ [] := by
  intro isNil
  rw [Whole, isNil, length_nil] at isWhole
  omega

include reads in
/-- A whole frame is all that lists with it at their front agree on. -/
theorem Whole.append_inj (isWhole : Whole width size frame) (otherWhole : Whole width size other)
    (same : frame ++ front = other ++ back) :
    frame = other ∧ front = back := by
  rw [Whole] at isWhole otherWhole
  have one : size (frame ++ front) = size frame := reads (by omega)
  have two : size (other ++ back) = size other := reads (by omega)
  rw [same] at one
  exact List.append_inj same (by omega)

include positive reads

/-- A whole frame is the first of the frames it begins. -/
theorem first_same (isWhole : Whole width size frame)
    (othersWhole : ∀ frame ∈ others, Whole width size frame)
    (same : (frame :: frames).flatten ++ rest = others.flatten) :
    ∃ later, others = frame :: later ∧ (∀ frame ∈ later, Whole width size frame) ∧
      frames.flatten ++ rest = later.flatten := by
  rw [flatten_cons, append_assoc] at same
  cases others with
  | nil => exact (isWhole.ne_nil positive (append_eq_nil_iff.mp same).1).elim
  | cons other others =>
    obtain ⟨otherWhole, restWhole⟩ := forall_mem_cons.mp othersWhole
    obtain ⟨rfl, restSame⟩ := Whole.append_inj reads isWhole otherWhole same
    exact ⟨others, rfl, restWhole, restSame⟩

/-- Lists of whole frames with the same elements are the same. -/
theorem whole_unique (whole : ∀ frame ∈ frames, Whole width size frame)
    (othersWhole : ∀ frame ∈ others, Whole width size frame)
    (incomplete : part.length < width + size part)
    (same : frames.flatten ++ part = others.flatten) :
    frames = others ∧ part = [] := by
  induction frames generalizing others with
  | nil =>
    cases others with
    | nil => exact ⟨rfl, by simpa using same⟩
    | cons other others =>
      have isWhole := othersWhole other mem_cons_self
      rw [Whole] at isWhole
      have isPart : part = other ++ others.flatten := by simpa using same
      rw [isPart, length_append, reads (by omega)] at incomplete
      omega
  | cons frame frames ih =>
    obtain ⟨isWhole, laterWhole⟩ := forall_mem_cons.mp whole
    obtain ⟨others, rfl, restWhole, restSame⟩ := first_same positive reads isWhole othersWhole same
    obtain ⟨rfl, isNil⟩ := ih laterWhole restWhole restSame
    exact ⟨rfl, isNil⟩

/-- A part that has a whole header is the front of the next frame. -/
theorem next_whole (whole : ∀ frame ∈ frames, Whole width size frame)
    (othersWhole : ∀ frame ∈ others, Whole width size frame) (told : width <= part.length)
    (same : frames.flatten ++ (part ++ rest) = others.flatten) :
    ∃ next after, others = frames ++ next :: after ∧ part.take width = next.take width := by
  induction frames generalizing others with
  | nil =>
    cases others with
    | nil =>
      have nothing := (append_eq_nil_iff.mp same).2
      rw [(append_eq_nil_iff.mp nothing).1, length_nil] at told
      omega
    | cons other others =>
      have isWhole := othersWhole other mem_cons_self
      rw [Whole] at isWhole
      have split : part ++ rest = other ++ others.flatten := by simpa using same
      refine ⟨other, others, rfl, ?_⟩
      rw [← take_append_of_le_length told, split, take_append_of_le_length (by omega)]
  | cons frame frames ih =>
    obtain ⟨isWhole, laterWhole⟩ := forall_mem_cons.mp whole
    obtain ⟨others, rfl, restWhole, restSame⟩ := first_same positive reads isWhole othersWhole same
    obtain ⟨next, after, rfl, header⟩ := ih laterWhole restWhole restSame
    exact ⟨next, after, rfl, header⟩

end Unique

end

end Chromium.Library
