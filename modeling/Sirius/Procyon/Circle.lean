import Mathlib.Tactic.Linarith

/-! The midpoint algorithm for a quarter of a circle. Arithmetic on `int` is undefined where it
leaves 32 bits; for radii up to 2^14 only the places of the pixels can. -/
namespace Sirius.Procyon
open List

def FitsInt (v : Int) : Prop := -2 ^ 31 ≤ v ∧ v < 2 ^ 31
deriving Decidable

/-- A result computed by way of these values. -/
def checked (values : List Int) (result : α) : Option α := if ∀ v ∈ values, FitsInt v then some result else none

structure Midpoint where
  x : Int
  y : Int
  d : Int

namespace Midpoint

def next (s : Midpoint) : Option Midpoint :=
  if s.d < 0 then
    let change := 2 * s.x + 3
    checked [2 * s.x, change, s.d + change, s.x + 1] ⟨s.x + 1, s.y, s.d + change⟩
  else
    let change := 2 * (s.x - s.y) + 5
    checked [s.x - s.y, 2 * (s.x - s.y), change, s.d + change, s.y - 1, s.x + 1] ⟨s.x + 1, s.y - 1, s.d + change⟩

theorem next_closer {s t : Midpoint} (stepped : s.next = some t) : t.x = s.x + 1 ∧ t.y ≤ s.y := by
  rw [next, checked, checked] at stepped
  grind

/-- The offsets for which the body of the loop runs. -/
def rounds (s : Midpoint) : Option (List (Int × Int)) :=
  if s.x ≤ s.y then
    match _stepped : s.next with
    | some t => (rounds t).map ((s.x, s.y) :: ·)
    | none => none
  else some []
termination_by (s.y + 1 - s.x).toNat
decreasing_by
  have := next_closer _stepped
  omega

end Midpoint

/-- The two pixels of a round. -/
def plot (cx cy quadrant : Int) (offset : Int × Int) : List (Int × Int) :=
  let (x, y) := offset
  match quadrant with
  | 0 => [(cx - x, cy - y), (cx - y, cy - x)]
  | 1 => [(cx + x, cy - y), (cx + y, cy - x)]
  | 2 => [(cx + x, cy + y), (cx + y, cy + x)]
  | 3 => [(cx - x, cy + y), (cx - y, cy + x)]
  | _ => []

/-- The pixels that are drawn, as far as they are on the screen. -/
def drawCircleQuadrant (cx cy r quadrant : Int) : Option (List (Int × Int)) := do
  let start : Midpoint ← checked [1 - r] ⟨0, r, 1 - r⟩
  let offsets ← start.rounds
  let pixels := offsets.flatMap (plot cx cy quadrant)
  if ∀ p ∈ pixels, FitsInt p.1 ∧ FitsInt p.2 then some pixels else none

def OnCircle (r x y : Int) : Prop := y * y - y < r * r - x * x ∧ r * r - x * x ≤ y * y + y

/-- What holds at the head of the loop; the lower bound fails at its end. -/
structure Follows (r : Int) (s : Midpoint) : Prop where
  error : s.d = (s.x + 1) * (s.x + 1) + s.y * s.y - s.y - r * r
  left : 0 ≤ s.x
  top : 0 ≤ s.y ∧ s.y ≤ r
  low : s.x ≤ s.y → s.y * s.y - s.y < r * r - s.x * s.x
  high : r * r - s.x * s.x ≤ s.y * s.y + s.y

namespace Follows
variable {s : Midpoint}

/-- Near the circle the error term is small. -/
theorem error_bounds (follows : Follows r s) (inside : s.x ≤ s.y) : 2 * (s.x - s.y) + 1 ≤ s.d ∧ s.d ≤ 2 * s.x := by
  have low := follows.low inside
  have high := follows.high
  rw [follows.error]
  constructor <;> linarith

theorem next (follows : Follows r s) (small : r ≤ 2 ^ 14) (inside : s.x ≤ s.y) :
    ∃ t, s.next = some t ∧ t.x = s.x + 1 ∧ Follows r t := by
  have bounds := follows.error_bounds inside
  obtain ⟨error, left, top, low, high⟩ := follows
  have low := low inside
  rw [Midpoint.next]
  split
  next =>
    refine ⟨_, if_pos ?_, rfl, ⟨?_, ?_, top, fun _ => ?_, ?_⟩⟩
    · simp [FitsInt]
      omega
    all_goals
      dsimp only
      linarith
  next =>
    have up : s.y ≠ 0 := by
      intro zero
      rw [zero, (by omega : s.x = 0)] at low high
      omega
    refine ⟨_, if_pos ?_, rfl, ⟨?_, ?_, ?_, fun still => ?_, ?_⟩⟩
    · simp [FitsInt]
      omega
    all_goals
      dsimp only at *
      first | omega | linarith

/-- No offset at or above the diagonal is on the circle where the loop ends. -/
theorem ended (follows : Follows r s) (outside : s.y < s.x) (above : s.x ≤ y) : ¬ OnCircle r s.x y := by
  have high := follows.high
  have top := follows.top.1
  intro ⟨low, _⟩
  have first := mul_nonneg (by omega : 0 ≤ y - s.x) (by omega : 0 ≤ y + s.x - 1)
  have second := mul_nonneg (by omega : 0 ≤ s.x - 1 - s.y) (by omega : 0 ≤ s.x + s.y)
  linarith

theorem rounds (small : r ≤ 2 ^ 14) (follows : Follows r s) : ∃ offsets, s.rounds = some offsets ∧
    (∀ o ∈ offsets, (0 ≤ o.1 ∧ o.1 ≤ o.2 ∧ o.2 ≤ r) ∧ OnCircle r o.1 o.2) ∧
      offsets.map Prod.fst = (range offsets.length).map (s.x + Int.ofNat ·) ∧
      ∀ y, s.x + offsets.length ≤ y → ¬ OnCircle r (s.x + offsets.length) y := by
  fun_induction Midpoint.rounds s with
  | case1 s inside t stepped ih =>
    obtain ⟨t', stepped', forward, after⟩ := follows.next small inside
    obtain rfl := Option.some.inj (stepped.symm.trans stepped')
    obtain ⟨offsets, done, all, column, last⟩ := ih after
    refine ⟨(s.x, s.y) :: offsets, by rw [done]; rfl, ?_, ?_, ?_⟩
    · exact forall_mem_cons.mpr ⟨⟨⟨follows.left, inside, follows.top.2⟩, follows.low inside, follows.high⟩, all⟩
    · rw [map_cons, column, forward, length_cons, range_succ_eq_map, map_cons, map_map]
      refine congrArg₂ cons (Int.add_zero _).symm (map_congr_left fun i _ => ?_)
      show s.x + 1 + (i : Int) = s.x + ((i + 1 : Nat) : Int)
      omega
    · rwa [length_cons, Int.natCast_succ, ← Int.add_assoc, Int.add_right_comm, ← forward]
  | case2 s inside stuck =>
    obtain ⟨t, stepped, _⟩ := follows.next small inside
    cases stuck.symm.trans stepped
  | case3 s outside =>
    refine ⟨[], rfl, by simp, rfl, fun y above => ?_⟩
    rw [length_nil, Int.natCast_zero, Int.add_zero] at above ⊢
    exact follows.ended (by omega) above

end Follows

/-- On which side of the centre the pixels of a quadrant are, across and down. -/
def sides : List (Int × Int × Int) := [(0, -1, -1), (1, 1, -1), (2, 1, 1), (3, -1, 1)]

/-- An offset from the centre, and its mirror image at the diagonal. -/
def places (cx cy sx sy : Int) (o : Int × Int) : List (Int × Int) :=
  [(cx + sx * o.1, cy + sy * o.2), (cx + sx * o.2, cy + sy * o.1)]

theorem plot_eq_places (side : (quadrant, sx, sy) ∈ sides) : plot cx cy quadrant = places cx cy sx sy := by
  funext o
  simp only [sides, mem_cons, Prod.mk.injEq, not_mem_nil, or_false] at side
  rcases side with ⟨rfl, rfl, rfl⟩ | ⟨rfl, rfl, rfl⟩ | ⟨rfl, rfl, rfl⟩ | ⟨rfl, rfl, rfl⟩ <;>
    simp [plot, places, Int.sub_eq_add_neg]

/-- The centre and the corner of the quadrant fit. -/
def CornersFit (cx cy sx sy r : Int) : Prop := FitsInt cx ∧ FitsInt cy ∧ FitsInt (cx + sx * r) ∧ FitsInt (cy + sy * r)
deriving Decidable

theorem places_fit (side : (quadrant, sx, sy) ∈ sides) (corners : CornersFit cx cy sx sy r)
    (inside : 0 ≤ o.1 ∧ o.1 ≤ o.2 ∧ o.2 ≤ r) :
    ∀ p ∈ places cx cy sx sy o, FitsInt p.1 ∧ FitsInt p.2 := by
  simp only [sides, mem_cons, Prod.mk.injEq, not_mem_nil, or_false] at side
  simp only [places, CornersFit, FitsInt, mem_cons, not_mem_nil, or_false, forall_eq_or_imp, forall_eq] at corners ⊢
  rcases side with ⟨-, rfl, rfl⟩ | ⟨-, rfl, rfl⟩ | ⟨-, rfl, rfl⟩ | ⟨-, rfl, rfl⟩ <;> omega

/-- The offsets follow the circle, one for each `x` up to the diagonal, the pixels are at these offsets and their mirror
images, and a value overflows exactly if one at the corners does. -/
def FollowsCircle (r : Int) : Prop :=
  ∃ offsets : List (Int × Int), (∀ o ∈ offsets, o.1 ≤ o.2 ∧ OnCircle r o.1 o.2) ∧
    offsets.map Prod.fst = (range offsets.length).map Int.ofNat ∧
      (∀ y : Int, offsets.length ≤ y → ¬ OnCircle r offsets.length y) ∧
    ∀ cx cy quadrant sx sy, (quadrant, sx, sy) ∈ sides → drawCircleQuadrant cx cy r quadrant =
      if CornersFit cx cy sx sy r then some (offsets.flatMap (places cx cy sx sy)) else none

/-- The loop begins at the corner. -/
theorem rounds_corner (done : Midpoint.rounds ⟨0, r, d⟩ = some offsets) (positive : 1 ≤ r) : (0, r) ∈ offsets := by
  rw [Midpoint.rounds, if_pos (show (0 : Int) ≤ r by omega)] at done
  split at done
  · obtain ⟨rest, -, rfl⟩ := Option.map_eq_some_iff.mp done
    exact mem_cons_self
  · cases done

theorem circle_quadrant_follows_circle (r : Int) (positive : 1 ≤ r) (small : r ≤ 2 ^ 14) : FollowsCircle r := by
  have start : Follows r ⟨0, r, 1 - r⟩ := by
    refine ⟨?_, Int.le_refl 0, ⟨?_, Int.le_refl r⟩, fun _ => ?_, ?_⟩ <;> dsimp only <;> linarith
  obtain ⟨offsets, done, all, column, last⟩ := start.rounds small
  simp only [Int.zero_add] at column last
  refine ⟨offsets, fun o member => ⟨(all o member).1.2.1, (all o member).2⟩, column, last, fun cx cy quadrant sx sy side => ?_⟩
  have first : checked [1 - r] (⟨0, r, 1 - r⟩ : Midpoint) = some ⟨0, r, 1 - r⟩ := if_pos (by simp [FitsInt]; omega)
  rw [drawCircleQuadrant, first, Option.bind_eq_bind, Option.bind_some, done, plot_eq_places side]
  refine if_congr ⟨fun fits => ?_, fun corners p drawn => ?_⟩ rfl rfl
  · have corner : ∀ p ∈ places cx cy sx sy (0, r), FitsInt p.1 ∧ FitsInt p.2 := fun p drawn =>
      fits p (mem_flatMap.mpr ⟨_, rounds_corner done positive, drawn⟩)
    simp only [places, mem_cons, not_mem_nil, or_false, forall_eq_or_imp, forall_eq, Int.mul_zero, Int.add_zero] at corner
    exact ⟨corner.1.1, corner.2.2, corner.2.1, corner.1.2⟩
  · obtain ⟨o, member, drawn⟩ := mem_flatMap.mp drawn
    exact places_fit side corners (all o member).1 p drawn

theorem circle_quadrant_follows_largest : FollowsCircle (2 ^ 14) := circle_quadrant_follows_circle _ (by decide) (by decide)

/-- The pixel to the left of the centre is out of range. -/
theorem circle_quadrant_overflows_at_edge : drawCircleQuadrant (-2 ^ 31) 0 1 0 = none := by
  have stop : Midpoint.rounds ⟨1, 0, 3⟩ = some [] := by
    rw [Midpoint.rounds]
    rfl
  have one : Midpoint.rounds ⟨0, 1, 0⟩ = some [(0, 1)] := by
    rw [Midpoint.rounds, if_pos (show (0 : Int) ≤ 1 by decide)]
    split
    case h_1 t stepped =>
      obtain rfl : ⟨1, 0, 3⟩ = t := Option.some.inj stepped
      rw [stop]
      rfl
    case h_2 stuck => cases stuck
  have first : checked [1 - 1] (⟨0, 1, 1 - 1⟩ : Midpoint) = some ⟨0, 1, 0⟩ := rfl
  rw [drawCircleQuadrant, first, Option.bind_eq_bind, Option.bind_some, one]
  rfl

end Sirius.Procyon
