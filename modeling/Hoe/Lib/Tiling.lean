import Mathlib.Data.List.Count
import Mathlib.Data.List.Perm.Basic
import Mathlib.Tactic.Linarith
import Mathlib.Tactic.Ring

/-!
# Tilings of an area by rectangles

A list of half-open rectangles tiles an area when all lie in it and every point of it is in exactly one of them. A tiling stays
one when each point of the new area has a point of the old one that the same rectangles hold, when a rectangle is cut in two,
and when the edges on a line move together.
-/

namespace Tiling

/-- The points from `x1`, `y1` to `x2`, `y2`, the last two left out. -/
structure Rect where
  x1 : Int
  y1 : Int
  x2 : Int
  y2 : Int
deriving DecidableEq, Repr

namespace Rect

/-- The point lies in the rectangle. -/
def Has (x y : Int) (r : Rect) : Prop := (r.x1 ≤ x ∧ x < r.x2) ∧ r.y1 ≤ y ∧ y < r.y2

instance (x y : Int) (r : Rect) : Decidable (r.Has x y) := inferInstanceAs (Decidable (_ ∧ _))

/-- The rectangle lies in the area. -/
def Inside (w h : Int) (r : Rect) : Prop := (0 ≤ r.x1 ∧ r.x1 ≤ r.x2 ∧ r.x2 ≤ w) ∧ 0 ≤ r.y1 ∧ r.y1 ≤ r.y2 ∧ r.y2 ≤ h

instance (w h : Int) (r : Rect) : Decidable (r.Inside w h) := inferInstanceAs (Decidable (_ ∧ _))

/-- The rectangle holds no point. -/
def Empty (r : Rect) : Prop := r.x2 ≤ r.x1 ∨ r.y2 ≤ r.y1

instance (r : Rect) : Decidable r.Empty := inferInstanceAs (Decidable (_ ∨ _))

/-- The coordinates change places. -/
def flip (r : Rect) : Rect := ⟨r.y1, r.x1, r.y2, r.x2⟩

@[simp] theorem has_flip {x y : Int} {r : Rect} : r.flip.Has x y ↔ r.Has y x := and_comm

@[simp] theorem inside_flip {w h : Int} {r : Rect} : r.flip.Inside w h ↔ r.Inside h w := and_comm

/-- An empty rectangle has no point. -/
theorem Empty.not_has {r : Rect} (hr : r.Empty) (x y : Int) : ¬ r.Has x y := by
  intro hp
  obtain ⟨⟨h1, h2⟩, h3, h4⟩ := hp
  rcases hr with hr | hr <;> omega

end Rect

open Rect

/-- The number of rectangles that hold the point. -/
def cover (x y : Int) (rs : List Rect) : Nat := rs.countP fun r => decide (r.Has x y)

/-- Every point of the area is in exactly one of the rectangles. -/
def Once (w h : Int) (rs : List Rect) : Prop := ∀ x y, 0 ≤ x → x < w → 0 ≤ y → y < h → cover x y rs = 1

/-- The rectangles tile the area. -/
structure Tiles (w h : Int) (rs : List Rect) : Prop where
  inside : ∀ r ∈ rs, r.Inside w h
  once : Once w h rs

@[simp] theorem cover_nil (x y : Int) : cover x y [] = 0 := rfl

/-- A point is covered by the first rectangle and by the rest. -/
theorem cover_cons (x y : Int) (r : Rect) (rs : List Rect) : cover x y (r :: rs) = cover x y [r] + cover x y rs := by
  rw [cover, cover, cover, ← List.countP_append]
  rfl

/-- It is covered by both lists. -/
theorem cover_append (x y : Int) (rs ss : List Rect) : cover x y (rs ++ ss) = cover x y rs + cover x y ss := List.countP_append

/-- A rectangle that has the point covers it. -/
theorem cover_pos {x y : Int} {rs : List Rect} {r : Rect} (hr : r ∈ rs) (hp : r.Has x y) : 0 < cover x y rs :=
  List.countP_pos_iff.mpr ⟨r, hr, decide_eq_true hp⟩

/-- One rectangle covers a point once or not at all. -/
theorem cover_singleton (x y : Int) (r : Rect) : cover x y [r] = if r.Has x y then 1 else 0 := by
  simp [cover, List.countP_cons]

theorem cover_one {x y : Int} {r : Rect} (hp : r.Has x y) : cover x y [r] = 1 := by
  rw [cover_singleton, if_pos hp]

theorem cover_none {x y : Int} {r : Rect} (hp : ¬ r.Has x y) : cover x y [r] = 0 := by
  rw [cover_singleton, if_neg hp]

/-- What is covered is covered by a rectangle. -/
theorem exists_of_cover_pos {x y : Int} {rs : List Rect} (h : 0 < cover x y rs) : ∃ r ∈ rs, r.Has x y := by
  obtain ⟨r, hr, hp⟩ := List.countP_pos_iff.mp h
  exact ⟨r, hr, of_decide_eq_true hp⟩

/-- The order of the rectangles does not matter. -/
theorem Tiles.perm {w h : Int} {rs ss : List Rect} (ht : Tiles w h rs) (hp : rs.Perm ss) : Tiles w h ss where
  inside := fun r hr => ht.inside r (hp.mem_iff.mpr hr)
  once := fun x y h1 h2 h3 h4 => by rw [← ht.once x y h1 h2 h3 h4, cover, cover, hp.countP_eq]

/-- Flipped rectangles cover flipped points. -/
theorem cover_flip (x y : Int) (rs : List Rect) : cover x y (rs.map flip) = cover y x rs := by
  simp only [cover, List.countP_map]
  refine List.countP_congr fun r _ => ?_
  simp

/-- Each point is still covered once when everything is flipped. -/
theorem Once.flip {w h : Int} {rs : List Rect} (ho : Once w h rs) : Once h w (rs.map Rect.flip) := by
  intro x y h1 h2 h3 h4
  rw [cover_flip]
  exact ho y x h3 h4 h1 h2

/-- So a flipped tiling is one. -/
theorem Tiles.flip {w h : Int} {rs : List Rect} (ht : Tiles w h rs) : Tiles h w (rs.map Rect.flip) where
  inside := by
    intro r hr
    obtain ⟨q, hq, rfl⟩ := List.mem_map.mp hr
    exact inside_flip.mpr (ht.inside q hq)
  once := ht.once.flip

/-! ## A rectangle cut in two -/

/-- The two rectangles hold the points of the first, each once. -/
def Cut (r a b : Rect) : Prop := ∀ x y, cover x y [r] = cover x y [a] + cover x y [b]

/-- A rectangle is cut by a vertical line. -/
theorem cut_right {r : Rect} {x : Int} (h1 : r.x1 ≤ x) (h2 : x ≤ r.x2) :
    Cut r { r with x2 := x } { r with x1 := x } := by
  intro p q
  simp only [cover_singleton]
  split_ifs with hr ha hb <;> simp only [Has] at * <;> omega

/-- A rectangle is cut by a horizontal line. -/
theorem cut_bottom {r : Rect} {y : Int} (h1 : r.y1 ≤ y) (h2 : y ≤ r.y2) :
    Cut r { r with y2 := y } { r with y1 := y } := by
  intro p q
  simp only [cover_singleton]
  split_ifs with hr ha hb <;> simp only [Has] at * <;> omega

/-- Cutting a rectangle in two covers each point as often. -/
theorem Once.cut {w h : Int} {r a b : Rect} {rs : List Rect} (hc : Cut r a b) :
    Once w h (r :: rs) ↔ Once w h (a :: b :: rs) := by
  have hsum : ∀ x y, cover x y (r :: rs) = cover x y (a :: b :: rs) := by
    intro x y
    rw [cover_cons, cover_cons x y a, cover_cons x y b, hc x y, Nat.add_assoc]
  simp only [Once, hsum]

/-- Without a rectangle the others still tile when it held no point, and not otherwise. -/
theorem Once.tail_iff {w h : Int} {r : Rect} {rs : List Rect} (ho : Once w h (r :: rs)) (hr : r.Inside w h) :
    Once w h rs ↔ r.Empty := by
  constructor
  · intro ho'
    by_contra he
    obtain ⟨⟨a1, a2, a3⟩, b1, b2, b3⟩ := hr
    rw [Rect.Empty] at he
    have h1 := ho r.x1 r.y1 a1 (by omega) b1 (by omega)
    have h2 := ho' r.x1 r.y1 a1 (by omega) b1 (by omega)
    rw [cover_cons, h2, cover_one ⟨by omega, by omega⟩] at h1
    omega
  · intro he x y h1 h2 h3 h4
    have h0 := ho x y h1 h2 h3 h4
    rwa [cover_cons, cover_none (he.not_has x y), Nat.zero_add] at h0

/-! ## Rectangles that move -/

/-- A list of items, each with the rectangle it had and the one it has: it still tiles where each point has a point that the
same items held. -/
theorem Once.move {α : Type} {w h w' h' : Int} {l : List α} {rect rect' : α → Rect} (ho : Once w h (l.map rect))
    (hp : ∀ x y, 0 ≤ x → x < w' → 0 ≤ y → y < h' → ∃ p q, 0 ≤ p ∧ p < w ∧ 0 ≤ q ∧ q < h ∧
      ∀ a ∈ l, (rect' a).Has x y ↔ (rect a).Has p q) : Once w' h' (l.map rect') := by
  intro x y h1 h2 h3 h4
  obtain ⟨p, q, g1, g2, g3, g4, hpq⟩ := hp x y h1 h2 h3 h4
  rw [← ho p q g1 g2 g3 g4]
  simp only [cover, List.countP_map]
  refine List.countP_congr fun a ha => ?_
  simpa using hpq a ha

/-- Two items that hold a point of the area have the same rectangle. -/
theorem Once.unique {w h : Int} {rs : List Rect} (ho : Once w h rs) {x y : Int} (h1 : 0 ≤ x) (h2 : x < w) (h3 : 0 ≤ y) (h4 : y < h)
    {a b : Rect} (ha : a ∈ rs) (hb : b ∈ rs) (hpa : a.Has x y) (hpb : b.Has x y) : a = b := by
  by_contra hne
  obtain ⟨l, r, rfl⟩ := List.append_of_mem ha
  have hb' : b ∈ l ++ r := by
    rcases List.mem_append.mp hb with hb | hb
    · exact List.mem_append_left _ hb
    · rcases List.mem_cons.mp hb with hb | hb
      · exact absurd hb.symm hne
      · exact List.mem_append_right _ hb
  have hone := ho x y h1 h2 h3 h4
  rw [cover_append, cover_cons, cover_one hpa] at hone
  have hpos := cover_pos hb' hpb
  rw [cover_append] at hpos
  omega

/-! ## A scale -/

/-- The largest coordinate below the old end that is not scaled beyond `p`. -/
theorem exists_unscaled {w w' : Int} (hw : 0 < w) {p : Int} (h1 : 0 ≤ p) (h2 : p < w') :
    ∃ q, 0 ≤ q ∧ q < w ∧ ∀ c, 0 ≤ c → (c * w' / w ≤ p ↔ c ≤ q) := by
  have hw' : 0 < w' := by omega
  refine ⟨((p + 1) * w - 1) / w', ?_, ?_, ?_⟩
  · refine Int.ediv_nonneg ?_ (by omega)
    nlinarith
  · rw [Int.ediv_lt_iff_lt_mul hw']
    nlinarith
  · intro c _
    rw [Int.le_ediv_iff_mul_le hw']
    constructor
    · intro h
      have := (Int.ediv_lt_iff_lt_mul hw).mp (Int.lt_add_one_of_le h)
      omega
    · intro h
      refine Int.lt_add_one_iff.mp ((Int.ediv_lt_iff_lt_mul hw).mpr ?_)
      omega

/-- Every coordinate scaled, and rounded down. -/
def Rect.scale (w h w' h' : Int) (r : Rect) : Rect := ⟨r.x1 * w' / w, r.y1 * h' / h, r.x2 * w' / w, r.y2 * h' / h⟩

/-- A rectangle inside is inside when both are scaled. -/
theorem Rect.Inside.scale {w h w' h' : Int} (hw : 0 < w) (hh : 0 < h) (hw' : 0 < w') (hh' : 0 < h') {r : Rect}
    (hr : r.Inside w h) : (r.scale w h w' h').Inside w' h' := by
  obtain ⟨⟨a1, a2, a3⟩, b1, b2, b3⟩ := hr
  refine ⟨⟨?_, ?_, ?_⟩, ?_, ?_, ?_⟩
  · exact Int.ediv_nonneg (by positivity) hw.le
  · exact Int.ediv_le_ediv hw (by nlinarith)
  · have : r.x2 * w' / w ≤ w * w' / w := Int.ediv_le_ediv hw (by nlinarith)
    rwa [Int.mul_ediv_cancel_left _ hw.ne'] at this
  · exact Int.ediv_nonneg (by positivity) hh.le
  · exact Int.ediv_le_ediv hh (by nlinarith)
  · have : r.y2 * h' / h ≤ h * h' / h := Int.ediv_le_ediv hh (by nlinarith)
    rwa [Int.mul_ediv_cancel_left _ hh.ne'] at this

/-- A tiling scaled to another size is a tiling. -/
theorem Tiles.scale {w h w' h' : Int} (hw : 0 < w) (hh : 0 < h) (hw' : 0 < w') (hh' : 0 < h') {rs : List Rect}
    (ht : Tiles w h rs) : Tiles w' h' (rs.map (Rect.scale w h w' h')) where
  inside := by
    intro r hr
    obtain ⟨q, hq, rfl⟩ := List.mem_map.mp hr
    exact (ht.inside q hq).scale hw hh hw' hh'
  once := by
    have ho : Once w h (rs.map id) := by
      rw [List.map_id]
      exact ht.once
    refine ho.move ?_
    intro x y h1 h2 h3 h4
    obtain ⟨p, p1, p2, hp⟩ := exists_unscaled hw h1 h2
    obtain ⟨q, q1, q2, hq⟩ := exists_unscaled hh h3 h4
    refine ⟨p, q, p1, p2, q1, q2, ?_⟩
    intro r hr
    obtain ⟨⟨a1, a2, -⟩, b1, b2, -⟩ := ht.inside r hr
    have e1 := hp r.x1 a1
    have e2 := hp r.x2 (by omega)
    have e3 := hq r.y1 b1
    have e4 := hq r.y2 (by omega)
    simp only [Rect.scale, Has, id_eq, ← Int.not_le]
    rw [e1, e2, e3, e4]

/-! ## A line -/

/-- Where the first of two edges goes when the line `line` moves by `d`. -/
def firstEdge (line d e : Int) : Int := if e = line then e + d else e

/-- Where the second of two edges goes: it stays when the first is on the line. -/
def secondEdge (line d e f : Int) : Int := if e = line then f else if f = line then f + d else f

/-- The first edge does not cross what is in front of it. -/
theorem le_firstEdge {a line d e : Int} (h1 : a ≤ line + d) (h2 : a ≤ e) : a ≤ firstEdge line d e := by
  rw [firstEdge]
  split_ifs with he
  · rwa [he]
  · exact h2

/-- The second one does not cross what is behind it. -/
theorem secondEdge_le {b line d e f : Int} (h1 : line + d ≤ b) (h2 : f ≤ b) : secondEdge line d e f ≤ b := by
  rw [secondEdge]
  split_ifs with he hf
  · exact h2
  · rwa [hf]
  · exact h2

/-- An edge on the line `line` moves by `d`, the upper one if both are. -/
def Rect.moveLine (line d : Int) (r : Rect) : Rect :=
  { r with y1 := firstEdge line d r.y1, y2 := secondEdge line d r.y1 r.y2 }

namespace Rect

variable {line d : Int} {r : Rect}

/-- A rectangle below the line moves its upper edge. -/
theorem moveLine_top (ht : r.y1 = line) : r.moveLine line d = { r with y1 := line + d } := by
  simp only [moveLine, firstEdge, secondEdge, ht, if_true]

/-- A rectangle above it moves its lower edge. -/
theorem moveLine_bottom (ht : r.y1 ≠ line) (hb : r.y2 = line) : r.moveLine line d = { r with y2 := line + d } := by
  simp only [moveLine, firstEdge, secondEdge, if_neg ht, hb, if_true]

/-- Any other stays. -/
theorem moveLine_other (ht : r.y1 ≠ line) (hb : r.y2 ≠ line) : r.moveLine line d = r := by
  simp only [moveLine, firstEdge, secondEdge, if_neg ht, if_neg hb]

end Rect

/-- A rectangle that holds a point has its edges moved apart. -/
def Rect.Room (line d : Int) (r : Rect) : Prop :=
  (r.y1 = line → line + d < r.y2) ∧ (r.y2 = line → r.y1 < line + d)

/-- The edges on a line inside of the area move: the rectangles that hold a point have room, and the others hold none
afterwards. -/
theorem Once.moveLine {w h line d : Int} {rs : List Rect} (ho : Once w h rs) (h1 : 0 < line) (h2 : line < h)
    (hroom : ∀ r ∈ rs, ¬ r.Empty → r.Room line d) (hempty : ∀ r ∈ rs, r.Empty → (r.moveLine line d).Empty) :
    Once w h (rs.map (Rect.moveLine line d)) := by
  have ho' : Once w h (rs.map id) := by rwa [List.map_id]
  refine ho'.move ?_
  intro x y hx1 hx2 hy1 hy2
  obtain ⟨below, hb, hpb⟩ : ∃ r ∈ rs, r.Has x line := exists_of_cover_pos (by rw [ho x line hx1 hx2 h1.le h2]; decide)
  obtain ⟨above, ha, hpa⟩ : ∃ r ∈ rs, r.Has x (line - 1) := exists_of_cover_pos (by
    rw [ho x (line - 1) hx1 hx2 (by omega) (by omega)]
    decide)
  by_cases hedge : below.y1 = line
  · -- the line is an edge in this column: the points it passes over belong to the rectangle on the other side
    have hline : above.y2 = line := by
      by_contra hne
      have hpa' : above.Has x line := ⟨hpa.1, by have := hpa.2; omega⟩
      have := ho.unique hx1 hx2 h1.le h2 ha hb hpa' hpb
      have := hpa.2
      subst above
      omega
    have hroomb := (hroom below hb fun he => he.not_has _ _ hpb).1 hedge
    have hrooma := (hroom above ha fun he => he.not_has _ _ hpa).2 hline
    refine ⟨x, if y < line + d then (if y < line then y else line - 1) else (if line ≤ y then y else line), hx1, hx2,
      by split_ifs <;> omega, by split_ifs <;> omega, ?_⟩
    intro r hr
    by_cases he : r.Empty
    · exact iff_of_false ((hempty r hr he).not_has x y) (he.not_has _ _)
    · obtain ⟨hr1, hr2⟩ := hroom r hr he
      have hbelow : r.Has x line → r = below := fun hp => ho.unique hx1 hx2 h1.le h2 hr hb hp hpb
      have habove : r.Has x (line - 1) → r = above := fun hp => ho.unique hx1 hx2 (by omega) (by omega) hr ha hp hpa
      have hyb : r.Has x y → below.Has x y → r = below := fun hp hq => ho.unique hx1 hx2 hy1 hy2 hr hb hp hq
      have hya : r.Has x y → above.Has x y → r = above := fun hp hq => ho.unique hx1 hx2 hy1 hy2 hr ha hp hq
      -- the rectangle in terms of its column
      by_cases hx : r.x1 ≤ x ∧ x < r.x2
      · have hcol : ∀ z, r.Has x z ↔ r.y1 ≤ z ∧ z < r.y2 := fun z => and_iff_right hx
        have hbcol : ∀ z, below.Has x z ↔ below.y1 ≤ z ∧ z < below.y2 := fun z => and_iff_right hpb.1
        have hacol : ∀ z, above.Has x z ↔ above.y1 ≤ z ∧ z < above.y2 := fun z => and_iff_right hpa.1
        have hpb2 := hpb.2
        have hpa2 := hpa.2
        rw [Rect.Empty] at he
        rw [hcol] at hbelow habove hyb hya
        rw [hbcol] at hyb
        rw [hacol] at hya
        rw [id_eq, hcol]
        by_cases ht : r.y1 = line
        · rw [Rect.moveLine_top ht]
          have := hr1 ht
          simp only [Has]
          split_ifs <;> omega
        · by_cases hbot : r.y2 = line
          · rw [Rect.moveLine_bottom ht hbot]
            have := hr2 hbot
            simp only [Has]
            split_ifs <;> omega
          · rw [Rect.moveLine_other ht hbot, hcol]
            have hside : r.y2 < line ∨ line < r.y1 := by
              by_contra hspan
              have := hbelow (by omega)
              subst r
              omega
            have hfar : r.y1 ≤ y ∧ y < r.y2 → (y < line + d ↔ y < line) := by
              intro hy
              constructor
              · intro hlt
                by_contra hge
                have hrb := hyb hy (by omega)
                rw [hrb] at ht
                exact ht hedge
              · intro hlt
                by_contra hge
                have hra := hya hy (by omega)
                rw [hra] at hbot
                exact hbot hline
            constructor
            · intro hy
              have := hfar hy
              split_ifs <;> omega
            · intro hq
              split_ifs at hq <;> omega
      · exact iff_of_false (fun hp => hx hp.1) fun hp => hx hp.1
  · -- one rectangle spans the line in this column, and no edge of the column moves
    have hspan : below.Has x (line - 1) := ⟨hpb.1, by have := hpb.2; omega⟩
    refine ⟨x, y, hx1, hx2, hy1, hy2, ?_⟩
    intro r hr
    by_cases he : r.Empty
    · exact iff_of_false ((hempty r hr he).not_has x y) (he.not_has _ _)
    · by_cases hx : r.x1 ≤ x ∧ x < r.x2
      · have hrbelow : r.Has x line ∨ r.Has x (line - 1) → r = below := by
          intro hp
          rcases hp with hp | hp
          · exact ho.unique hx1 hx2 h1.le h2 hr hb hp hpb
          · exact ho.unique hx1 hx2 (by omega) (by omega) hr hb hp hspan
        have hb2 := hpb.2
        have hs2 := hspan.2
        rw [Rect.Empty] at he
        have ht : r.y1 ≠ line := by
          intro ht
          have hrb := hrbelow (Or.inl ⟨hx, by omega⟩)
          rw [hrb] at ht
          exact hedge ht
        have hbot : r.y2 ≠ line := by
          intro hbot
          have hrb := hrbelow (Or.inr ⟨hx, by omega⟩)
          rw [hrb] at hbot
          omega
        rw [Rect.moveLine_other ht hbot]
        rfl
      · exact iff_of_false (fun hp => hx hp.1) fun hp => hx hp.1

/-! ## A corner

Two lines move, the bottom and the right edge of one rectangle, and with them all the edges that lie on them.
-/

/-- The edges on the line `y` move by `dy`, those on the line `x` by `dx`. -/
def Rect.moveLines (x y dx dy : Int) (r : Rect) : Rect :=
  ⟨firstEdge x dx r.x1, firstEdge y dy r.y1, secondEdge x dx r.x1 r.x2, secondEdge y dy r.y1 r.y2⟩

theorem Rect.moveLine_zero (line : Int) (r : Rect) : r.moveLine line 0 = r := by
  simp [Rect.moveLine, firstEdge, secondEdge]

/-- The rectangles that hold a point. -/
def solid (rs : List Rect) : List Rect := rs.filter fun r => decide (¬ r.Empty)

theorem mem_solid {rs : List Rect} {r : Rect} : r ∈ solid rs ↔ r ∈ rs ∧ ¬ r.Empty := by simp [solid]

/-- Empty rectangles cover nothing. -/
theorem cover_solid (x y : Int) (rs : List Rect) : cover x y (solid rs) = cover x y rs := by
  rw [solid, cover, cover, List.countP_filter]
  refine List.countP_congr fun r _ => ?_
  simp only [Bool.and_eq_true, decide_eq_true_eq, and_iff_left_iff_imp]
  exact fun hp he => he.not_has x y hp

/-- So they can be left out. -/
theorem Once.solid {w h : Int} {rs : List Rect} (ho : Once w h rs) : Once w h (solid rs) := by
  intro x y h1 h2 h3 h4
  rw [cover_solid]
  exact ho x y h1 h2 h3 h4

/-- One line moves under rectangles that all hold a point. -/
theorem Once.moveLine_solid {w h line d : Int} {rs : List Rect} (ho : Once w h rs) (hline : d = 0 ∨ 0 < line ∧ line < h)
    (hrs : ∀ r ∈ rs, ¬ r.Empty ∧ r.Room line d) : Once w h (rs.map (Rect.moveLine line d)) := by
  rcases hline with rfl | ⟨h1, h2⟩
  · rw [show Rect.moveLine line 0 = id from funext (Rect.moveLine_zero line), List.map_id]
    exact ho
  · exact ho.moveLine h1 h2 (fun r hr _ => (hrs r hr).2) fun r hr he => absurd he (hrs r hr).1

/-- Where there is room for the line to move, no rectangle becomes empty. -/
theorem Rect.Room.not_empty {line d : Int} {r : Rect} (hr : r.Room line d) (he : ¬ r.Empty) : ¬ (r.moveLine line d).Empty := by
  obtain ⟨h1, h2⟩ := hr
  by_cases ht : r.y1 = line
  · have := h1 ht
    rw [Rect.moveLine_top ht]
    rw [Rect.Empty] at he ⊢
    simp only
    omega
  · by_cases hb : r.y2 = line
    · have := h2 hb
      rw [Rect.moveLine_bottom ht hb]
      rw [Rect.Empty] at he ⊢
      simp only
      omega
    · rwa [Rect.moveLine_other ht hb]

@[simp] theorem Rect.empty_flip {r : Rect} : r.flip.Empty ↔ r.Empty := or_comm

/-- Both lines move under rectangles that all hold a point. -/
theorem Once.moveLines_solid {w h x y dx dy : Int} {rs : List Rect} (ho : Once w h rs) (hx : dx = 0 ∨ 0 < x ∧ x < w)
    (hy : dy = 0 ∨ 0 < y ∧ y < h) (hrs : ∀ r ∈ rs, ¬ r.Empty ∧ r.Room y dy ∧ r.flip.Room x dx) :
    Once w h (rs.map (Rect.moveLines x y dx dy)) := by
  have h1 : Once w h (rs.map (Rect.moveLine y dy)) := ho.moveLine_solid hy fun r hr => ⟨(hrs r hr).1, (hrs r hr).2.1⟩
  have h2 : Once h w (((rs.map (Rect.moveLine y dy)).map Rect.flip).map (Rect.moveLine x dx)) := by
    refine h1.flip.moveLine_solid hx ?_
    intro r hr
    obtain ⟨q, hq, rfl⟩ := List.mem_map.mp hr
    obtain ⟨p, hp, rfl⟩ := List.mem_map.mp hq
    obtain ⟨he, hry, hrx⟩ := hrs p hp
    exact ⟨fun hf => hry.not_empty he (Rect.empty_flip.mp hf), hrx⟩
  have h3 := h2.flip
  simp only [List.map_map] at h3
  exact h3

/-- The bottom right corner is moved: the new width and height. -/
def Rect.grow (r : Rect) (tw th : Int) : Rect := { r with x2 := r.x1 + tw, y2 := r.y1 + th }

/-- What a rectangle with an edge on the line keeps when the line moves: the edge that moves stays in front of the other one. -/
def Rect.Margin (line d : Int) (r : Rect) : Prop :=
  (r.y1 = line → line + d < r.y2) ∧ (r.y1 ≠ line → r.y2 = line → r.y1 < line + d)

/-- The rectangle holds no point, and its edges on the two lines make it hold some. -/
def Rect.Grows (x y : Int) (r : Rect) : Prop := r.Empty ∧ (r.x1 < r.x2 ∨ r.x1 = x) ∧ (r.y1 < r.y2 ∨ r.y1 = y)

instance (x y : Int) (r : Rect) : Decidable (r.Grows x y) := inferInstanceAs (Decidable (_ ∧ _))

/-- A rectangle without points that lies along the whole of the top is given its width. -/
def Rect.SpansTop (w : Int) (r : Rect) (tw : Int) : Prop := r.y1 = 0 ∧ r.y2 = 0 ∧ r.x1 = 0 ∧ tw = w

instance (w : Int) (r : Rect) (tw : Int) : Decidable (r.SpansTop w tw) := inferInstanceAs (Decidable (_ ∧ _))

/-- A margin is room where there is a rectangle. -/
theorem Rect.Margin.room {line d : Int} {r : Rect} (hm : r.Margin line d) (he : ¬ r.Empty) : r.Room line d := by
  refine ⟨hm.1, fun hb => hm.2 ?_ hb⟩
  intro ht
  exact he (Or.inr (by omega))

/-- A rectangle of a tiling and the new size of it: the other rectangles have room, and the edges of the area stay where they
are. -/
structure Corner (w h : Int) (r : Rect) (rs : List Rect) (tw th : Int) : Prop where
  tiles : Tiles w h (r :: rs)
  wide : 0 < tw
  high : 0 < th
  right : r.x2 < w ∨ tw = r.x2 - r.x1
  bottom : r.y2 < h ∨ th = r.y2 - r.y1
  roomX : ∀ q ∈ rs, q.flip.Margin r.x2 (tw - (r.x2 - r.x1))
  roomY : ∀ q ∈ rs, q.Margin r.y2 (th - (r.y2 - r.y1))

/-- The tiling with the corner moved, and the edges on its two lines with it. -/
def moveCorner (r : Rect) (rs : List Rect) (tw th : Int) : List Rect :=
  r.grow tw th :: rs.map (Rect.moveLines r.x2 r.y2 (tw - (r.x2 - r.x1)) (th - (r.y2 - r.y1)))

/-- A corner is moved in the flipped tiling as in the other. -/
theorem moveCorner_flip (r : Rect) (rs : List Rect) (tw th : Int) :
    moveCorner r.flip (rs.map Rect.flip) th tw = (moveCorner r rs tw th).map Rect.flip := by
  simp only [moveCorner, List.map_cons, List.map_map]
  rfl

/-- The corner of a flipped tiling. -/
theorem Corner.flip {w h : Int} {r : Rect} {rs : List Rect} {tw th : Int} (hc : Corner w h r rs tw th) :
    Corner h w r.flip (rs.map Rect.flip) th tw where
  tiles := hc.tiles.flip
  wide := hc.high
  high := hc.wide
  right := hc.bottom
  bottom := hc.right
  roomX := by
    intro q hq
    obtain ⟨p, hp, rfl⟩ := List.mem_map.mp hq
    exact hc.roomY p hp
  roomY := by
    intro q hq
    obtain ⟨p, hp, rfl⟩ := List.mem_map.mp hq
    exact hc.roomX p hp

/-- A list tiles just when the flipped one does. -/
theorem tiles_flip_iff {w h : Int} {rs : List Rect} : Tiles h w (rs.map Rect.flip) ↔ Tiles w h rs := by
  constructor
  · intro ht
    have := ht.flip
    rw [List.map_map, show Rect.flip ∘ Rect.flip = id from rfl, List.map_id] at this
    exact this
  · exact Tiles.flip

/-- A line that moves keeps the edges of a rectangle in order. -/
theorem Rect.moveLine_order {line d : Int} {r : Rect} (hm : r.Margin line d) (ho : r.y1 ≤ r.y2) :
    (r.moveLine line d).y1 ≤ (r.moveLine line d).y2 ∧
      ((r.moveLine line d).y1 < (r.moveLine line d).y2 ↔ r.y1 < r.y2 ∨ r.y1 = line) := by
  obtain ⟨h1, h2⟩ := hm
  by_cases ht : r.y1 = line
  · have := h1 ht
    rw [Rect.moveLine_top ht]
    simp only
    omega
  · by_cases hb : r.y2 = line
    · have := h2 ht hb
      rw [Rect.moveLine_bottom ht hb]
      simp only
      omega
    · rw [Rect.moveLine_other ht hb]
      omega

/-- An empty rectangle stays empty unless it grows. -/
theorem Rect.Empty.moveLines {x y dx dy : Int} {r : Rect} (he : r.Empty) (hx : r.flip.Margin x dx) (hy : r.Margin y dy)
    (h1 : r.x1 ≤ r.x2) (h2 : r.y1 ≤ r.y2) : (r.moveLines x y dx dy).Empty ↔ ¬ r.Grows x y := by
  have hxs := Rect.moveLine_order hx (show r.flip.y1 ≤ r.flip.y2 from h1)
  have hys := Rect.moveLine_order hy h2
  have hgrow : r.Grows x y ↔ (r.x1 < r.x2 ∨ r.x1 = x) ∧ (r.y1 < r.y2 ∨ r.y1 = y) := and_iff_right he
  have hsx : (r.moveLines x y dx dy).x1 < (r.moveLines x y dx dy).x2 ↔ r.x1 < r.x2 ∨ r.x1 = x := hxs.2
  have hsy : (r.moveLines x y dx dy).y1 < (r.moveLines x y dx dy).y2 ↔ r.y1 < r.y2 ∨ r.y1 = y := hys.2
  rw [hgrow, ← hsx, ← hsy, Rect.Empty]
  omega

namespace Corner

variable {w h : Int} {r : Rect} {rs : List Rect} {tw th : Int}

/-- The one that grows is not empty. -/
theorem not_empty_grow (hc : Corner w h r rs tw th) : ¬ (r.grow tw th).Empty := by
  have h1 := hc.wide
  have h2 := hc.high
  simp only [Rect.Empty, Rect.grow]
  omega

/-- A rectangle that is not empty grows with the lines at its corner. -/
theorem grow_eq (he : ¬ r.Empty) :
    r.grow tw th = r.moveLines r.x2 r.y2 (tw - (r.x2 - r.x1)) (th - (r.y2 - r.y1)) := by
  rw [Rect.Empty] at he
  simp only [Rect.moveLines, firstEdge, secondEdge, Rect.grow, if_neg (show r.x1 ≠ r.x2 by omega),
    if_neg (show r.y1 ≠ r.y2 by omega), if_true]
  congr 1 <;> omega

/-- The rectangles that hold a point, moved, still hold each point of the area once. -/
theorem once_solid (hc : Corner w h r rs tw th) (hx : tw = r.x2 - r.x1 ∨ 0 < r.x2) (hy : th = r.y2 - r.y1 ∨ 0 < r.y2) :
    Once w h ((solid (r :: rs)).map (Rect.moveLines r.x2 r.y2 (tw - (r.x2 - r.x1)) (th - (r.y2 - r.y1)))) := by
  have hr := hc.right
  have hb := hc.bottom
  have hw := hc.wide
  have hh := hc.high
  refine hc.tiles.once.solid.moveLines_solid (by omega) (by omega) ?_
  intro q hq
  obtain ⟨hq, he⟩ := mem_solid.mp hq
  refine ⟨he, ?_⟩
  rcases List.mem_cons.mp hq with rfl | hq
  · rw [Rect.Empty] at he
    exact ⟨⟨fun ht => by omega, fun _ => by omega⟩, fun (ht : q.x1 = q.x2) => by omega, fun _ => by
      show q.x1 < _
      omega⟩
  · exact ⟨(hc.roomY q hq).room he, (hc.roomX q hq).room fun hf => he (Rect.empty_flip.mp hf)⟩

/-- What a moved corner makes of the rectangles that held no point. -/
def stray (r : Rect) (rs : List Rect) (tw th : Int) : List Rect :=
  (if r.Empty then [r.grow tw th] else []) ++
    (rs.filter fun q => decide q.Empty).map (Rect.moveLines r.x2 r.y2 (tw - (r.x2 - r.x1)) (th - (r.y2 - r.y1)))

/-- What the moved corner covers: the moved lines, and what strays. -/
theorem cover_moveCorner (x y : Int) :
    cover x y (moveCorner r rs tw th) =
      cover x y ((solid (r :: rs)).map (Rect.moveLines r.x2 r.y2 (tw - (r.x2 - r.x1)) (th - (r.y2 - r.y1)))) +
        cover x y (stray r rs tw th) := by
  have hsplit : ∀ f : Rect → Rect, cover x y (rs.map f) =
      cover x y ((solid rs).map f) + cover x y ((rs.filter fun q => decide q.Empty).map f) := by
    intro f
    rw [cover, cover, cover, List.countP_map, List.countP_map, List.countP_map,
      List.countP_eq_countP_filter_add rs _ fun q => decide (¬ q.Empty)]
    simp [solid]
  rw [moveCorner, cover_cons, hsplit, stray, cover_append]
  by_cases he : r.Empty
  · rw [if_pos he, show solid (r :: rs) = solid rs by simp [solid, he]]
    omega
  · rw [if_neg he, show solid (r :: rs) = r :: solid rs by simp [solid, he], List.map_cons,
      cover_cons x y _ ((solid rs).map _), grow_eq he, cover_nil]
    omega

/-- What strays are empty rectangles that become solid. -/
theorem mem_stray {q : Rect} : q ∈ stray r rs tw th ↔ r.Empty ∧ q = r.grow tw th ∨
    ∃ p ∈ rs, p.Empty ∧ p.moveLines r.x2 r.y2 (tw - (r.x2 - r.x1)) (th - (r.y2 - r.y1)) = q := by
  rw [stray, List.mem_append]
  refine or_congr ?_ ?_
  · split_ifs with he <;> simp [he]
  · simp [and_assoc]

theorem stray_subset {q : Rect} (hq : q ∈ stray r rs tw th) : q ∈ moveCorner r rs tw th := by
  rcases mem_stray.mp hq with ⟨-, rfl⟩ | ⟨p, hp, -, rfl⟩
  · exact List.mem_cons_self
  · exact List.mem_cons_of_mem _ (List.mem_map_of_mem hp)

/-- The new corner lies in the area. -/
theorem corner_le (hc : Corner w h r rs tw th) (he : ¬ r.Empty) : r.y1 + th ≤ h := by
  rw [Rect.Empty] at he
  obtain ⟨⟨a1, a2, a3⟩, b1, b2, b3⟩ := hc.tiles.inside r List.mem_cons_self
  rcases hc.bottom with hb | hb
  · -- the rectangle below starts on the line, since this one ends there
    have hr : r.Has r.x1 (r.y2 - 1) := ⟨by omega, by omega⟩
    obtain ⟨q, hq, hp⟩ : ∃ q ∈ r :: rs, q.Has r.x1 r.y2 :=
      exists_of_cover_pos (by rw [hc.tiles.once r.x1 r.y2 a1 (by omega) (by omega) hb]; decide)
    have hne : q ≠ r := by
      intro hqr
      rw [hqr] at hp
      have := hp.2
      omega
    have htop : q.y1 = r.y2 := by
      by_contra ht
      refine hne (hc.tiles.once.unique a1 (by omega) (by omega) (by omega) hq List.mem_cons_self ⟨hp.1, ?_⟩ hr)
      have := hp.2
      omega
    have hroom := (hc.roomY q ((List.mem_cons.mp hq).resolve_left hne)).1 htop
    have := (hc.tiles.inside q hq).2
    omega
  · omega

/-- The rectangles lie in the area when the new corner does. -/
theorem inside_moveCorner (hc : Corner w h r rs tw th) (hr : r.x1 + tw ≤ w) (hb : r.y1 + th ≤ h) :
    ∀ q ∈ moveCorner r rs tw th, q.Inside w h := by
  have hw := hc.wide
  have hh := hc.high
  intro q hq
  have hin := hc.tiles.inside r List.mem_cons_self
  rcases List.mem_cons.mp hq with rfl | hq
  · obtain ⟨⟨a1, a2, a3⟩, b1, b2, b3⟩ := hin
    exact ⟨⟨a1, by simp only [Rect.grow]; omega, hr⟩, b1, by simp only [Rect.grow]; omega, hb⟩
  · obtain ⟨p, hp, rfl⟩ := List.mem_map.mp hq
    obtain ⟨⟨a1, a2, a3⟩, b1, b2, b3⟩ := hc.tiles.inside p (List.mem_cons_of_mem _ hp)
    have hx := (Rect.moveLine_order (hc.roomX p hp) (show p.flip.y1 ≤ p.flip.y2 from a2)).1
    have hy := (Rect.moveLine_order (hc.roomY p hp) b2).1
    obtain ⟨⟨c1, c2, c3⟩, d1, d2, d3⟩ := hin
    exact ⟨⟨le_firstEdge (by omega) a1, hx, secondEdge_le (by omega) a3⟩, le_firstEdge (by omega) b1, hy,
      secondEdge_le (by omega) b3⟩

/-- No line moves at the edge of the area: what matters is that nothing grows out of nothing. -/
theorem tiles_inner (hc : Corner w h r rs tw th) (hx : tw = r.x2 - r.x1 ∨ 0 < r.x2) (hy : th = r.y2 - r.y1 ∨ 0 < r.y2) :
    Tiles w h (moveCorner r rs tw th) ↔ ¬ r.Empty ∧ ∀ q ∈ rs, ¬ q.Grows r.x2 r.y2 := by
  have honce := hc.once_solid hx hy
  have hempty : ∀ p ∈ rs, p.Empty →
      ((p.moveLines r.x2 r.y2 (tw - (r.x2 - r.x1)) (th - (r.y2 - r.y1))).Empty ↔ ¬ p.Grows r.x2 r.y2) := by
    intro p hp he
    have hin := hc.tiles.inside p (List.mem_cons_of_mem _ hp)
    exact he.moveLines (hc.roomX p hp) (hc.roomY p hp) hin.1.2.1 hin.2.2.1
  have hstray : (∀ q ∈ stray r rs tw th, q.Empty) ↔ ¬ r.Empty ∧ ∀ q ∈ rs, ¬ q.Grows r.x2 r.y2 := by
    constructor
    · intro hs
      constructor
      · intro he
        exact hc.not_empty_grow (hs _ (mem_stray.mpr (Or.inl ⟨he, rfl⟩)))
      · intro q hq hg
        exact (hempty q hq hg.1).mp (hs _ (mem_stray.mpr (Or.inr ⟨q, hq, hg.1, rfl⟩))) hg
    · intro hs q hq
      rcases mem_stray.mp hq with ⟨he, -⟩ | ⟨p, hp, he, rfl⟩
      · exact absurd he hs.1
      · exact (hempty p hp he).mpr (hs.2 p hp)
  rw [← hstray]
  constructor
  · intro ht q hq
    by_contra he
    obtain ⟨⟨a1, a2, a3⟩, b1, b2, b3⟩ := ht.inside q (stray_subset hq)
    rw [Rect.Empty] at he
    have hpos := cover_pos hq (show q.Has q.x1 q.y1 from ⟨by omega, by omega⟩)
    have h1 := ht.once q.x1 q.y1 a1 (by omega) b1 (by omega)
    rw [cover_moveCorner, honce q.x1 q.y1 a1 (by omega) b1 (by omega)] at h1
    omega
  · intro hs
    have he := (hstray.mp hs).1
    refine ⟨hc.inside_moveCorner (hc.flip.corner_le fun hf => he (Rect.empty_flip.mp hf)) (hc.corner_le he), ?_⟩
    intro x y h1 h2 h3 h4
    have hzero : cover x y (stray r rs tw th) = 0 := by
      refine List.countP_eq_zero.mpr fun q hq => ?_
      simpa using (hs q hq).not_has x y
    rw [cover_moveCorner, honce x y h1 h2 h3 h4, hzero]

/-- A rectangle of no height at the top that is given the whole width pushes the others down. -/
theorem SpansTop.no_growth (hc : Corner w h r rs tw th) (hs : r.SpansTop w tw) : ∀ q ∈ rs, ¬ q.Grows r.x2 r.y2 := by
  obtain ⟨s1, s2, s3, rfl⟩ := hs
  have hin := hc.tiles.inside r List.mem_cons_self
  have hh := hc.high
  intro q hq hg
  obtain ⟨he, hgx, hgy⟩ := hg
  have hx := (hc.roomX q hq).1
  have hy := (hc.roomY q hq).1
  have h1 := hin.1.2.2
  simp only [Rect.flip] at hx
  rcases he with he | he
  · have := hx (hgx.resolve_left (by omega))
    omega
  · have := hy (hgy.resolve_left (by omega))
    omega

/-- No rectangle that holds a point has an edge on the line on the right, if it moves. -/
theorem SpansTop.no_edge (hc : Corner w h r rs tw th) (hs : r.SpansTop w tw) {q : Rect} (hq : q ∈ rs) (he : ¬ q.Empty) :
    tw = r.x2 - r.x1 ∨ q.x1 ≠ r.x2 ∧ q.x2 ≠ r.x2 := by
  obtain ⟨s1, s2, s3, rfl⟩ := hs
  rcases hc.right with hr | hr
  · refine Or.inr ?_
    have hfirst : ∀ p ∈ rs, p.x1 ≠ r.x2 := by
      intro p hp h1
      have hroom := (hc.roomX p hp).1 h1
      have hin := (hc.tiles.inside p (List.mem_cons_of_mem _ hp)).1.2.2
      simp only [Rect.flip] at hroom
      omega
    refine ⟨hfirst q hq, ?_⟩
    intro h2
    obtain ⟨⟨a1, a2, a3⟩, b1, b2, b3⟩ := hc.tiles.inside q (List.mem_cons_of_mem _ hq)
    rw [Rect.Empty] at he
    obtain ⟨p, hp, hpp⟩ : ∃ p ∈ r :: rs, p.Has r.x2 q.y1 :=
      exists_of_cover_pos (by rw [hc.tiles.once r.x2 q.y1 (by omega) hr b1 (by omega)]; decide)
    obtain ⟨hp1, hp2⟩ := hpp
    rcases List.mem_cons.mp hp with rfl | hp'
    · omega
    · have hne := hfirst p hp'
      have heq : p = q := hc.tiles.once.unique (x := r.x2 - 1) (y := q.y1) (by omega) (by omega) b1 (by omega) hp
        (List.mem_cons_of_mem _ hq) ⟨by omega, hp2⟩ ⟨by omega, by omega⟩
      rw [heq] at hp1
      omega
  · exact Or.inl hr

/-- The line at the top moves: its rectangle has to take the whole width. -/
theorem tiles_top (hc : Corner w h r rs tw th) (htop : r.y2 = 0) : Tiles w h (moveCorner r rs tw th) ↔ r.SpansTop w tw := by
  have hin := hc.tiles.inside r List.mem_cons_self
  have hw := hc.wide
  have hh := hc.high
  have hy1 : r.y1 = 0 := by
    have := hin.2
    omega
  have hpos : 0 < h := by
    have := hc.bottom
    omega
  constructor
  · intro ht
    have hg := (ht.inside _ List.mem_cons_self : (r.grow tw th).Inside w h).1
    simp only [Rect.grow] at hg
    have hrow : ∀ x, 0 ≤ x → x < w → r.x1 ≤ x ∧ x < r.x1 + tw := by
      intro x h1 h2
      obtain ⟨q, hq, hp⟩ : ∃ q ∈ moveCorner r rs tw th, q.Has x 0 :=
        exists_of_cover_pos (by rw [ht.once x 0 h1 h2 le_rfl hpos]; decide)
      rcases List.mem_cons.mp hq with rfl | hq
      · exact hp.1
      · -- every other rectangle starts below the first row
        obtain ⟨p, hpm, rfl⟩ := List.mem_map.mp hq
        have hpy := (hc.tiles.inside p (List.mem_cons_of_mem _ hpm)).2.1
        have hfirst := hp.2.1
        simp only [Rect.moveLines, firstEdge] at hfirst
        split_ifs at hfirst <;> omega
    have h1 := hrow 0 le_rfl (by omega)
    have h2 := hrow (w - 1) (by omega) (by omega)
    exact ⟨hy1, htop, by omega, by omega⟩
  · intro hs
    have hgrow := SpansTop.no_growth hc hs
    have hre : r.Empty := Or.inr (by omega)
    -- the other rectangles, one by one: only the edges on the line at the top matter
    have hmoved : ∀ q ∈ rs, ∀ x y, (q.moveLines r.x2 r.y2 (tw - (r.x2 - r.x1)) (th - (r.y2 - r.y1))).Has x y ↔
        q.Has x y ∧ (q.y1 = 0 → th ≤ y) := by
      intro q hq x y
      have hqin := hc.tiles.inside q (List.mem_cons_of_mem _ hq)
      by_cases he : q.Empty
      · have hmv := (he.moveLines (hc.roomX q hq) (hc.roomY q hq) hqin.1.2.1 hqin.2.2.1).mpr (hgrow q hq)
        exact iff_of_false (hmv.not_has x y) fun hp => he.not_has x y hp.1
      · have hx : firstEdge r.x2 (tw - (r.x2 - r.x1)) q.x1 = q.x1 ∧
            secondEdge r.x2 (tw - (r.x2 - r.x1)) q.x1 q.x2 = q.x2 := by
          rw [firstEdge, secondEdge]
          rcases SpansTop.no_edge hc hs hq he with hd | ⟨h1, h2⟩
          · split_ifs <;> omega
          · rw [if_neg h1, if_neg h1, if_neg h2]
            exact ⟨rfl, rfl⟩
        have hroom := (hc.roomY q hq).1
        rw [Rect.Empty] at he
        rw [Rect.moveLines, hx.1, hx.2]
        simp only [Has, firstEdge, secondEdge]
        have hq2 := hqin.2
        split_ifs <;> omega
    -- the tile over a point of the first row goes down beyond the new height
    have htile : ∀ x, 0 ≤ x → x < w → ∃ q ∈ rs, q.Has x 0 ∧ th < q.y2 ∧ q.y1 = 0 := by
      intro x h1 h2
      obtain ⟨q, hq, hp⟩ : ∃ q ∈ r :: rs, q.Has x 0 :=
        exists_of_cover_pos (by rw [hc.tiles.once x 0 h1 h2 le_rfl hpos]; decide)
      rcases List.mem_cons.mp hq with rfl | hq
      · exact absurd hp (hre.not_has x 0)
      · have hqin := (hc.tiles.inside q (List.mem_cons_of_mem _ hq)).2
        have hp2 := hp.2
        have hroom := (hc.roomY q hq).1 (by omega)
        exact ⟨q, hq, hp, by omega, by omega⟩
    refine ⟨?_, ?_⟩
    · obtain ⟨-, -, s3, s4⟩ := hs
      obtain ⟨q, hq, -, hth, -⟩ := htile 0 le_rfl (by omega)
      have := (hc.tiles.inside q (List.mem_cons_of_mem _ hq)).2
      exact hc.inside_moveCorner (by omega) (by omega)
    · intro x y h1 h2 h3 h4
      have hold := hc.tiles.once x y h1 h2 h3 h4
      rw [cover_cons, cover_none (hre.not_has x y), Nat.zero_add] at hold
      rw [moveCorner, cover_cons]
      obtain ⟨-, -, s3, s4⟩ := hs
      by_cases hy : y < th
      · have hnone : cover x y (rs.map (Rect.moveLines r.x2 r.y2 (tw - (r.x2 - r.x1)) (th - (r.y2 - r.y1)))) = 0 := by
          refine List.countP_eq_zero.mpr fun q hq => ?_
          obtain ⟨p, hp, rfl⟩ := List.mem_map.mp hq
          rw [decide_eq_true_eq, hmoved p hp x y]
          intro hpp
          obtain ⟨t, ht, htx, hth, ht1⟩ := htile x h1 h2
          have heq : p = t := hc.tiles.once.unique h1 h2 h3 h4 (List.mem_cons_of_mem _ hp) (List.mem_cons_of_mem _ ht) hpp.1
            ⟨htx.1, by omega⟩
          rw [← heq] at ht1
          have := hpp.2 ht1
          omega
        rw [cover_one (show (r.grow tw th).Has x y from ⟨⟨by simp only [Rect.grow]; omega, by simp only [Rect.grow]; omega⟩,
          by simp only [Rect.grow]; omega, by simp only [Rect.grow]; omega⟩), hnone]
      · have hsame : cover x y (rs.map (Rect.moveLines r.x2 r.y2 (tw - (r.x2 - r.x1)) (th - (r.y2 - r.y1)))) = cover x y rs := by
          rw [cover, cover, List.countP_map]
          refine List.countP_congr fun q hq => ?_
          simp only [Function.comp, decide_eq_true_eq]
          rw [hmoved q hq x y]
          exact and_iff_left fun _ => by omega
        rw [hsame, hold, cover_none]
        intro hp
        have := hp.2.2
        simp only [Rect.grow] at this
        omega

/-- The corner of a rectangle moves, and the edges on its two lines with it. The rectangles stay a tiling exactly when no
rectangle without points grows, and the one that is resized holds a point or is laid along a whole side. -/
theorem tiles_moveCorner (hc : Corner w h r rs tw th) :
    Tiles w h (moveCorner r rs tw th) ↔
      (∀ q ∈ rs, ¬ q.Grows r.x2 r.y2) ∧ (¬ r.Empty ∨ r.SpansTop w tw ∨ r.flip.SpansTop h th) := by
  have hleft : r.x2 = 0 → (Tiles w h (moveCorner r rs tw th) ↔ r.flip.SpansTop h th) := by
    intro h0
    rw [← hc.flip.tiles_top h0, moveCorner_flip, tiles_flip_iff]
  have hgrow : r.SpansTop w tw ∨ r.flip.SpansTop h th → ∀ q ∈ rs, ¬ q.Grows r.x2 r.y2 := by
    intro hs q hq hg
    rcases hs with hs | hs
    · exact SpansTop.no_growth hc hs q hq hg
    · exact SpansTop.no_growth hc.flip hs q.flip (List.mem_map_of_mem hq) ⟨Rect.empty_flip.mpr hg.1, hg.2.2, hg.2.1⟩
  have hin := hc.tiles.inside r List.mem_cons_self
  have hw := hc.wide
  have hh := hc.high
  by_cases hy : r.y2 = 0
  · have htop := hc.tiles_top hy
    have he : r.Empty := Or.inr (by have := hin.2; omega)
    constructor
    · intro ht
      have hs := htop.mp ht
      exact ⟨hgrow (Or.inl hs), Or.inr (Or.inl hs)⟩
    · rintro ⟨-, hs⟩
      rcases hs.resolve_left (not_not.mpr he) with hs | hs
      · exact htop.mpr hs
      · exact (hleft hs.2.1).mpr hs
  · by_cases hx : r.x2 = 0
    · have he : r.Empty := Or.inl (by have := hin.1; omega)
      constructor
      · intro ht
        have hs := (hleft hx).mp ht
        exact ⟨hgrow (Or.inr hs), Or.inr (Or.inr hs)⟩
      · rintro ⟨-, hs⟩
        rcases hs.resolve_left (not_not.mpr he) with hs | hs
        · exact absurd hs.2.1 hy
        · exact (hleft hx).mpr hs
    · rw [hc.tiles_inner (Or.inr (by have := hin.1; omega)) (Or.inr (by have := hin.2; omega))]
      constructor
      · rintro ⟨he, hg⟩
        exact ⟨hg, Or.inl he⟩
      · rintro ⟨hg, he | hs | hs⟩
        · exact ⟨he, hg⟩
        · exact absurd hs.2.1 hy
        · exact absurd hs.2.1 hx

end Corner

end Tiling
