import Lindenmayer.Picture.Stroke

/-! Pictures read segment by segment: what each segment looks like, and which segments are of one
stroke. -/
namespace Lindenmayer

/-- A segment with the width and the color that it is drawn in. -/
structure Mark where
  source : Point
  target : Point
  width : Float
  color : Color

/-- The segments of a stroke. All have the looks of the stroke. -/
def Stroke.marks (s : Stroke) : List Mark :=
  s.segments.map fun (p, q) => ⟨p, q, s.width, s.color⟩

/-- The segments of a picture, stroke by stroke. -/
def Picture.marks (p : Picture) : List Mark := p.strokes.flatMap Stroke.marks

/-- Whether the segment at an index, counted through all strokes, and the next one are of one
stroke. -/
def Picture.Joined (p : Picture) (k : Nat) : Prop :=
  ∃ before s after, p.strokes = before ++ s :: after ∧
    (Picture.mk before).segmentCount ≤ k ∧
    k + 1 < (Picture.mk before).segmentCount + s.segmentCount

@[simp] theorem Picture.segmentCount_nil : (Picture.mk []).segmentCount = 0 := rfl

@[simp] theorem Picture.segmentCount_cons (s : Stroke) (strokes : List Stroke) :
    (Picture.mk (s :: strokes)).segmentCount = s.segmentCount + (Picture.mk strokes).segmentCount :=
  rfl

private theorem zip_tail_concat (ps : List Point) (p q : Point) :
    (ps ++ [p, q]).zip (ps ++ [p, q]).tail = (ps ++ [p]).zip (ps ++ [p]).tail ++ [(p, q)] := by
  induction ps with
  | nil => rfl
  | cons r ps ih => cases ps with
    | nil => rfl
    | cons r' ps => simpa using ih

theorem Stroke.length_marks (s : Stroke) : s.marks.length = s.segmentCount := by
  simp [marks, segments, segmentCount]

theorem Picture.length_marks (p : Picture) : p.marks.length = p.segmentCount := by
  obtain ⟨strokes⟩ := p
  induction strokes with
  | nil => rfl
  | cons s strokes ih =>
    rw [marks, List.flatMap_cons, List.length_append, Stroke.length_marks, segmentCount_cons, ← ih]
    rfl

/-- A stroke of two points is one segment. -/
theorem Stroke.marks_pair (p q : Point) (width : Float) (color : Color) :
    (Stroke.mk [p, q] width color).marks = [⟨p, q, width, color⟩] := rfl

/-- A stroke with one more point has one more segment, from the point that was the last. -/
theorem Stroke.marks_concat (ps : List Point) (p q : Point) (width : Float) (color : Color) :
    (Stroke.mk (ps ++ [p, q]) width color).marks =
      (Stroke.mk (ps ++ [p]) width color).marks ++ [⟨p, q, width, color⟩] := by
  simp [marks, segments, zip_tail_concat]

/-- For each segment of a stroke, whether it goes on from another one. -/
def Stroke.joins (s : Stroke) : List Bool := (List.replicate s.segmentCount true).set 0 false

/-- For each segment of a picture, whether it goes on from another one of its stroke. -/
def Picture.joins (p : Picture) : List Bool := p.strokes.flatMap Stroke.joins

theorem Stroke.joins_pair (p q : Point) (width : Float) (color : Color) :
    (Stroke.mk [p, q] width color).joins = [false] := rfl

theorem Stroke.joins_concat (ps : List Point) (p q r : Point) (width : Float) (color : Color) :
    (Stroke.mk (ps ++ [p, q, r]) width color).joins =
      (Stroke.mk (ps ++ [p, q]) width color).joins ++ [true] := by
  have hc : (Stroke.mk (ps ++ [p, q, r]) width color).segmentCount = ps.length + 1 + 1 := by
    simp [segmentCount]
  have hd : (Stroke.mk (ps ++ [p, q]) width color).segmentCount = ps.length + 1 := by
    simp [segmentCount]
  rw [joins, joins, hc, hd]
  simp only [List.replicate_succ, List.set_cons_zero, List.cons_append]
  rw [← List.replicate_succ, List.replicate_succ']

private theorem joins_head (strokes : List Stroke) :
    (strokes.flatMap Stroke.joins)[0]? ≠ some true := by
  induction strokes with
  | nil => simp
  | cons s rest ih =>
    cases hn : s.segmentCount with
    | zero => simpa [Stroke.joins, hn] using ih
    | succ n => simp [Stroke.joins, hn, List.replicate_succ]

private theorem Picture.joined_cons (s : Stroke) (rest : List Stroke) (k : Nat) :
    (Picture.mk (s :: rest)).Joined k ↔
      k + 1 < s.segmentCount ∨
        s.segmentCount ≤ k ∧ (Picture.mk rest).Joined (k - s.segmentCount) := by
  constructor
  · rintro ⟨before, t, after, he, hl, hu⟩
    cases before with
    | nil =>
      obtain ⟨rfl, _⟩ := List.cons.inj he
      simp only [segmentCount_nil] at hu
      exact .inl (by omega)
    | cons b before =>
      obtain ⟨rfl, hr⟩ := List.cons.inj he
      simp only [segmentCount_cons] at hl hu
      exact .inr ⟨by omega, before, t, after, hr, by omega, by omega⟩
  · rintro (hk | ⟨hn, before, t, after, he, hl, hu⟩)
    · exact ⟨[], s, rest, rfl, by simp, by simpa using hk⟩
    · refine ⟨s :: before, t, after, ?_, ?_, ?_⟩
      · exact congrArg (s :: ·) he
      · simp only [segmentCount_cons]; omega
      · simp only [segmentCount_cons]; omega

/-- A segment is of one stroke with the one before it exactly when it goes on from it. -/
theorem Picture.joined_iff (p : Picture) (k : Nat) : p.Joined k ↔ p.joins[k + 1]? = some true := by
  obtain ⟨strokes⟩ := p
  unfold Picture.joins
  dsimp only
  induction strokes generalizing k with
  | nil => simp [Joined]
  | cons s rest ih =>
    have hl : s.joins.length = s.segmentCount := by simp [Stroke.joins]
    rw [joined_cons, List.flatMap_cons, List.getElem?_append, hl]
    by_cases hk : k + 1 < s.segmentCount
    · have hj : s.joins[k + 1]? = some true := by simp [Stroke.joins, hk]
      simp [hk, hj]
    · by_cases hn : s.segmentCount ≤ k
      · have hs : k + 1 - s.segmentCount = k - s.segmentCount + 1 := by omega
        simp [hk, hn, ih, hs]
      · have hs : k + 1 - s.segmentCount = 0 := by omega
        have hh := joins_head rest
        simp [hk, hn, hs, hh]

end Lindenmayer
