import Lindenmayer.Proofs.Svg.Levels
import Lindenmayer.Svg.Render
import Mathlib.Data.List.Forall2

/-! Images read back. A text of an image determines each stroke of the picture, as far as numbers are
written with all their places, and colors with 8 bits for each channel. -/
namespace Lindenmayer

section Numbers

/-- The characters of numbers, those of infinities and of what is not a number among them. -/
def inNumber (c : Char) : Bool := c.isDigit || ['-', '.', 'N', 'a', 'i', 'n', 'f'].contains c

/-- A text made of the characters of numbers. -/
def IsNumeric (s : String) : Prop := s.toList.all inNumber

instance : DecidablePred IsNumeric := fun _ => inferInstanceAs (Decidable (_ = true))

theorem isNumeric_iff {s : String} : IsNumeric s ↔ ∀ c ∈ s.toList, inNumber c := List.all_eq_true

theorem IsNumeric.append {s t : String} (hs : IsNumeric s) (ht : IsNumeric t) :
    IsNumeric (s ++ t) := by
  rw [IsNumeric, String.toList_append, List.all_append, hs, ht]
  rfl

theorem IsNumeric.not_mem {s : String} (h : IsNumeric s) {c : Char} (hc : inNumber c = false) :
    c ∉ s.toList :=
  fun hm => Bool.false_ne_true (hc.symm.trans (isNumeric_iff.mp h c hm))

theorem isNumeric_repr (n : Nat) : IsNumeric (Nat.repr n) := by
  refine isNumeric_iff.mpr fun c hc => ?_
  rw [Nat.toList_repr] at hc
  simp [inNumber, Nat.isDigit_of_mem_toDigits (by decide) (by decide) hc]

theorem isNumeric_pushn {s : String} (h : IsNumeric s) (n : Nat) : IsNumeric (s.pushn '0' n) := by
  rw [String.pushn_eq_repeat_push]
  induction n with
  | zero => exact h
  | succ n ih =>
    rw [Nat.repeat, IsNumeric, String.toList_push, List.all_append, ih]
    decide

namespace Decimal

theorem isNumeric_digits (n width : Nat) : IsNumeric (digits n width) :=
  (isNumeric_pushn (by decide) _).append (isNumeric_repr n)

theorem isNumeric_pointed (n places : Nat) : IsNumeric (pointed n places) := by
  unfold pointed
  split
  · exact isNumeric_repr n
  · exact ((isNumeric_repr _).append (by decide)).append (isNumeric_digits _ _)

theorem isNumeric_fixed (places : Nat) (x : Float) : IsNumeric (fixed places x) := by
  unfold fixed write
  split
  · refine IsNumeric.append ?_ (isNumeric_pointed _ _)
    split <;> decide
  · split
    · decide
    · split <;> decide

end Decimal

namespace Svg

theorem mem_of_mem_trimZeros {s : List Char} {c : Char} (h : c ∈ trimZeros s) : c ∈ s := by
  have hcut : ∀ c ∈ s.reverse.dropWhile (· == '0'), c ∈ s := fun c hc =>
    List.mem_reverse.mp ((List.dropWhile_sublist _).subset hc)
  simp only [trimZeros] at h
  split at h
  · rename_i rest heq
    rw [List.mem_reverse] at h
    exact hcut c (heq ▸ List.mem_cons_of_mem _ h)
  · exact hcut c (List.mem_reverse.mp h)

theorem isNumeric_number (places : Nat) (x : Float) : IsNumeric (number places x) := by
  let s := (Decimal.fixed places x).toList
  let t := if s.contains '.' then trimZeros s else s
  have hs : ∀ c ∈ s, inNumber c := isNumeric_iff.mp (Decimal.isNumeric_fixed places x)
  have ht : ∀ c ∈ t, inNumber c := by
    simp only [t]
    split
    · exact fun c hc => hs c (mem_of_mem_trimZeros hc)
    · exact hs
  change IsNumeric (String.ofList (if t = ['-', '0'] then ['0'] else t))
  rw [isNumeric_iff, String.toList_ofList]
  split
  · simp [inNumber]
  · exact ht

end Svg

end Numbers

namespace Svg

section Splitting
variable {c : Char} {s t separator : String}

/-- The parts of a text between the places of a character. -/
def split (c : Char) (text : String) : List String :=
  (text.toList.splitOn c).map String.ofList

theorem split_of_not_mem (h : c ∉ s.toList) : split c s = [s] := by
  rw [split, List.splitOn_eq_singleton h, List.map_singleton, String.ofList_toList]

theorem split_append (hc : separator.toList = [c]) (h : c ∉ s.toList) :
    split c (s ++ separator ++ t) = s :: split c t := by
  have htext : (s ++ separator ++ t).toList = s.toList ++ c :: t.toList := by
    simp [String.toList_append, hc]
  rw [split, htext, List.splitOn_append_cons_self, List.splitOn_eq_singleton h, List.map_append,
    List.map_singleton, String.ofList_toList]
  rfl

theorem split_intercalate {l : List String} (hc : separator.toList = [c])
    (h : ∀ s ∈ l, c ∉ s.toList) (hl : l ≠ []) : split c (separator.intercalate l) = l := by
  rw [split, String.toList_intercalate, hc, List.splitOn_intercalate, List.map_map]
  · simp
  · simpa using h
  · simpa using hl

end Splitting

/-- The levels of the channels of a color, with 8 bits each. -/
def bytes (c : Color) : UInt8 × UInt8 × UInt8 := (level c.red, level c.green, level c.blue)

/-- What the text of an image tells of a stroke. -/
structure StrokeText where
  points : List (String × String)
  width : String
  color : UInt8 × UInt8 × UInt8
  deriving DecidableEq, Repr

def StrokeText.of (places : Nat) (s : Stroke) : StrokeText :=
  ⟨s.points.map fun p => (number places p.x, number places (-p.y)), number places s.width.abs,
    bytes s.color⟩

/-- What the text of an image tells: the color behind the drawing, if there is one, and the
strokes. -/
structure ImageText where
  background : Option (UInt8 × UInt8 × UInt8)
  strokes : List StrokeText
  deriving DecidableEq, Repr

def ImageText.of (l : Layout) (p : Picture) : ImageText :=
  ⟨l.background.map bytes, p.strokes.map (.of l.places)⟩

section Reader

def hexDigit (c : Char) : Nat := ((List.range 16).find? (Nat.digitChar · == c)).getD 0

def readByte (high low : Char) : UInt8 := UInt8.ofNat (16 * hexDigit high + hexDigit low)

def readColor (text : String) : Option (UInt8 × UInt8 × UInt8) :=
  if text = "black" then some (0, 0, 0)
  else if text = "white" then some (255, 255, 255)
  else match text.toList with
    | ['#', a, b, c, d, e, f] => some (readByte a b, readByte c d, readByte e f)
    | _ => none

def readPoint (text : String) : String × String :=
  match split ',' text with
  | [x, y] => (x, y)
  | _ => ("", "")

def readPath (text : String) : List (String × String) :=
  match text.toList with
  | 'M' :: rest => (split 'L' (String.ofList rest)).map readPoint
  | _ => []

def pairs : List String → List (String × String)
  | key :: value :: rest => (key, value) :: pairs rest
  | _ => []

/-- The attributes of a tag, each under the text that stands before it. -/
def readTag (line : String) : List (String × String) := pairs (split '"' line)

def readStroke (line : String) : Option StrokeText := do
  let attributes := readTag line
  let path ← attributes.lookup "<path d="
  let color ← readColor (← attributes.lookup " stroke=")
  let width ← attributes.lookup " stroke-width="
  some ⟨readPath path, width, color⟩

def readBackground (line : String) : Option (UInt8 × UInt8 × UInt8) := do
  readColor (← (readTag line).lookup "<rect fill=")

/-- The text of an image, read back. -/
def read (text : String) : ImageText :=
  ⟨(split '\n' text).findSome? readBackground, (split '\n' text).filterMap readStroke⟩

end Reader

section Colors

private theorem hexDigit_digitChar : ∀ n < 16, hexDigit (Nat.digitChar n) = n := by decide

theorem readByte_hexByte (b : UInt8) :
    readByte (Nat.digitChar (b.toNat / 16)) (Nat.digitChar (b.toNat % 16)) = b := by
  have hb := b.toNat_lt
  rw [readByte, hexDigit_digitChar _ (by omega), hexDigit_digitChar _ (by omega), Nat.div_add_mod,
    UInt8.ofNat_toNat]

theorem readColor_color (c : Color) : readColor (color c) = some (bytes c) := by
  simp only [color, channel_eq_level, bytes]
  generalize level c.red = r
  generalize level c.green = g
  generalize level c.blue = b
  split
  · rename_i h
    obtain ⟨rfl, rfl, rfl⟩ := h
    rfl
  · split
    · rename_i h
      obtain ⟨rfl, rfl, rfl⟩ := h
      rfl
    · have htext : ("#" ++ hexByte r ++ hexByte g ++ hexByte b).toList =
          ['#', Nat.digitChar (r.toNat / 16), Nat.digitChar (r.toNat % 16),
            Nat.digitChar (g.toNat / 16), Nat.digitChar (g.toNat % 16),
            Nat.digitChar (b.toNat / 16), Nat.digitChar (b.toNat % 16)] := by
        simp [hexByte, String.toList_append]
      have hname (name : String) (hn : name.toList.head? ≠ some '#') :
          "#" ++ hexByte r ++ hexByte g ++ hexByte b ≠ name := by
        rintro rfl
        rw [htext] at hn
        exact hn rfl
      rw [readColor, if_neg (hname _ (by decide)), if_neg (hname _ (by decide)), htext]
      simp only [readByte_hexByte]

end Colors

section Paths

theorem readPoint_point (places : Nat) (p : Point) :
    readPoint (point places p) = (number places p.x, number places (-p.y)) := by
  have hx : ',' ∉ (number places p.x).toList := (isNumeric_number _ _).not_mem (by decide)
  have hy : ',' ∉ (number places (-p.y)).toList := (isNumeric_number _ _).not_mem (by decide)
  rw [readPoint, point, split_append rfl hx, split_of_not_mem hy]

theorem not_mem_point {c : Char} (hc : inNumber c = false) (hsep : c ≠ ',') (places : Nat)
    (p : Point) : c ∉ (point places p).toList := by
  simp [point, String.toList_append, (isNumeric_number _ _).not_mem hc, hsep]

private theorem foldl_intercalate {α : Type} (f : α → String) (d : String) (x : α) (l : List α) :
    l.foldl (fun d y => d ++ "L" ++ f y) (d ++ f x) = d ++ "L".intercalate ((x :: l).map f) := by
  induction l generalizing d x with
  | nil => simp
  | cons y l ih =>
    rw [List.foldl_cons, ih, List.map_cons, List.map_cons, List.map_cons,
      String.intercalate_cons_cons, String.append_assoc, String.append_assoc, String.append_assoc]

theorem pathData_cons (places : Nat) (p : Point) (ps : List Point) :
    pathData places (p :: ps) = "M" ++ "L".intercalate ((p :: ps).map (point places)) :=
  foldl_intercalate (point places) "M" p ps

/-- No number runs into the command after it. -/
theorem readPath_pathData (places : Nat) (ps : List Point) :
    readPath (pathData places ps) =
      ps.map fun p => (number places p.x, number places (-p.y)) := by
  cases ps with
  | nil => rfl
  | cons p ps =>
    let texts := (p :: ps).map (point places)
    have htexts : ∀ s ∈ texts, 'L' ∉ s.toList := by
      simp only [texts, List.forall_mem_map]
      exact fun q _ => not_mem_point (by decide) (by decide) places q
    have htext : (pathData places (p :: ps)).toList = 'M' :: ("L".intercalate texts).toList := by
      rw [pathData_cons, String.toList_append]
      rfl
    rw [readPath, htext]
    simp only [String.ofList_toList]
    rw [split_intercalate rfl htexts (List.cons_ne_nil _ _)]
    simp only [texts, List.map_map, Function.comp_def, readPoint_point]

end Paths

section Tags

/-- A text that can stand in quotes on a line. -/
def IsPlain (s : String) : Prop := '"' ∉ s.toList ∧ '\n' ∉ s.toList

instance : DecidablePred IsPlain := fun _ => inferInstanceAs (Decidable (_ ∧ _))

theorem IsPlain.append {s t : String} (hs : IsPlain s) (ht : IsPlain t) : IsPlain (s ++ t) := by
  simp [IsPlain, String.toList_append, hs.1, hs.2, ht.1, ht.2]

theorem isPlain_number (places : Nat) (x : Float) : IsPlain (number places x) :=
  ⟨(isNumeric_number _ _).not_mem (by decide), (isNumeric_number _ _).not_mem (by decide)⟩

theorem isPlain_hexByte (b : UInt8) : IsPlain (hexByte b) := by
  have hdigit : ∀ n < 16, '"' ≠ Nat.digitChar n ∧ '\n' ≠ Nat.digitChar n := by decide
  have hb := b.toNat_lt
  have hhigh := hdigit (b.toNat / 16) (by omega)
  have hlow := hdigit (b.toNat % 16) (by omega)
  simp [IsPlain, hexByte, hhigh, hlow]

theorem isPlain_color (c : Color) : IsPlain (color c) := by
  simp only [color]
  split
  · decide
  · split
    · decide
    · exact (((by decide : IsPlain "#").append (isPlain_hexByte _)).append
        (isPlain_hexByte _)).append (isPlain_hexByte _)

theorem isPlain_pathData (places : Nat) (ps : List Point) : IsPlain (pathData places ps) := by
  have hpoint (p : Point) : IsPlain (point places p) :=
    ((isPlain_number _ _).append (by decide)).append (isPlain_number _ _)
  cases ps with
  | nil => exact (by decide : IsPlain "")
  | cons p ps =>
    have hfold (d : String) (hd : IsPlain d) :
        IsPlain (ps.foldl (fun d q => d ++ "L" ++ point places q) d) := by
      induction ps generalizing d with
      | nil => exact hd
      | cons q qs ih => exact ih _ ((hd.append (by decide)).append (hpoint q))
    exact hfold _ ((by decide : IsPlain "M").append (hpoint p))

/-- A tag without quotes in its parts, and without breaks. -/
structure Tag.IsPlain (t : Tag) : Prop where
  name : Svg.IsPlain t.name
  attributes : ∀ a ∈ t.attributes, Svg.IsPlain a.1 ∧ Svg.IsPlain a.2

/-- The attributes of a tag under the texts before them, the first of which starts the tag. -/
def keyed (start : String) : List (String × String) → List (String × String)
  | [] => []
  | (key, value) :: rest => (start ++ " " ++ key ++ "=", value) :: keyed "" rest

private theorem pairs_split {start close : String} {attributes : List (String × String)}
    (hs : '"' ∉ start.toList) (hc : '"' ∉ close.toList)
    (ha : ∀ a ∈ attributes, IsPlain a.1 ∧ IsPlain a.2) :
    pairs (split '"' (start ++ String.join (attributes.map fun (key, value) =>
      " " ++ key ++ "=\"" ++ value ++ "\"") ++ close)) = keyed start attributes := by
  induction attributes generalizing start with
  | nil =>
    have htext : '"' ∉ (start ++ close).toList := by simp [String.toList_append, hs, hc]
    simp [split_of_not_mem htext, pairs, keyed]
  | cons a rest ih =>
    obtain ⟨key, value⟩ := a
    obtain ⟨⟨hkey, hvalue⟩, hrest⟩ := List.forall_mem_cons.mp ha
    have hfirst : '"' ∉ (start ++ " " ++ key ++ "=").toList := by
      simp [String.toList_append, hs, hkey.1]
    let others := String.join (rest.map fun (key, value) => " " ++ key ++ "=\"" ++ value ++ "\"")
    have htext : start ++ String.join (((key, value) :: rest).map fun (key, value) =>
        " " ++ key ++ "=\"" ++ value ++ "\"") ++ close =
        (start ++ " " ++ key ++ "=") ++ "\"" ++ (value ++ "\"" ++ ("" ++ others ++ close)) := by
      have hquote : "=\"" = "=" ++ "\"" := rfl
      simp only [List.map_cons, String.join_cons, hquote, others, String.append_assoc,
        String.empty_append]
    rw [htext, split_append rfl hfirst, split_append rfl hvalue.1, pairs, keyed,
      ih (by decide) hrest]

namespace Tag.IsPlain
variable {t : Tag}

private theorem readTag_inner (h : t.IsPlain) {close : String} (hc : '"' ∉ close.toList) :
    readTag ("<" ++ t.inner ++ close) = keyed ("<" ++ t.name) t.attributes := by
  have hs : '"' ∉ ("<" ++ t.name).toList := by simp [String.toList_append, h.name.1]
  rw [readTag, inner, ← String.append_assoc]
  exact pairs_split hs hc h.attributes

theorem readTag_lone (h : t.IsPlain) : readTag t.lone = keyed ("<" ++ t.name) t.attributes :=
  h.readTag_inner (by decide)

theorem readTag_opening (h : t.IsPlain) : readTag t.opening = keyed ("<" ++ t.name) t.attributes :=
  h.readTag_inner (by decide)

private theorem not_mem_inner (h : t.IsPlain) : '\n' ∉ t.inner.toList := by
  rw [inner, String.toList_append, List.mem_append, String.toList_join, List.mem_flatMap]
  rintro (hc | ⟨_, hmem, hc⟩)
  · exact h.name.2 hc
  · obtain ⟨⟨key, value⟩, ha, rfl⟩ := List.mem_map.mp hmem
    obtain ⟨hkey, hvalue⟩ := h.attributes _ ha
    simp [String.toList_append, hkey.2, hvalue.2] at hc

/-- The lines of a tag are lines. -/
theorem not_mem_lines (h : t.IsPlain) {children : List String}
    (hc : ∀ line ∈ children, '\n' ∉ line.toList) :
    ∀ line ∈ t.around children, '\n' ∉ line.toList := by
  have hinner := h.not_mem_inner
  have hname := h.name.2
  unfold around
  split
  · simp [lone, String.toList_append, hinner]
  · simpa [opening, closing, String.toList_append, hinner, hname, or_imp, forall_and] using hc

end Tag.IsPlain

theorem isPlain_path (places : Nat) (s : Stroke) : (path places s).IsPlain where
  name := (by decide : IsPlain "path")
  attributes := by
    simp only [path, List.forall_mem_cons]
    exact ⟨⟨by decide, isPlain_pathData _ _⟩, ⟨by decide, by decide⟩,
      ⟨by decide, isPlain_color _⟩, ⟨by decide, by decide⟩, ⟨by decide, by decide⟩,
      ⟨by decide, isPlain_number _ _⟩, nofun⟩

theorem isPlain_backgroundTag (places : Nat) (v : View) (c : Color) :
    (backgroundTag places v c).IsPlain where
  name := (by decide : IsPlain "rect")
  attributes := by
    simp only [backgroundTag, List.forall_mem_cons]
    exact ⟨⟨by decide, isPlain_color _⟩, ⟨by decide, isPlain_number _ _⟩,
      ⟨by decide, isPlain_number _ _⟩, ⟨by decide, isPlain_number _ _⟩,
      ⟨by decide, isPlain_number _ _⟩, nofun⟩

theorem isPlain_imageTag (places : Nat) (v : View) : (imageTag places v).IsPlain where
  name := (by decide : IsPlain "svg")
  attributes := by
    have hspace : IsPlain " " := by decide
    have hbox := (((((isPlain_number places v.x).append hspace).append
      (isPlain_number places v.y)).append hspace).append (isPlain_number places v.width)).append
        hspace |>.append (isPlain_number places v.height)
    simp only [imageTag, List.forall_mem_cons]
    exact ⟨⟨by decide, isPlain_number _ _⟩, ⟨by decide, hbox⟩, ⟨by decide, isPlain_number _ _⟩,
      ⟨by decide, by decide⟩, nofun⟩

theorem isPlain_group : (⟨"g", []⟩ : Tag).IsPlain := ⟨(by decide : IsPlain "g"), nofun⟩

end Tags

section Lines

private theorem readTag_path (places : Nat) (s : Stroke) :
    readTag (path places s).lone =
      [("<path d=", pathData places s.points), (" fill=", "none"), (" stroke=", color s.color),
        (" stroke-linecap=", "round"), (" stroke-linejoin=", "round"),
        (" stroke-width=", number places s.width.abs)] :=
  (isPlain_path places s).readTag_lone

private theorem readTag_backgroundTag (places : Nat) (v : View) (c : Color) :
    readTag (backgroundTag places v c).lone =
      [("<rect fill=", color c), (" height=", number places v.height),
        (" width=", number places v.width), (" x=", number places v.x),
        (" y=", number places v.y)] :=
  (isPlain_backgroundTag places v c).readTag_lone

private theorem exists_readTag_imageTag (places : Nat) (v : View) :
    ∃ height box width space, readTag (imageTag places v).opening =
      [("<svg height=", height), (" viewBox=", box), (" width=", width), (" xmlns=", space)] :=
  ⟨_, _, _, _, (isPlain_imageTag places v).readTag_opening⟩

theorem readStroke_path (places : Nat) (s : Stroke) :
    readStroke (path places s).lone = some (.of places s) := by
  simp [readStroke, readTag_path, List.lookup_cons, readColor_color, readPath_pathData,
    StrokeText.of]

theorem readBackground_path (places : Nat) (s : Stroke) :
    readBackground (path places s).lone = none := by
  simp [readBackground, readTag_path, List.lookup_cons]

theorem readStroke_backgroundTag (places : Nat) (v : View) (c : Color) :
    readStroke (backgroundTag places v c).lone = none := by
  simp [readStroke, readTag_backgroundTag, List.lookup_cons]

theorem readBackground_backgroundTag (places : Nat) (v : View) (c : Color) :
    readBackground (backgroundTag places v c).lone = some (bytes c) := by
  simp [readBackground, readTag_backgroundTag, readColor_color]

theorem readStroke_imageTag (places : Nat) (v : View) :
    readStroke (imageTag places v).opening = none := by
  obtain ⟨_, _, _, _, h⟩ := exists_readTag_imageTag places v
  simp [readStroke, h, List.lookup_cons]

theorem readBackground_imageTag (places : Nat) (v : View) :
    readBackground (imageTag places v).opening = none := by
  obtain ⟨_, _, _, _, h⟩ := exists_readTag_imageTag places v
  simp [readBackground, h, List.lookup_cons]

private theorem readTag_of_not_mem {line : String} (h : '"' ∉ line.toList) : readTag line = [] := by
  rw [readTag, split_of_not_mem h, pairs]
  exact nofun

private theorem readStroke_of_not_mem {line : String} (h : '"' ∉ line.toList) :
    readStroke line = none := by
  simp [readStroke, readTag_of_not_mem h]

private theorem readBackground_of_not_mem {line : String} (h : '"' ∉ line.toList) :
    readBackground line = none := by
  simp [readBackground, readTag_of_not_mem h]

/-- Of the lines of the drawing, those of strokes are read as strokes. -/
theorem filterMap_readStroke_group (places : Nat) (strokes : List Stroke) :
    ((⟨"g", []⟩ : Tag).around (strokes.map fun s => (path places s).lone)).filterMap readStroke =
      strokes.map (.of places) := by
  cases strokes with
  | nil => exact List.filterMap_cons_none (readStroke_of_not_mem (by decide))
  | cons s rest =>
    have hopening : readStroke (⟨"g", []⟩ : Tag).opening = none :=
      readStroke_of_not_mem (by decide)
    have hclosing : readStroke (⟨"g", []⟩ : Tag).closing = none :=
      readStroke_of_not_mem (by decide)
    simp [Tag.around, List.filterMap_append, List.filterMap_map, hopening, hclosing,
      readStroke_path]

theorem findSome?_readBackground_group (places : Nat) (strokes : List Stroke) :
    ((⟨"g", []⟩ : Tag).around (strokes.map fun s => (path places s).lone)).findSome?
      readBackground = none := by
  have hbare {line : String} (h : '"' ∉ line.toList) : readBackground line = none :=
    readBackground_of_not_mem h
  cases strokes with
  | nil => exact List.findSome?_eq_none_iff.mpr (List.forall_mem_singleton.mpr (hbare (by decide)))
  | cons s rest =>
    have hopening : readBackground (⟨"g", []⟩ : Tag).opening = none := hbare (by decide)
    have hclosing : readBackground (⟨"g", []⟩ : Tag).closing = none := hbare (by decide)
    simp [Tag.around, hopening, hclosing, readBackground_path]

/-- No line of an image has a break in it. -/
theorem not_mem_lines (l : Layout) (p : Picture) : ∀ line ∈ lines l p, '\n' ∉ line.toList := by
  have hlone {t : Tag} (ht : t.IsPlain) : '\n' ∉ t.lone.toList :=
    @Tag.IsPlain.not_mem_lines t ht [] nofun _ List.mem_cons_self
  have hstrokes : ∀ line ∈ p.strokes.map fun s => (path l.places s).lone, '\n' ∉ line.toList := by
    rw [List.forall_mem_map]
    exact fun s _ => hlone (isPlain_path l.places s)
  refine (isPlain_imageTag l.places _).not_mem_lines fun line hline => ?_
  obtain hline | hline := List.mem_append.mp hline
  · obtain ⟨c, -, rfl⟩ := Option.map_eq_some_iff.mp (Option.mem_toList.mp hline)
    exact hlone (isPlain_backgroundTag l.places _ c)
  · exact isPlain_group.not_mem_lines hstrokes line hline

private theorem lines_eq (l : Layout) (p : Picture) :
    let v := view p.box l.margin
    lines l p = (imageTag l.places v).opening ::
      ((l.background.map fun c => (backgroundTag l.places v c).lone).toList ++
        (⟨"g", []⟩ : Tag).around (p.strokes.map fun s => (path l.places s).lone) ++ ["</svg>"]) := by
  intro v
  have hgroup : ((⟨"g", []⟩ : Tag).around (p.strokes.map fun s => (path l.places s).lone)) ≠ [] := by
    unfold Tag.around
    split <;> exact List.cons_ne_nil _ _
  have hchildren : ((l.background.map fun c => (backgroundTag l.places v c).lone).toList ++
      (⟨"g", []⟩ : Tag).around (p.strokes.map fun s => (path l.places s).lone)).isEmpty = false := by
    rw [List.isEmpty_eq_false_iff]
    exact List.append_ne_nil_of_right_ne_nil _ hgroup
  rw [lines, Tag.around, hchildren, if_neg Bool.false_ne_true]
  rfl

private theorem split_render (l : Layout) (p : Picture) : split '\n' (render l p) = lines l p :=
  split_intercalate rfl (not_mem_lines l p) (lines_eq l p ▸ List.cons_ne_nil _ _)

private theorem findSome?_readBackground_lines (l : Layout) (p : Picture) :
    (lines l p).findSome? readBackground = l.background.map bytes := by
  have hclosing : readBackground "</svg>" = none := readBackground_of_not_mem (by decide)
  rw [lines_eq, List.findSome?_cons, readBackground_imageTag, List.findSome?_append,
    List.findSome?_append, findSome?_readBackground_group]
  cases l.background with
  | none => simp [hclosing]
  | some c => simp [readBackground_backgroundTag]

private theorem filterMap_readStroke_lines (l : Layout) (p : Picture) :
    (lines l p).filterMap readStroke = p.strokes.map (.of l.places) := by
  have hclosing : readStroke "</svg>" = none := readStroke_of_not_mem (by decide)
  rw [lines_eq, List.filterMap_cons_none (readStroke_imageTag _ _), List.filterMap_append,
    List.filterMap_append, filterMap_readStroke_group, List.filterMap_cons_none hclosing]
  cases l.background with
  | none => simp
  | some c => simp [readStroke_backgroundTag]

/-- The text of an image loses nothing but the places of numbers and the finer parts of colors. It
is read back as what it was made of, whatever the picture and the layout are. In particular, pictures
of one layout with one text agree stroke by stroke. -/
theorem read_render (l : Layout) (p : Picture) :
    read (render l p) = .of l p ∧
      ∀ q : Picture, render l p = render l q →
        List.Forall₂ (fun s t => StrokeText.of l.places s = .of l.places t) p.strokes q.strokes := by
  have hread (p : Picture) : read (render l p) = .of l p := by
    rw [read, split_render, findSome?_readBackground_lines, filterMap_readStroke_lines, ImageText.of]
  refine ⟨hread p, fun q h => ?_⟩
  have himage : ImageText.of l p = .of l q := by rw [← hread p, h, hread q]
  have hstrokes := (ImageText.mk.injEq _ _ _ _ ▸ himage).2
  rw [← List.forall₂_eq_eq_eq, List.forall₂_map_left_iff, List.forall₂_map_right_iff] at hstrokes
  exact hstrokes

/-- Two pictures with one text: a width and its opposite, and points and reds that differ beyond what
is written. One stroke has no points, another has a point without numbers. -/
theorem read_render_blurred :
    let rest : List Stroke := [⟨[], 1, .white⟩, ⟨[⟨notANumber, infinity⟩], 0, .black⟩]
    let p : Picture := ⟨⟨[⟨0, 0⟩, ⟨1, 0.5⟩], -2, ⟨0.5, 0, 0⟩⟩ :: rest⟩
    let q : Picture := ⟨⟨[⟨0, 0⟩, ⟨1.0001, 0.5⟩], 2, ⟨0.501, 0, 0⟩⟩ :: rest⟩
    render .standard p = render .standard q ∧ read (render .standard p) = .of .standard p ∧
      List.Forall₂ (fun s t => StrokeText.of 3 s = .of 3 t) p.strokes q.strokes := by
  intro rest p q
  have htext : render .standard p = render .standard q := by decide +kernel
  exact ⟨htext, (read_render .standard p).1, (read_render .standard p).2 q htext⟩

end Lines

end Svg

end Lindenmayer
