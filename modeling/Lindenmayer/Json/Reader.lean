import Lindenmayer.Json.Node

/-! Reading texts into trees, with the place of every failure. -/
namespace Lindenmayer.Json

/-- What is left of a text, and where. -/
structure Reading where
  rest : List Char
  place : Place

namespace Reading

/-- The reading after one character, if there is one. -/
def drop (r : Reading) : Reading :=
  match r.rest with
  | [] => r
  | c :: cs => ⟨cs, r.place.after c⟩

/-- The place of a failure over the byte that comes next. At the end of the text no byte is
counted. -/
def look (r : Reading) : Place :=
  match r.rest with
  | [] => r.place
  | c :: _ => if c == '\n' then r.place.after c else r.place.next

/-- The failure over what comes next. -/
def failing (r : Reading) (p : Problem) : Failure := ⟨p, some r.look⟩

def isBlank (c : Char) : Bool := c == ' ' || c == '\n' || c == '\t' || c == '\r'

/-- Blanks skipped from a place. -/
def skipFrom : List Char → Place → Reading
  | [], p => ⟨[], p⟩
  | c :: cs, p => if isBlank c then skipFrom cs (p.after c) else ⟨c :: cs, p⟩

def skip (r : Reading) : Reading := skipFrom r.rest r.place

/-- The place some bytes further on, which may be inside a character. -/
def placeAfterBytes : List Char → Nat → Place → Place
  | [], _, p => p
  | _, 0, p => p
  | c :: cs, n, p =>
    if c.utf8Size ≤ n then placeAfterBytes cs (n - c.utf8Size) (p.after c)
    else ⟨p.line, p.column + n⟩

def finish (r : Reading) : Place := r.rest.foldl Place.after r.place

end Reading

open Reading

def keyword : List Char → Reading → Except Failure Reading
  | [], r => .ok r
  | k :: ks, r =>
    match r.rest with
    | [] => .error (r.failing .endInValue)
    | c :: _ => if c == k then keyword ks r.drop else .error (r.failing .identifierExpected)

/-! Numbers. The significand has 64 bits: digits that do not fit are left out, and those of the
integer part then count in the exponent. -/

/-- A significand extended by the digits that fit, and how many are left out. -/
def gather : Nat → List Char → Nat × Nat
  | s, [] => (s, 0)
  | s, d :: ds =>
    let t := s * 10 + (d.toNat - '0'.toNat)
    if t < Nat.pow 2 64 then gather t ds else (s, ds.length + 1)

def leadingDigits (r : Reading) : List Char × Reading :=
  let ds := r.rest.takeWhile Char.isDigit
  (ds, ⟨r.rest.drop ds.length, ⟨r.place.line, r.place.column + ds.length⟩⟩)

/-- The double `significand · 10 ^ exponent`, by one multiplication or by divisions. Nothing if it
is out of range. -/
def scaled : Nat → Float → Int → Option Float
  | 0, x, _ => some x
  | n + 1, x, e =>
    if e.natAbs ≤ 308 then
      let power := Float.ofScientific 1 false e.natAbs
      if 0 ≤ e then
        let y := x * power
        if y.isInf then none else some y
      else some (x / power)
    else if x == 0 then some x
    else if 0 ≤ e then none
    else scaled n (x / 1e308) (e + 308)

def realNumber (negative : Bool) (significand : Nat) (exponent : Int) (after : Reading) :
    Except Failure (Number × Reading) :=
  match scaled (exponent.natAbs + 1) (Float.ofNat significand) exponent with
  | none => .error ⟨.numberOutOfRange, some after.place⟩
  | some x => .ok (.real (if negative then -x else x), after)

/-- The digits of an exponent up to the one with which it leaves 31 bits, if it does. -/
def exponentValue : Nat → List Char → Nat → Except Nat Nat
  | e, [], _ => .ok e
  | e, d :: ds, n =>
    let t := e * 10 + (d.toNat - '0'.toNat)
    if t < Nat.pow 2 31 then exponentValue t ds (n + 1) else .error (n + 1)

/-- The number once its exponent mark comes next. -/
def withExponent (negative : Bool) (significand : Nat) (exponent : Int) (r : Reading) :
    Except Failure (Number × Reading) :=
  let marked := r.drop
  let (down, signed) := match marked.rest with
    | '-' :: _ => (true, marked.drop)
    | '+' :: _ => (false, marked.drop)
    | _ => (false, marked)
  let (ds, after) := leadingDigits signed
  if ds.isEmpty then
    .error (signed.failing (if signed.rest.isEmpty then .endInValue else .invalidNumber))
  else
    match exponentValue 0 ds 0 with
    | .ok e =>
      let shifted := if down then exponent - e else exponent + e
      realNumber negative significand shifted after
    | .error n =>
      if significand ≠ 0 ∧ !down then
        .error ⟨.numberOutOfRange, some ⟨signed.place.line, signed.place.column + n⟩⟩
      else .ok (.real (if negative then -0.0 else 0.0), after)

/-- The number once its point comes next. -/
def withFraction (negative : Bool) (significand : Nat) (exponent : Int) (r : Reading) :
    Except Failure (Number × Reading) :=
  let pointed := r.drop
  let (ds, after) := leadingDigits pointed
  if ds.isEmpty then
    .error (pointed.failing (if pointed.rest.isEmpty then .endInValue else .invalidNumber))
  else
    let (s, left) := gather significand ds
    let e := exponent - (ds.length - left : Nat)
    match after.rest with
    | 'e' :: _ | 'E' :: _ => withExponent negative s e after
    | _ => realNumber negative s e after

/-- The number without its sign. An integer that fits 64 bits stays one, except for the negative
zero. -/
def unsignedNumber (negative : Bool) (r : Reading) : Except Failure (Number × Reading) :=
  let (ds, after) := leadingDigits r
  match ds with
  | [] => .error (r.failing (if r.rest.isEmpty then .endInValue else .invalidNumber))
  | '0' :: _ :: _ => .error (r.drop.failing .invalidNumber)
  | _ =>
    let (s, left) := gather 0 ds
    match after.rest with
    | '.' :: _ => withFraction negative s left after
    | 'e' :: _ | 'E' :: _ => withExponent negative s left after
    | _ =>
      if left ≠ 0 then realNumber negative s left after
      else if !negative then .ok (.integer s, after)
      else if s = 0 ∨ Nat.pow 2 63 < s then .ok (.real (-(Float.ofNat s)), after)
      else .ok (.integer (-s), after)

def number (r : Reading) : Except Failure (Number × Reading) :=
  match r.rest with
  | '-' :: _ => unsignedNumber true r.drop
  | _ => unsignedNumber false r

/-! Texts. -/

def hexDigit? (c : Char) : Option Nat :=
  if c.isDigit then some (c.toNat - '0'.toNat)
  else if 'a' ≤ c ∧ c ≤ 'f' then some (c.toNat - 'a'.toNat + 10)
  else if 'A' ≤ c ∧ c ≤ 'F' then some (c.toNat - 'A'.toNat + 10)
  else none

/-- Four hexadecimal digits. They take four bytes, whatever stands there. -/
def fourHex (r : Reading) : Except Failure (Nat × Reading) :=
  let bad : Failure :=
    if (r.rest.take 4).foldl (fun n c => n + c.utf8Size) 0 < 4 then ⟨.endInText, some r.finish⟩
    else ⟨.invalidEscape, some (placeAfterBytes r.rest 4 r.place)⟩
  match r.rest with
  | a :: b :: c :: d :: cs =>
    match hexDigit? a, hexDigit? b, hexDigit? c, hexDigit? d with
    | some a, some b, some c, some d =>
      .ok (((a * 16 + b) * 16 + c) * 16 + d, ⟨cs, ⟨r.place.line, r.place.column + 4⟩⟩)
    | _, _, _, _ => .error bad
  | _ => .error bad

/-- A character that has to come next for the second half of a pair. -/
def pairMark (mark : Char) (r : Reading) : Except Failure Reading :=
  match r.rest with
  | [] => .error (r.failing .endInText)
  | c :: _ => if c == mark then .ok r.drop else .error (r.failing .unpairedEscape)

/-- The character of an escape by number. One outside the basic plane takes two escapes. -/
def numberedEscape (r : Reading) : Except Failure (Char × Reading) := do
  let (n, r) ← fourHex r
  if 0xDC00 ≤ n ∧ n ≤ 0xDFFF then .error ⟨.loneSurrogate, some r.place⟩
  else if n < 0xD800 ∨ 0xDBFF < n then .ok (Char.ofNat n, r)
  else
    let r ← pairMark '\\' r
    let r ← pairMark 'u' r
    let (m, r) ← fourHex r
    if m < 0xDC00 ∨ 0xDFFF < m then .error ⟨.loneSurrogate, some r.place⟩
    else .ok (Char.ofNat ((n - 0xD800) * 0x400 + (m - 0xDC00) + 0x10000), r)

/-- The character of an escape, after its backslash. -/
def escape (r : Reading) : Except Failure (Char × Reading) :=
  match r.rest with
  | [] => .error (r.failing .endInText)
  | '"' :: _ => .ok ('"', r.drop)
  | '\\' :: _ => .ok ('\\', r.drop)
  | '/' :: _ => .ok ('/', r.drop)
  | 'b' :: _ => .ok ('\x08', r.drop)
  | 'f' :: _ => .ok ('\x0c', r.drop)
  | 'n' :: _ => .ok ('\n', r.drop)
  | 'r' :: _ => .ok ('\r', r.drop)
  | 't' :: _ => .ok ('\t', r.drop)
  | 'u' :: _ => numberedEscape r.drop
  | _ => .error (r.failing .invalidEscape)

/-- The characters up to the closing quote. Fuel is spent on every character. -/
def characters : Nat → List Char → Reading → Except Failure (String × Reading)
  | 0, _, r => .error (r.failing .endInText)
  | n + 1, done, r =>
    match r.rest with
    | [] => .error (r.failing .endInText)
    | '"' :: _ => .ok (String.ofList done.reverse, r.drop)
    | '\\' :: _ => do
      let (c, r) ← escape r.drop
      characters n (c :: done) r
    | c :: _ =>
      if c.toNat < 0x20 then .error ⟨.controlCharacter, some (r.place.after c)⟩
      else characters n (c :: done) r.drop

def text (fuel : Nat) (r : Reading) : Except Failure (String × Reading) :=
  characters fuel [] r.drop

/-! Trees. Each reader also gives the reading after its part, unless reading has stopped. -/

/-- How many containers may be open at once, plus one. -/
def depthLimit : Nat := 128

def scalar {α : Type} (make : α → Place → Node) (read : Except Failure (α × Reading)) :
    Node × Option Reading :=
  match read with
  | .error f => (.broken f, none)
  | .ok (a, r) => (make a r.place, some r)

mutual

/-- The value that comes next. Fuel is spent on every value, item and member. -/
def value : Nat → Nat → Reading → Node × Option Reading
  | 0, _, r => (.broken (r.failing .endInValue), none)
  | n + 1, depth, before =>
    let r := before.skip
    match r.rest with
    | [] => (.broken (r.failing .endInValue), none)
    | '[' :: _ =>
      if depth ≤ 1 then (.broken (r.failing .tooDeep), none)
      else
        let (is, after) := items n (depth - 1) true r.drop
        (.list r.place is, after)
    | '\x7b' :: _ =>
      if depth ≤ 1 then (.broken (r.failing .tooDeep), none)
      else
        let (ms, after) := members n (depth - 1) true r.drop
        (.object r.place ms, after)
    | '"' :: _ => scalar .text (text n r)
    | 'n' :: _ => scalar (fun _ => .null) ((keyword "ull".toList r.drop).map ((), ·))
    | 't' :: _ => scalar .boolean ((keyword "rue".toList r.drop).map (true, ·))
    | 'f' :: _ => scalar .boolean ((keyword "alse".toList r.drop).map (false, ·))
    | c :: _ =>
      if c == '-' || c.isDigit then scalar .number (number r)
      else (.broken (r.failing .valueExpected), none)

def items : Nat → Nat → Bool → Reading → Items × Option Reading
  | 0, _, _, r => (.stuck r.place (r.failing .endInList) (r.failing .endInList), none)
  | n + 1, depth, first, before =>
    let r := before.skip
    let unread : Items := .stuck r.place (r.failing .endInList) (r.failing .endInList)
    let one (r : Reading) : Items × Option Reading :=
      match value n depth r with
      | (v, none) => (.item r.place v unread, none)
      | (v, some after) =>
        let (rest, last) := items n depth false after
        (.item r.place v rest, last)
    match r.rest with
    | [] => (.stuck r.place (r.failing .endInList) (r.failing .endInList), none)
    | ']' :: _ => (.closed r.drop.place, some r.drop)
    | c :: _ =>
      if first then one r
      else if c == ',' then
        let s := r.drop.skip
        match s.rest with
        | [] => (.stuck s.place (s.failing .endInValue) (s.failing .trailingCharacters), none)
        | ']' :: _ => (.stuck s.place (s.failing .trailingComma) (s.failing .trailingComma), none)
        | _ => one s
      else
        (.stuck r.place (r.failing .listEndExpected) (r.failing .trailingCharacters), none)

def members : Nat → Nat → Bool → Reading → Members × Option Reading
  | 0, _, _, r => (.stuck r.place (r.failing .endInObject), none)
  | n + 1, depth, first, before =>
    let start := before.skip
    let unread : Members := .stuck start.place (start.failing .endInObject)
    let one (r : Reading) : Members × Option Reading :=
      match text n r with
      | .error f => (.stuck start.place f, none)
      | .ok (key, r) =>
        let r := r.skip
        let refused := match r.rest with
          | '\x7d' :: _ => r.drop.place
          | _ => r.place
        match r.rest with
        | [] =>
          (.member start.place key refused (.broken (r.failing .endInObject)) unread, none)
        | ':' :: _ =>
          match value n depth r.drop with
          | (v, none) => (.member start.place key refused v unread, none)
          | (v, some after) =>
            let (rest, last) := members n depth false after
            (.member start.place key refused v rest, last)
        | _ =>
          (.member start.place key refused (.broken (r.failing .colonExpected)) unread, none)
    let stop (r : Reading) (p : Problem) : Members × Option Reading :=
      (.stuck start.place (r.failing p), none)
    match start.rest with
    | [] => stop start .endInObject
    | '\x7d' :: _ => (.closed start.drop.place, some start.drop)
    | c :: _ =>
      if first then if c == '"' then one start else stop start .keyNotText
      else if c == ',' then
        let s := start.drop.skip
        match s.rest with
        | [] => stop s .endInValue
        | '"' :: _ => one s
        | '\x7d' :: _ => stop s .trailingComma
        | _ => stop s .keyNotText
      else stop start .objectEndExpected

end

/-- A text as a document. After the value only blanks may follow. -/
def read (s : String) : Document :=
  let cs := s.toList
  match value (2 * cs.length + 2) depthLimit ⟨cs, .start⟩ with
  | (root, none) => ⟨root, .ok ()⟩
  | (root, some after) =>
    let r := after.skip
    ⟨root, if r.rest.isEmpty then .ok () else .error (r.failing .trailingCharacters)⟩

end Lindenmayer.Json
