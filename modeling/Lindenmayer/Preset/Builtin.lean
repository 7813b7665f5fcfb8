import Lindenmayer.Preset.Config

/-! The presets that are always there. -/
namespace Lindenmayer.Preset

private def rule (key replacement : String) : Word × Production :=
  (Word.ofString key, .fixed (Word.ofString replacement))

private def numbered (angle scaleFactor : Float) : Params :=
  { Params.ofAngle angle with scaleFactor := scaleFactor }

private def figure (name start : String) (rules : Keyed Production) (params : Params)
    (draw : DrawConfig) (style : Style) : Word × Preset :=
  (Word.ofString name, ⟨⟨Word.ofString start, rules, params, []⟩, draw, style⟩)

private def onBlack (pen : Rgb) (penWidth : Float) : Style := ⟨pen, penWidth, some .black⟩

private def leaf : Rgb := ⟨41, 52, 22⟩
private def white : Rgb := ⟨255, 255, 255⟩

def bush : Word × Preset :=
  figure "bush" "F"
    [(['F'], .weighted
      [⟨Word.ofString "F[+F]F[-F]F", 1⟩, ⟨Word.ofString "F[+F]F", 1⟩, ⟨Word.ofString "F[-F]F", 1⟩])]
    (.ofAngle 25.7)
    { DrawConfig.standard with
      passes := .exactly 5
      stepLength := 6
      heading := 90
      position := ⟨0, -350⟩
      decorations := [.taper ⟨9⟩,
        .table [(['0'], ⟨101, 67, 33⟩), (['1'], ⟨85, 107, 47⟩), (['2'], ⟨60, 130, 50⟩),
          (['3'], ⟨50, 160, 60⟩)]] }
    (onBlack leaf 1)

def gosper : Word × Preset :=
  figure "gosper" "XF"
    [rule "X" "X+YF++YF-FX--FXFX-YF+", rule "Y" "-FX+YFYF++YF+FX--FX-Y"]
    (.ofAngle 60)
    { DrawConfig.standard with
      passes := .exactly 5
      stepLength := 4
      position := ⟨150, -250⟩
      decorations := [.wheel ⟨.origin, 300, 0⟩] }
    (onBlack white 1)

def hilbert : Word × Preset :=
  figure "hilbert" "A" [rule "A" "-BF+AFA+FB-", rule "B" "+AF-BFB-FA+"]
    (.ofAngle 90)
    { DrawConfig.standard with
      passes := .exactly 7
      stepLength := 4
      position := ⟨-250, 250⟩
      decorations := [.wheel ⟨.origin, 200, 0⟩] }
    (onBlack white 1)

def pine : Word × Preset :=
  figure "pine" "SLFFF"
    [rule "G" "<+H[-G]L", rule "H" "<-G[+H]L", rule "L" "[-FFF][+FFF]F",
      rule "S" "[+++G][---G]<TS", rule "T" "TL"]
    (numbered 18 1.2)
    { DrawConfig.standard with
      passes := .exactly 9
      stepLength := 20
      heading := 90
      position := ⟨0, -350⟩ }
    (onBlack leaf 5)

def plant : Word × Preset :=
  figure "plant" "X" [rule "F" ">F<F", rule "X" "F+[[X]-X]-F[-FX]+X"]
    (numbered 25 1.2)
    { DrawConfig.standard with
      passes := .exactly 8
      stepLength := 1.2
      heading := 65
      position := ⟨-300, -350⟩ }
    (onBlack leaf 1)

def sierpinski : Word × Preset :=
  let (name, p) := figure "sierpinski" "F-G-G" [rule "F" "F-G+F+G-F", rule "G" "GG"]
    (.ofAngle 120)
    { DrawConfig.standard with
      passes := .exactly 8
      stepLength := 3
      heading := 60
      position := ⟨-400, -300⟩ }
    (onBlack ⟨0, 0, 127⟩ 1)
  (name, { p with system := { p.system with actions := [(['G'], ⟨"forward", []⟩)] } })

def square : Word × Preset :=
  figure "square" "F+F+F+F" [] (.ofAngle 90)
    { DrawConfig.standard with stepLength := 100, position := ⟨-50, -50⟩ }
    (onBlack white 2)

def builtin : Keyed Preset := [bush, gosper, hilbert, pine, plant, sierpinski, square]

end Lindenmayer.Preset
