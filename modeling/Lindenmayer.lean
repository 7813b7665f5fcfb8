import Lindenmayer.Main
import Lindenmayer.Proofs.CommandLine.Outcomes
import Lindenmayer.Proofs.Grammar.Ambiguity
import Lindenmayer.Proofs.Grammar.Morphism
import Lindenmayer.Proofs.Grammar.Scanning
import Lindenmayer.Proofs.Grammar.Stability
import Lindenmayer.Proofs.Picture.Hue
import Lindenmayer.Proofs.Preset.Depths
import Lindenmayer.Proofs.Preset.Fields
import Lindenmayer.Proofs.Svg.Numerals
import Lindenmayer.Proofs.Svg.Reading
import Lindenmayer.Proofs.Svg.View
import Lindenmayer.Proofs.System.Alphabet
import Lindenmayer.Proofs.System.Balance
import Lindenmayer.Proofs.System.Building
import Lindenmayer.Proofs.System.Divisors
import Lindenmayer.Proofs.System.Drawing
import Lindenmayer.Proofs.System.Unobserved
import Lindenmayer.Proofs.Turtle.Brackets
import Lindenmayer.Proofs.Turtle.Congruence
import Lindenmayer.Proofs.Turtle.Discipline
import Lindenmayer.Proofs.Turtle.Lattice
import Lindenmayer.Proofs.Turtle.Taper
import Lindenmayer.Proofs.Turtle.Watching
