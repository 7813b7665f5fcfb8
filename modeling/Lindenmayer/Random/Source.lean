/-! Sources of random words. -/
namespace Lindenmayer

/-- A state from which 64-bit words are drawn one after another. -/
class WordSource (ρ : Type) where
  /-- The next word, and the state after it. -/
  next : ρ → UInt64 × ρ

/-- A source that repeats a list of words, without end. No words at all make it a source of
zeros. -/
structure Cycle where
  words : List UInt64
  left : List UInt64

def Cycle.ofList (words : List UInt64) : Cycle := ⟨words, words⟩

def Cycle.next (c : Cycle) : UInt64 × Cycle :=
  match c.left, c.words with
  | w :: ws, _ => (w, ⟨c.words, ws⟩)
  | [], w :: ws => (w, ⟨c.words, ws⟩)
  | [], [] => (0, c)

instance : WordSource Cycle := ⟨Cycle.next⟩

end Lindenmayer
