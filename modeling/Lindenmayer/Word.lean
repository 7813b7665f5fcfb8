/-! Words over symbols, and tables keyed by words. -/
namespace Lindenmayer

/-- A finite sequence of symbols. -/
abbrev Word := List Char

def Word.ofString (s : String) : Word := s.toList

def Word.text (w : Word) : String := .ofList w

/-- Entries by word, in ascending order of their keys. -/
abbrev Keyed (α : Type) := List (Word × α)

namespace Keyed
variable {α : Type}

/-- The table with an entry put before the first key that is not smaller. -/
def insert (key : Word) (value : α) : Keyed α → Keyed α
  | [] => [(key, value)]
  | e :: es => if e.1 < key then e :: insert key value es else (key, value) :: e :: es

def contains (t : Keyed α) (key : Word) : Bool := t.any (·.1 == key)

def find? (t : Keyed α) (key : Word) : Option α := t.lookup key

end Keyed
end Lindenmayer
