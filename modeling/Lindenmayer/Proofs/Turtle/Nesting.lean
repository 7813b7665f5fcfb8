import Lindenmayer.Turtle.Action

/-! Nesting of words: how many states are saved after the symbols of a word, and the words that take
back exactly what they save. -/
namespace Lindenmayer

namespace Action

def isPush : Action → Bool
  | .push => true
  | _ => false

def isPop : Action → Bool
  | .pop => true
  | _ => false

/-- The number of saved states after an action, from the one before it. There is none after taking
back what was not saved. -/
def depth? (a : Action) (d : Nat) : Option Nat :=
  match a, d with
  | .push, d => some (d + 1)
  | .pop, 0 => none
  | .pop, d + 1 => some d
  | _, d => some d

theorem depth?_eq_some_iff {a : Action} {d e : Nat} :
    a.depth? d = some e ↔ e + a.isPop.toNat = d + a.isPush.toNat := by
  cases a with
  | push => simp [depth?, isPush, isPop, eq_comm]
  | pop => cases d <;> simp [depth?, isPush, isPop, eq_comm]
  | _ => simp [depth?, isPush, isPop, eq_comm]

end Action

namespace Bindings
variable {b : Bindings} {c : Char} {d e : Nat} {u v w : Word}

/-- The number of symbols that save a state. -/
def pushes (b : Bindings) (w : Word) : Nat := w.countP fun c => (b.action c).isPush

/-- The number of symbols that take a state back. -/
def pops (b : Bindings) (w : Word) : Nat := w.countP fun c => (b.action c).isPop

@[simp] theorem pushes_nil : b.pushes [] = 0 := rfl

@[simp] theorem pops_nil : b.pops [] = 0 := rfl

theorem pushes_cons : b.pushes (c :: w) = b.pushes w + (b.action c).isPush.toNat := by
  cases h : (b.action c).isPush <;> simp [pushes, h]

theorem pops_cons : b.pops (c :: w) = b.pops w + (b.action c).isPop.toNat := by
  cases h : (b.action c).isPop <;> simp [pops, h]

@[simp] theorem pushes_append : b.pushes (u ++ v) = b.pushes u + b.pushes v :=
  List.countP_append

@[simp] theorem pops_append : b.pops (u ++ v) = b.pops u + b.pops v :=
  List.countP_append

/-- The number of saved states after a word, from the one before it. There is none when a symbol
takes back what was not saved. -/
def depth? (b : Bindings) (d : Nat) (w : Word) : Option Nat :=
  w.foldlM (fun d c => (b.action c).depth? d) d

@[simp] theorem depth?_nil : b.depth? d [] = some d := rfl

@[simp] theorem depth?_cons :
    b.depth? d (c :: w) = ((b.action c).depth? d).bind (b.depth? · w) := rfl

@[simp] theorem depth?_append : b.depth? d (u ++ v) = (b.depth? d u).bind (b.depth? · v) :=
  List.foldlM_append

/-- A depth is reached exactly when no beginning of the word takes back more than was saved, and it
is then the balance of the whole word. -/
theorem depth?_eq_some_iff :
    b.depth? d w = some e ↔
      (∀ p, p <+: w → b.pops p ≤ d + b.pushes p) ∧ e + b.pops w = d + b.pushes w := by
  induction w generalizing d with
  | nil => simp [eq_comm]
  | cons c w ih =>
    rw [depth?_cons, Option.bind_eq_some_iff]
    constructor
    · rintro ⟨m, hm, hw⟩
      obtain ⟨hp, he⟩ := ih.mp hw
      rw [Action.depth?_eq_some_iff] at hm
      refine ⟨fun p h => ?_, by rw [pops_cons, pushes_cons]; omega⟩
      rcases List.prefix_cons_iff.mp h with rfl | ⟨q, rfl, hq⟩
      · simp
      · have := hp q hq
        rw [pops_cons, pushes_cons]
        omega
    · rintro ⟨hp, he⟩
      have hc := hp [c] (by simp)
      rw [pops_cons, pushes_cons, pops_nil, pushes_nil] at hc
      refine ⟨d + (b.action c).isPush.toNat - (b.action c).isPop.toNat,
        Action.depth?_eq_some_iff.mpr (by omega), ih.mpr ⟨fun q hq => ?_, ?_⟩⟩
      · have := hp (c :: q) ((List.prefix_cons_inj c).mpr hq)
        rw [pops_cons, pushes_cons] at this
        omega
      · rw [pops_cons, pushes_cons] at he
        omega

theorem exists_depth?_iff :
    (∃ e, b.depth? d w = some e) ↔ ∀ p, p <+: w → b.pops p ≤ d + b.pushes p := by
  constructor
  · rintro ⟨e, he⟩
    exact (depth?_eq_some_iff.mp he).1
  · intro hp
    have := hp w List.prefix_rfl
    exact ⟨d + b.pushes w - b.pops w, depth?_eq_some_iff.mpr ⟨hp, by omega⟩⟩

/-- A word is balanced when no beginning of it takes back more states than it saves, and the whole
of it takes back as many. -/
structure Balanced (b : Bindings) (w : Word) : Prop where
  covered : ∀ p, p <+: w → b.pops p ≤ b.pushes p
  settled : b.pops w = b.pushes w

/-- A balanced word leads from each depth to the same one. -/
theorem Balanced.depth? (h : b.Balanced w) (d : Nat) : b.depth? d w = some d :=
  depth?_eq_some_iff.mpr
    ⟨fun p hp => Nat.le_trans (h.covered p hp) (Nat.le_add_left _ _), by rw [h.settled]⟩

theorem balanced_iff_depth? : b.Balanced w ↔ b.depth? 0 w = some 0 := by
  refine ⟨fun h => h.depth? 0, fun h => ?_⟩
  obtain ⟨hp, he⟩ := depth?_eq_some_iff.mp h
  exact ⟨fun p h => by simpa using hp p h, by simpa using he⟩

end Bindings
end Lindenmayer
