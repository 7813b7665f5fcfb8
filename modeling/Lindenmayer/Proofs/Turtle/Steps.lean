import Lindenmayer.Proofs.Turtle.Pen
import Lindenmayer.Turtle.Run

/-! Runs symbol by symbol: when an action fails, what hooks may do, and the steps that a run takes
until it stops. -/
namespace Lindenmayer
variable {σ : Type} [Surface σ]

/-- A hook that gives cosmetic commands only, whatever it sees. -/
def Hook.IsCosmetic (hook : Hook σ) : Prop :=
  ∀ m s, ∃ commands : List Command,
    (∀ c ∈ commands, c.isCosmetic) ∧ hook m s = Surface.performAll s commands

/-- A hook that gives cosmetic commands only to a part of the surface, whatever it sees. With the
rest of the surface, such as notes of its own, it does what it likes. -/
def Hook.IsCosmeticThrough {τ : Type} [Surface τ] (part : σ → τ) (hook : Hook σ) : Prop :=
  ∀ m s, ∃ commands : List Command,
    (∀ c ∈ commands, c.isCosmetic) ∧ part (hook m s) = Surface.performAll (part s) commands

def Action.isDraw : Action → Bool
  | .draw _ => true
  | _ => false

namespace Turtle

theorem act_eq_ok_iff {p : Params} {a : Action} {t next : Turtle σ} :
    t.act p a = .ok next ↔
      ∃ e, t.cursor.step p t.stack a = .ok e ∧
        next = ⟨e.cursor, e.stack, Surface.performAll t.surface e.commands⟩ := by
  unfold act
  cases t.cursor.step p t.stack a <;> simp [eq_comm]

/-- The one failure is restoring when nothing is saved. -/
theorem act_eq_error_iff {p : Params} {a : Action} {t : Turtle σ} {f : Fault} :
    t.act p a = .error f ↔ a = .pop ∧ t.stack = [] ∧ f = .of .nothingSaved := by
  cases a with
  | pop => cases hs : t.stack <;> simp [act, Cursor.step, Stack.pop, hs, eq_comm]
  | _ => simp [act, Cursor.step]

/-- An action without effect leaves the turtle as it is. -/
theorem act_of_isNoop {a : Action} (h : a.isNoop = true) (p : Params) (t : Turtle σ) :
    t.act p a = .ok t := by
  cases a with
  | noop => rfl
  | _ => cases h

omit [Surface σ] in
private theorem foldl_cosmetic {τ : Type} [Surface τ] {part : σ → τ} {hooks : List (Hook σ)}
    (h : ∀ k ∈ hooks, k.IsCosmeticThrough part) (m : Moment) (s : σ) :
    ∃ commands : List Command, (∀ c ∈ commands, c.isCosmetic) ∧
      part (hooks.foldl (fun s hook => hook m s) s) = Surface.performAll (part s) commands := by
  induction hooks generalizing s with
  | nil => exact ⟨[], by simp, rfl⟩
  | cons k ks ih =>
    obtain ⟨hk, hks⟩ := List.forall_mem_cons.mp h
    obtain ⟨first, hf, he⟩ := hk m s
    obtain ⟨rest, hr, hn⟩ := ih hks (k m s)
    refine ⟨first ++ rest, ?_, ?_⟩
    · simp only [List.mem_append]
      exact fun c hc => hc.elim (hf c) (hr c)
    · rw [List.foldl_cons, hn, he, Surface.performAll_append]

/-- A round of hooks on the surface of a turtle. -/
theorem surface_observe (hooks : List (Hook σ)) (n : Nat) (c : Char) (t : Turtle σ) :
    (t.observe hooks n c).surface =
      hooks.foldl (fun s hook => hook (t.moment n c) s) t.surface := by
  unfold observe
  split
  · rename_i h
    rw [List.isEmpty_iff.mp h]
    rfl
  · rfl

/-- Hooks that are cosmetic to a part of the surface give it some cosmetic commands. -/
theorem surface_observe_through {τ : Type} [Surface τ] {part : σ → τ} {hooks : List (Hook σ)}
    (h : ∀ k ∈ hooks, k.IsCosmeticThrough part) (n : Nat) (c : Char) (t : Turtle σ) :
    ∃ commands : List Command, (∀ m ∈ commands, m.isCosmetic) ∧
      part (t.observe hooks n c).surface = Surface.performAll (part t.surface) commands := by
  rw [surface_observe]
  exact foldl_cosmetic h (t.moment n c) t.surface

/-- Cosmetic hooks give the surface some cosmetic commands. -/
theorem surface_observe_cosmetic {hooks : List (Hook σ)} (h : ∀ k ∈ hooks, k.IsCosmetic) (n : Nat)
    (c : Char) (t : Turtle σ) : ∃ commands : List Command, (∀ m ∈ commands, m.isCosmetic) ∧
      (t.observe hooks n c).surface = Surface.performAll t.surface commands :=
  @surface_observe_through σ _ σ _ id hooks h n c t

/-- What every hook leaves of the surface as it is, a round of hooks does. -/
theorem surface_observe_of_spared {α : Type} {f : σ → α} {hooks : List (Hook σ)}
    (h : ∀ k ∈ hooks, ∀ m s, f (k m s) = f s) (n : Nat) (c : Char) (t : Turtle σ) :
    f (t.observe hooks n c).surface = f t.surface := by
  rw [surface_observe]
  generalize t.surface = s
  induction hooks generalizing s with
  | nil => rfl
  | cons k ks ih =>
    obtain ⟨hk, hks⟩ := List.forall_mem_cons.mp h
    rw [List.foldl_cons, ih hks, hk]

/-- Of the cursor, hooks change the pen width alone. -/
theorem cursor_observe (hooks : List (Hook σ)) (n : Nat) (c : Char) (t : Turtle σ) :
    (t.observe hooks n c).cursor =
      { t.cursor with penWidth := (t.observe hooks n c).cursor.penWidth } := by
  unfold observe
  split <;> rfl

/-- With hooks, the cursor takes the pen width of the surface. -/
theorem penWidth_observe {hooks : List (Hook σ)} (h : hooks ≠ []) (n : Nat) (c : Char)
    (t : Turtle σ) :
    (t.observe hooks n c).cursor.penWidth =
      Surface.penWidth (t.observe hooks n c).surface := by
  simp [observe, h]

@[simp] theorem observe_nil (n : Nat) (c : Char) (t : Turtle σ) : t.observe [] n c = t := rfl

/-- Hooks see the saved states, but they cannot reach them. -/
@[simp] theorem stack_observe (hooks : List (Hook σ)) (n : Nat) (c : Char)
    (t : Turtle σ) : (t.observe hooks n c).stack = t.stack := by
  unfold observe
  split <;> rfl

end Turtle

/-- A symbol that was acted on, with the turtle after its hooks and after its action. -/
structure Step (σ : Type) where
  symbol : Char
  before : Turtle σ
  after : Turtle σ

namespace Interpreter

/-- The steps of a run, in order. A symbol that fails is not one of them. -/
def steps (i : Interpreter) (hooks : List (Hook σ)) : Nat → Word → Turtle σ → List (Step σ)
  | _, [], _ => []
  | n, c :: cs, t =>
    let t := t.observe hooks n c
    match t.act i.params (i.bindings.action c) with
    | .error _ => []
    | .ok next => ⟨c, t, next⟩ :: i.steps hooks (n + 1) cs next

theorem walk_cons_of_ok {i : Interpreter} {hooks : List (Hook σ)} {n : Nat} {c : Char} {cs : Word}
    {t next : Turtle σ}
    (h : (t.observe hooks n c).act i.params (i.bindings.action c) = .ok next) :
    i.walk hooks n (c :: cs) t = i.walk hooks (n + 1) cs next := by
  simp only [walk, h]

theorem walk_cons_of_error {i : Interpreter} {hooks : List (Hook σ)} {n : Nat} {c : Char}
    {cs : Word} {t : Turtle σ} {f : Fault}
    (h : (t.observe hooks n c).act i.params (i.bindings.action c) = .error f) :
    i.walk hooks n (c :: cs) t =
      ⟨t.observe hooks n c, some { f with position := some n, severity := .fatal }⟩ := by
  simp only [walk, h]

/-- A run that reaches the end of a word goes on with the next one. -/
theorem walk_append {i : Interpreter} {hooks : List (Hook σ)} {n : Nat} {u : Word} {t : Turtle σ}
    (h : (i.walk hooks n u t).fault = none) (v : Word) :
    i.walk hooks n (u ++ v) t = i.walk hooks (n + u.length) v (i.walk hooks n u t).turtle := by
  induction u generalizing n t with
  | nil => rfl
  | cons c cs ih =>
    cases ha : (t.observe hooks n c).act i.params (i.bindings.action c) with
    | error f =>
      rw [walk_cons_of_error ha] at h
      cases h
    | ok next =>
      rw [walk_cons_of_ok ha] at h
      rw [List.cons_append, walk_cons_of_ok ha, walk_cons_of_ok ha, ih h, List.length_cons,
        Nat.add_right_comm, Nat.add_assoc]

theorem steps_cons_of_ok {i : Interpreter} {hooks : List (Hook σ)} {n : Nat} {c : Char} {cs : Word}
    {t next : Turtle σ}
    (h : (t.observe hooks n c).act i.params (i.bindings.action c) = .ok next) :
    i.steps hooks n (c :: cs) t =
      ⟨c, t.observe hooks n c, next⟩ :: i.steps hooks (n + 1) cs next := by
  simp only [steps, h]

theorem steps_cons_of_error {i : Interpreter} {hooks : List (Hook σ)} {n : Nat} {c : Char}
    {cs : Word} {t : Turtle σ} {f : Fault}
    (h : (t.observe hooks n c).act i.params (i.bindings.action c) = .error f) :
    i.steps hooks n (c :: cs) t = [] := by
  simp only [steps, h]

/-- The symbols of the steps are the word up to where the run stops. -/
theorem symbols_steps (i : Interpreter) (hooks : List (Hook σ)) (n : Nat) (w : Word)
    (t : Turtle σ) :
    (i.steps hooks n w t).map Step.symbol = w.take (i.steps hooks n w t).length := by
  induction w generalizing n t with
  | nil => rfl
  | cons c cs ih =>
    cases ha : (t.observe hooks n c).act i.params (i.bindings.action c) with
    | error f => simp [steps_cons_of_error ha]
    | ok next => simp [steps_cons_of_ok ha, ih]

/-- A step leads from the run of the word before its symbol, after the hooks, to the run of the word
up to and with its symbol. -/
theorem states_of_getElem?_steps {i : Interpreter} {hooks : List (Hook σ)} {n k : Nat} {w : Word}
    {t : Turtle σ} {s : Step σ} (h : (i.steps hooks n w t)[k]? = some s) :
    s.before = (i.walk hooks n (w.take k) t).turtle.observe hooks (n + k) s.symbol ∧
      s.after = (i.walk hooks n (w.take (k + 1)) t).turtle := by
  induction w generalizing n k t with
  | nil => cases h
  | cons c cs ih =>
    cases ha : (t.observe hooks n c).act i.params (i.bindings.action c) with
    | error f =>
      rw [steps_cons_of_error ha] at h
      cases h
    | ok next =>
      rw [steps_cons_of_ok ha] at h
      cases k with
      | zero =>
        cases h
        rw [List.take_succ_cons, walk_cons_of_ok ha]
        exact ⟨rfl, rfl⟩
      | succ k =>
        have hs := ih h
        rw [Nat.add_assoc, Nat.add_comm 1] at hs
        rwa [List.take_succ_cons, List.take_succ_cons, walk_cons_of_ok ha, walk_cons_of_ok ha]

/-- A run takes a step for each symbol, or it stops at the first symbol that fails. -/
theorem fault_walk (i : Interpreter) (hooks : List (Hook σ)) (n : Nat) (w : Word) (t : Turtle σ) :
    (i.walk hooks n w t).fault = none ∧ (i.steps hooks n w t).length = w.length ∨
    (i.walk hooks n w t).fault =
      some ⟨.nothingSaved, some (n + (i.steps hooks n w t).length), .fatal⟩ := by
  induction w generalizing n t with
  | nil => exact .inl ⟨rfl, rfl⟩
  | cons c cs ih =>
    cases ha : (t.observe hooks n c).act i.params (i.bindings.action c) with
    | error f =>
      obtain ⟨_, _, rfl⟩ := Turtle.act_eq_error_iff.mp ha
      rw [walk_cons_of_error ha, steps_cons_of_error ha]
      exact .inr rfl
    | ok next =>
      rw [walk_cons_of_ok ha, steps_cons_of_ok ha]
      rcases ih (n + 1) next with ⟨hn, hl⟩ | hf
      · exact .inl ⟨hn, congrArg (· + 1) hl⟩
      · refine .inr (hf.trans ?_)
        simp [Nat.add_assoc, Nat.add_comm 1]

/-- What hooks and actions keep, a run keeps at each of its steps and where it stops. -/
theorem run_invariant {i : Interpreter} {hooks : List (Hook σ)} {motive : Turtle σ → Prop}
    (observe : ∀ n c t, motive t → motive (t.observe hooks n c))
    (act : ∀ a t next, motive t → t.act i.params a = .ok next → motive next) (n : Nat) (w : Word)
    {t : Turtle σ} (h : motive t) :
    (∀ s ∈ i.steps hooks n w t, motive s.before ∧ motive s.after) ∧
      motive (i.walk hooks n w t).turtle := by
  induction w generalizing n t with
  | nil => exact ⟨nofun, h⟩
  | cons c cs ih =>
    have ho := observe n c t h
    cases ha : (t.observe hooks n c).act i.params (i.bindings.action c) with
    | error f =>
      rw [steps_cons_of_error ha, walk_cons_of_error ha]
      exact ⟨nofun, ho⟩
    | ok next =>
      have hn := act _ _ next ho ha
      obtain ⟨hs, hw⟩ := ih (n + 1) hn
      rw [steps_cons_of_ok ha, walk_cons_of_ok ha]
      exact ⟨List.forall_mem_cons.mpr ⟨⟨ho, hn⟩, hs⟩, hw⟩

end Interpreter
end Lindenmayer
