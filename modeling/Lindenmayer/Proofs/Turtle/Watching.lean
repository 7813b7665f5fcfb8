import Lindenmayer.Proofs.Turtle.Reuse
import Lindenmayer.Proofs.Turtle.Underflow
import Lindenmayer.Turtle.Recorder

/-! What hooks are shown. Each hook notes the moments at which it is called: one for each symbol that the
run reaches, with the turtle as the run of the symbols before has left it. -/
namespace Lindenmayer
open Surface
variable {σ : Type} {hooks : List (Hook σ)}

/-- A hook that also notes its place among the hooks and what it is shown. -/
def Hook.watched (hook : Hook σ) (place : Nat) : Hook (Noted σ (Nat × Moment)) :=
  fun m s => (⟨hook m s.surface, s.notes⟩ : Noted σ (Nat × Moment)).note (place, m)

/-- The hooks of a list, each with its place noted. -/
def watch (hooks : List (Hook σ)) : List (Hook (Noted σ (Nat × Moment))) :=
  hooks.zipIdx.map fun (hook, place) => hook.watched place

/-- The calls of all hooks at one moment, in order. -/
def calls (hooks : List (Hook σ)) (m : Moment) : List (Nat × Moment) :=
  (List.range hooks.length).map fun place => (place, m)

private theorem foldl_watched (hooks : List (Hook σ)) (first : Nat) (m : Moment)
    (s : Noted σ (Nat × Moment)) :
    ((hooks.zipIdx first).map fun (hook, place) => hook.watched place).foldl
        (fun s hook => hook m s) s =
      ⟨hooks.foldl (fun s hook => hook m s) s.surface,
        ((List.range' first hooks.length).map fun place => (place, m)).reverse ++ s.notes⟩ := by
  induction hooks generalizing first s with
  | nil => rfl
  | cons hook hooks ih =>
    simp only [List.zipIdx_cons, List.map_cons, List.foldl_cons, ih, List.length_cons,
      List.range'_succ, List.reverse_cons, List.append_assoc]
    rfl

theorem foldl_watch (m : Moment) (s : Noted σ (Nat × Moment)) :
    (watch hooks).foldl (fun s hook => hook m s) s =
      ⟨hooks.foldl (fun s hook => hook m s) s.surface, (calls hooks m).reverse ++ s.notes⟩ := by
  rw [watch, foldl_watched, calls, List.range_eq_range']

theorem watch_along (hooks : List (Hook σ)) : Hook.Along Noted.surface (watch hooks) hooks where
  isEmpty := by cases hooks <;> rfl
  round m s := by rw [foldl_watch]

section Maps
variable [Surface σ]

theorem carries_surface {ν : Type} : Carries (Noted.surface : Noted σ ν → σ) where
  perform _ _ := rfl
  penWidth _ := rfl

/-- Commands leave the notes as they are. -/
theorem notes_performAll {ν : Type} (s : Noted σ ν) (ms : List Command) :
    (performAll s ms).notes = s.notes := by
  induction ms generalizing s with
  | nil => rfl
  | cons m ms ih => rw [performAll_cons, ih]; rfl

end Maps

namespace Interpreter
variable [Surface σ]

/-- The moments before the symbols that a run reaches, in order. -/
def moments (i : Interpreter) (hooks : List (Hook σ)) : Nat → Word → Turtle σ → List Moment
  | _, [], _ => []
  | n, c :: cs, t =>
    t.moment n c ::
      match (t.observe hooks n c).act i.params (i.bindings.action c) with
      | .error _ => []
      | .ok next => i.moments hooks (n + 1) cs next

variable {i : Interpreter} {n : Nat} {c : Char} {w cs : Word} {t next : Turtle σ}

theorem moments_cons_of_ok
    (h : (t.observe hooks n c).act i.params (i.bindings.action c) = .ok next) :
    i.moments hooks n (c :: cs) t = t.moment n c :: i.moments hooks (n + 1) cs next := by
  simp only [moments, h]

theorem moments_cons_of_error {f : Fault}
    (h : (t.observe hooks n c).act i.params (i.bindings.action c) = .error f) :
    i.moments hooks n (c :: cs) t = [t.moment n c] := by
  simp only [moments, h]

/-- A run reaches all symbols, or those up to the one that fails. -/
theorem length_moments (i : Interpreter) (hooks : List (Hook σ)) (n : Nat) (w : Word)
    (t : Turtle σ) :
    (i.walk hooks n w t).fault = none ∧ (i.moments hooks n w t).length = w.length ∨
      ∃ k < w.length, (i.walk hooks n w t).fault = some ⟨.nothingSaved, some (n + k), .fatal⟩ ∧
        (i.moments hooks n w t).length = k + 1 := by
  induction w generalizing n t with
  | nil => exact .inl ⟨rfl, rfl⟩
  | cons c cs ih =>
    cases ha : (t.observe hooks n c).act i.params (i.bindings.action c) with
    | error f =>
      obtain ⟨_, _, rfl⟩ := Turtle.act_eq_error_iff.mp ha
      rw [walk_cons_of_error ha, moments_cons_of_error ha]
      exact .inr ⟨0, Nat.zero_lt_succ _, rfl, rfl⟩
    | ok next =>
      rw [walk_cons_of_ok ha, moments_cons_of_ok ha]
      obtain ⟨hf, hl⟩ | ⟨k, hk, hf, hl⟩ := ih (n + 1) next
      · exact .inl ⟨hf, congrArg (· + 1) hl⟩
      · refine .inr ⟨k + 1, Nat.succ_lt_succ hk, ?_, congrArg (· + 1) hl⟩
        rw [hf, Nat.add_assoc, Nat.add_comm 1]

/-- Before a symbol, the turtle is where the run of the symbols before it ends. -/
theorem moment_of_getElem?_moments {k : Nat} {m : Moment}
    (h : (i.moments hooks n w t)[k]? = some m) :
    (i.walk hooks n (w.take k) t).fault = none ∧
      ∃ c, w[k]? = some c ∧ m = (i.walk hooks n (w.take k) t).turtle.moment (n + k) c := by
  induction w generalizing n k t with
  | nil => cases h
  | cons c cs ih =>
    cases k with
    | zero =>
      obtain rfl : t.moment n c = m := Option.some.inj h
      exact ⟨rfl, c, rfl, rfl⟩
    | succ k =>
      cases ha : (t.observe hooks n c).act i.params (i.bindings.action c) with
      | error f =>
        rw [moments_cons_of_error ha] at h
        cases h
      | ok next =>
        rw [moments_cons_of_ok ha] at h
        have hrest := ih h
        rw [Nat.add_assoc, Nat.add_comm 1] at hrest
        rwa [List.take_succ_cons, walk_cons_of_ok ha]

/-- The calls that are noted are those of all hooks at each moment of the run. -/
theorem notes_walk (i : Interpreter) (hooks : List (Hook σ)) (n : Nat) (w : Word)
    (t : Turtle (Noted σ (Nat × Moment))) :
    (i.walk (watch hooks) n w t).turtle.surface.notes =
      ((i.moments hooks n w (t.map Noted.surface)).flatMap (calls hooks)).reverse ++
        t.surface.notes := by
  induction w generalizing n t with
  | nil => rfl
  | cons c cs ih =>
    have ho := Turtle.observe_map carries_surface (watch_along hooks) n c t
    have ha := Turtle.act_map carries_surface i.params (i.bindings.action c)
      (t.observe (watch hooks) n c)
    rw [← ho] at ha
    have hnotes : (t.observe (watch hooks) n c).surface.notes =
        (calls hooks ((t.map Noted.surface).moment n c)).reverse ++ t.surface.notes := by
      rw [Turtle.surface_observe, foldl_watch]
      rfl
    cases hr : (t.observe (watch hooks) n c).act i.params (i.bindings.action c) with
    | error f =>
      rw [hr] at ha
      rw [walk_cons_of_error hr, moments_cons_of_error ha, hnotes, List.flatMap_singleton]
    | ok next =>
      rw [hr] at ha
      have hnext : next.surface.notes = (t.observe (watch hooks) n c).surface.notes := by
        obtain ⟨e, -, rfl⟩ := Turtle.act_eq_ok_iff.mp hr
        exact notes_performAll _ _
      rw [walk_cons_of_ok hr, moments_cons_of_ok ha, ih, hnext, hnotes, List.flatMap_cons,
        List.reverse_append, List.append_assoc]

/-- Hooks observe every symbol that is reached exactly once, in order, and what they are shown is the
state that the symbols before it have led to. Take any hooks on any surface; a hook that remembers
something keeps it with the surface. When each call is noted, nothing else of the run changes, and the
calls are those of all hooks in order at each of some moments. There is one moment for each symbol, or
one for each up to the symbol that fails. Each shows its symbol and index, as many saved states as the
symbols before it leave, and the cursor in which the run of these symbols ends, with the same hooks. -/
theorem run_watched (i : Interpreter) (hooks : List (Hook σ)) (pose : Pose) (w : Word)
    (surface : σ) :
    let run := i.run hooks pose w surface
    let noted := i.run (watch hooks) pose w ⟨surface, []⟩
    noted.result = run.result ∧ noted.turtle.surface.surface = run.turtle.surface ∧
      ∃ moments : List Moment,
        noted.turtle.surface.notes.reverse = moments.flatMap (calls hooks) ∧
        ((∃ cursor, run.result = .ok cursor) ∧ moments.length = w.length ∨
          ∃ k < w.length, run.result = .error ⟨.nothingSaved, some k, .fatal⟩ ∧
            moments.length = k + 1) ∧
        ∀ k m, moments[k]? = some m →
          w[k]? = some m.symbol ∧ m.index = k ∧
          m.depth + i.bindings.pops (w.take k) = i.bindings.pushes (w.take k) ∧
          (i.run hooks pose (w.take k) surface).result = .ok m.cursor := by
  intro run noted
  have hstart : (Turtle.start i.params pose (⟨surface, []⟩ : Noted σ (Nat × Moment))).map
      Noted.surface = .start i.params pose surface := rfl
  have hrun : run = ⟨noted.turtle.map Noted.surface, noted.fault⟩ := by
    change i.walk hooks 0 w (.start i.params pose surface) = _
    rw [← hstart]
    exact i.walk_along carries_surface (watch_along hooks) 0 w _
  have hnotes := notes_walk i hooks 0 w (.start i.params pose ⟨surface, []⟩)
  rw [hstart] at hnotes
  refine ⟨?_, ?_, i.moments hooks 0 w (.start i.params pose surface), ?_, ?_, ?_⟩
  · rw [hrun]
    rfl
  · rw [hrun]
    rfl
  · change (i.walk (watch hooks) 0 w _).turtle.surface.notes.reverse = _
    rw [hnotes, List.reverse_append, List.reverse_reverse]
    rfl
  · obtain ⟨hf, hl⟩ | ⟨k, hk, hf, hl⟩ :=
      i.length_moments hooks 0 w (.start i.params pose surface)
    · exact .inl ⟨⟨_, Run.result_eq_ok_iff.mpr ⟨hf, rfl⟩⟩, hl⟩
    · rw [Nat.zero_add] at hf
      exact .inr ⟨k, hk, Run.result_eq_error_iff.mpr hf, hl⟩
  · intro k m hm
    obtain ⟨hf, c, hc, rfl⟩ := moment_of_getElem?_moments hm
    have hdepth := (Bindings.depth?_eq_some_iff.mp (depth?_run hf)).2
    rw [Nat.zero_add] at hdepth
    exact ⟨hc, Nat.zero_add k, hdepth, Run.result_eq_ok_iff.mpr ⟨hf, rfl⟩⟩

/-- Any symbols can be the brackets. A hook that widens the pen by what it finds there is called up to the
symbol that fails, and with it the other hook. -/
theorem run_watched_rebound :
    let bindings := ((Bindings.standard.bind '[' .noop).bind 'λ' .push).bind 'é' .pop
    let i : Interpreter := ⟨bindings, .ofAngle 90⟩
    let widen : Hook Canvas := fun _ s => perform s (.setPenWidth (penWidth s + penWidth s))
    let ink : Hook Canvas := fun _ s => perform s (.setColor .black)
    let w : Word := ['[', 'λ', 'F', 'é', 'é', 'F']
    let notes := (i.run (watch [widen, ink]) .standard w ⟨.empty, []⟩).turtle.surface.notes.reverse
    notes.map (fun (place, m) => (place, m.symbol, m.index, m.depth)) =
      [(0, '[', 0, 0), (1, '[', 0, 0), (0, 'λ', 1, 0), (1, 'λ', 1, 0), (0, 'F', 2, 1), (1, 'F', 2, 1),
        (0, 'é', 3, 1), (1, 'é', 3, 1), (0, 'é', 4, 0), (1, 'é', 4, 0)] ∧
      ∃ moments : List Moment, moments.length = 5 ∧ notes = moments.flatMap (calls [widen, ink]) ∧
        ∃ m, moments[4]? = some m ∧ m.symbol = 'é' ∧
          (i.run [widen, ink] .standard (w.take 4) .empty).result = .ok m.cursor := by
  intro bindings i widen ink w notes
  have hf : (i.run [widen, ink] .standard w .empty).result =
      .error ⟨.nothingSaved, some 4, .fatal⟩ := rfl
  obtain ⟨-, -, moments, hnotes, hlength, hmoments⟩ := run_watched i [widen, ink] .standard w .empty
  obtain ⟨⟨cursor, hok⟩, -⟩ | ⟨k, -, hk, hlength⟩ := hlength
  · cases hf.symm.trans hok
  · obtain rfl : 4 = k := Option.some.inj (congrArg Fault.position (Except.error.inj (hf.symm.trans hk)))
    obtain ⟨m, hm⟩ : ∃ m, moments[4]? = some m := ⟨_, List.getElem?_eq_getElem (by omega)⟩
    obtain ⟨hsymbol, -, -, hcursor⟩ := hmoments 4 m hm
    exact ⟨rfl, moments, hlength, hnotes, m, hm, (Option.some.inj hsymbol).symm, hcursor⟩

end Interpreter
end Lindenmayer
