import Lindenmayer.Proofs.Turtle.Canvas
import Lindenmayer.Proofs.Turtle.Steps
import Lindenmayer.Turtle.Decoration

/-! Decorations on a canvas. Before a symbol they never change the picture, and a second round of
them at the same place and depth changes nothing at all. -/
namespace Lindenmayer
open Surface

namespace Canvas

private theorem pen_flush (c : Canvas) : c.flush.pen = c.pen := by simp [pen]

private theorem perform_cosmetic (c : Canvas) {m : Command} (h : m.isCosmetic) :
    c.perform m =
      if c.pen.breaks m then
        { c.flush with penWidth := (c.pen.follow m).width, color := (c.pen.follow m).color }
      else c := by
  cases m with
  | setPenWidth w =>
    cases hw : w == c.penWidth <;> simp [perform, Pen.breaks, Pen.follow, adopt, pen, bne, hw]
  | setColor k =>
    cases hk : k == c.color <;> simp [perform, Pen.breaks, Pen.follow, adopt, pen, bne, hk]
  | _ => contradiction

private theorem perform_of_not_breaks (c : Canvas) {m : Command} (h : m.isCosmetic)
    (hb : c.pen.breaks m = false) : c.perform m = c := by
  rw [perform_cosmetic c h, hb]
  rfl

private theorem perform_of_breaks (c : Canvas) {m : Command} (h : m.isCosmetic)
    (hb : c.pen.breaks m = true) : c.perform m = c.flush.perform m := by
  rw [perform_cosmetic c h, perform_cosmetic c.flush h, pen_flush, hb,
    flush_of_points_nil (points_flush c)]
  rfl

private theorem performAll_of_not_breaksIn (c : Canvas) {ms : List Command}
    (h : ∀ m ∈ ms, m.isCosmetic) (hb : c.pen.breaksIn ms = false) : performAll c ms = c := by
  induction ms with
  | nil => rfl
  | cons m ms ih =>
    obtain ⟨hm, hms⟩ := List.forall_mem_cons.mp h
    obtain ⟨hn, hr⟩ := Bool.or_eq_false_iff.mp hb
    rw [c.pen.follow_of_not_breaks hm hn] at hr
    rw [performAll_cons, perform_eq, perform_of_not_breaks c hm hn, ih hms hr]

private theorem performAll_of_breaksIn (c : Canvas) {ms : List Command}
    (h : ∀ m ∈ ms, m.isCosmetic) (hb : c.pen.breaksIn ms = true) :
    performAll c ms = performAll c.flush ms := by
  induction ms with
  | nil => contradiction
  | cons m ms ih =>
    obtain ⟨hm, hms⟩ := List.forall_mem_cons.mp h
    simp only [performAll_cons, perform_eq]
    cases hn : c.pen.breaks m with
    | true => rw [perform_of_breaks c hm hn]
    | false =>
      have hr : c.pen.breaksIn ms = true := by
        simpa [Pen.breaksIn, hn, c.pen.follow_of_not_breaks hm hn] using hb
      have hf : c.flush.pen.breaks m = false := by rw [pen_flush, hn]
      rw [perform_of_not_breaks c hm hn, perform_of_not_breaks c.flush hm hf, ih hms hr]

/-- Without an open stroke, cosmetic commands change the looks of the pen alone. -/
private theorem performAll_of_points_nil {c : Canvas} (hp : c.points = []) {ms : List Command}
    (h : ∀ m ∈ ms, m.isCosmetic) :
    performAll c ms =
      { c with penWidth := (c.pen.followAll ms).width, color := (c.pen.followAll ms).color } := by
  induction ms generalizing c with
  | nil => rfl
  | cons m ms ih =>
    obtain ⟨hm, hms⟩ := List.forall_mem_cons.mp h
    have hc : c.perform m =
        { c with penWidth := (c.pen.follow m).width, color := (c.pen.follow m).color } := by
      rw [perform_cosmetic c hm]
      cases hb : c.pen.breaks m with
      | true => rw [flush_of_points_nil hp]; rfl
      | false => rw [c.pen.follow_of_not_breaks hm hb]; rfl
    have hn : (c.perform m).points = [] := by rw [hc]; exact hp
    rw [performAll_cons, perform_eq, ih hn hms, pen_perform, hc, Pen.followAll_cons]

/-- Giving a canvas cosmetic commands a second time changes nothing. -/
theorem performAll_twice (c : Canvas) {ms : List Command} (h : ∀ m ∈ ms, m.isCosmetic) :
    performAll (performAll c ms) ms = performAll c ms := by
  cases hb : c.pen.breaksIn ms with
  | false => rw [performAll_of_not_breaksIn c h hb, performAll_of_not_breaksIn c h hb]
  | true =>
    -- The first time has closed the open stroke, so that only the looks are left to compare.
    have hp : (performAll c ms).points = [] := by
      rw [performAll_of_breaksIn c h hb, performAll_of_points_nil (points_flush c) h]
      exact points_flush c
    rw [performAll_of_points_nil hp h, pen_performAll, Pen.followAll_twice _ h, ← pen_performAll]
    rfl

/-- Cosmetic commands leave the picture as it is. -/
theorem picture_performAll_cosmetic (c : Canvas) {ms : List Command} (h : ∀ m ∈ ms, m.isCosmetic) :
    (performAll c ms).picture = c.picture := by
  induction ms generalizing c with
  | nil => rfl
  | cons m ms ih =>
    obtain ⟨hm, hms⟩ := List.forall_mem_cons.mp h
    rw [performAll_cons, perform_eq, ih _ hms, picture_perform (c.pen.mark?_cosmetic hm)]

end Canvas

namespace Decoration
variable {σ : Type} [Surface σ]

theorem isCosmetic_command (d : Decoration) (m : Moment) : (d.command m).isCosmetic := by
  cases d <;> rfl

theorem isCosmetic_hook (d : Decoration) : Hook.IsCosmetic (d.hook : Hook σ) :=
  fun m _ => ⟨[d.command m], by simpa using d.isCosmetic_command m, rfl⟩

theorem isCosmetic_hooks (ds : List Decoration) :
    ∀ k ∈ ds.map (hook (σ := σ)), k.IsCosmetic := by
  intro k hk
  obtain ⟨d, _, rfl⟩ := List.mem_map.mp hk
  exact d.isCosmetic_hook

/-- The commands of some decorations before a symbol. -/
def commands (ds : List Decoration) (m : Moment) : List Command := ds.map (·.command m)

private theorem isCosmetic_commands (ds : List Decoration) (m : Moment) :
    ∀ c ∈ commands ds m, c.isCosmetic := by
  intro c hc
  obtain ⟨d, _, rfl⟩ := List.mem_map.mp hc
  exact d.isCosmetic_command m

/-- Of a moment, decorations see the place and the depth alone. -/
private theorem commands_congr (ds : List Decoration) {m n : Moment}
    (hp : m.cursor.position = n.cursor.position) (hd : m.depth = n.depth) :
    commands ds m = commands ds n := by
  apply List.map_congr_left
  intro d _
  cases d <;> simp [command, hp, hd]

private theorem foldl_hooks (ds : List Decoration) (m : Moment) (s : σ) :
    (ds.map hook).foldl (fun s (hook : Hook σ) => hook m s) s = performAll s (commands ds m) := by
  induction ds generalizing s with
  | nil => rfl
  | cons d ds ih => exact ih (hook d m s)

/-- What a round of decorations makes of a turtle: it gives its commands, and the cursor takes the
pen width that the surface has then. -/
private theorem observe_eq {ds : List Decoration} (hd : ds ≠ []) (n : Nat) (c : Char)
    (t : Turtle σ) :
    t.observe (ds.map hook) n c =
      let surface := performAll t.surface (commands ds (t.moment n c))
      ⟨{ t.cursor with penWidth := Surface.penWidth surface }, t.stack, surface⟩ := by
  simp [Turtle.observe, hd, foldl_hooks]

/-- A round of decorations is the same before every symbol. -/
theorem observe_congr (ds : List Decoration) (n n' : Nat) (c c' : Char) (t : Turtle σ) :
    t.observe (ds.map hook) n c = t.observe (ds.map hook) n' c' := by
  by_cases hd : ds = []
  · subst hd; rfl
  · rw [observe_eq hd, observe_eq hd,
      commands_congr ds (m := t.moment n c) (n := t.moment n' c') rfl rfl]

/-- A second round of decorations changes nothing. -/
theorem observe_observe (ds : List Decoration) (n n' : Nat) (c c' : Char) (t : Turtle Canvas) :
    (t.observe (ds.map hook) n c).observe (ds.map hook) n' c' = t.observe (ds.map hook) n c := by
  by_cases hd : ds = []
  · subst hd; rfl
  · let ms := commands ds (t.moment n c)
    let u : Turtle Canvas :=
      ⟨{ t.cursor with penWidth := (performAll t.surface ms).penWidth }, t.stack,
        performAll t.surface ms⟩
    have hu : t.observe (ds.map hook) n c = u := observe_eq hd n c t
    have hc : commands ds (u.moment n' c') = ms := commands_congr ds rfl rfl
    have ht : performAll u.surface ms = u.surface :=
      t.surface.performAll_twice (isCosmetic_commands ds (t.moment n c))
    rw [hu, observe_eq hd, hc, ht]
    rfl

end Decoration
end Lindenmayer
