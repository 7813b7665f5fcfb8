import Lindenmayer.Grammar.Rules

/-! Passes over words, one key at a time: what a pass does where a key fits and where none does. -/
namespace Lindenmayer.Rules

theorem mem_place {r e : Word × Word} {es : List (Word × Word)} :
    e ∈ place r es ↔ e = r ∨ e ∈ es := by
  induction es with
  | nil => simp [place]
  | cons f es ih =>
    unfold place
    split
    · rw [List.mem_cons, ih, List.mem_cons]
      exact or_left_comm
    · exact List.mem_cons

/-- The entries of a rule set are the rules that it is made of, those with an empty key apart. -/
theorem mem_ofList {rs : List (Word × Word)} {e : Word × Word} :
    e ∈ (ofList rs).entries ↔ e ∈ rs ∧ e.1 ≠ [] := by
  have hp : ∀ es : List (Word × Word), e ∈ es.foldr place [] ↔ e ∈ es := by
    intro es
    induction es with
    | nil => exact Iff.rfl
    | cons r es ih => rw [List.foldr_cons, mem_place, ih, List.mem_cons]
  simp [ofList, hp]

/-- A rule set without an empty key. -/
def Proper (r : Rules) : Prop := ∀ e ∈ r.entries, e.1 ≠ []

theorem proper_ofList (rs : List (Word × Word)) : (ofList rs).Proper :=
  fun _ h => (mem_ofList.mp h).2

theorem mem_of_match {r : Rules} {w : Word} {e : Word × Word} (h : r.match? w = some e) :
    e ∈ r.entries :=
  List.mem_of_find?_eq_some h

theorem eq_append_of_match {r : Rules} {w : Word} {e : Word × Word} (h : r.match? w = some e) :
    ∃ rest, w = e.1 ++ rest := by
  obtain ⟨rest, hr⟩ := List.isPrefixOf_iff_prefix.mp
    (List.find?_some (p := fun e : Word × Word => e.1.isPrefixOf w) h)
  exact ⟨rest, hr.symm⟩

private theorem applyFrom_eq (r : Rules) (skip : Nat) (done w : Word) :
    r.applyFrom skip done w = done.reverse ++ r.applyFrom 0 [] (w.drop skip) := by
  induction w generalizing skip done with
  | nil => simp [applyFrom]
  | cons c cs ih =>
    cases skip with
    | succ skip => exact ih skip done
    | zero =>
      simp only [applyFrom, List.drop_zero]
      cases r.match? (c :: cs) with
      | none =>
        dsimp only
        rw [ih 0 (c :: done), ih 0 [c], List.reverse_cons, List.append_assoc]
        rfl
      | some e =>
        dsimp only
        rw [ih _ (e.2.reverse ++ done), ih _ (e.2.reverse ++ [])]
        simp

private theorem apply_eq_applyFrom (r : Rules) (w : Word) : r.apply w = r.applyFrom 0 [] w := by
  unfold apply
  split
  · rename_i he
    have hm : ∀ w, r.match? w = none := by
      intro w
      rw [match?, List.isEmpty_iff.mp he, List.find?_nil]
    induction w with
    | nil => rfl
    | cons c cs ih => rw [applyFrom, hm, applyFrom_eq, List.drop_zero, ← ih]; rfl
  · rfl

@[simp] theorem apply_nil (r : Rules) : r.apply [] = [] := by
  rw [apply_eq_applyFrom]
  rfl

/-- Where a key fits, it is replaced and the pass goes on after it. -/
theorem apply_of_match {r : Rules} (hr : r.Proper) {key rest replacement : Word}
    (h : r.match? (key ++ rest) = some (key, replacement)) :
    r.apply (key ++ rest) = replacement ++ r.apply rest := by
  cases hk : key with
  | nil => exact absurd hk (hr _ (mem_of_match h))
  | cons c cs =>
    subst hk
    rw [apply_eq_applyFrom, apply_eq_applyFrom, List.cons_append, applyFrom]
    rw [List.cons_append] at h
    rw [h]
    dsimp only
    rw [applyFrom_eq]
    simp

/-- Where no key fits, the symbol stays. -/
theorem apply_of_no_match {r : Rules} {c : Char} {cs : Word} (h : r.match? (c :: cs) = none) :
    r.apply (c :: cs) = c :: r.apply cs := by
  rw [apply_eq_applyFrom, apply_eq_applyFrom, applyFrom, h]
  dsimp only
  rw [applyFrom_eq]
  rfl

/-- Induction along a pass: what follows where a key fits and where none does holds for every
word. -/
theorem pass_induction {r : Rules} (hr : r.Proper) {motive : Word → Prop} (nil : motive [])
    (fits : ∀ key replacement rest, r.match? (key ++ rest) = some (key, replacement) →
      motive rest → motive (key ++ rest))
    (stays : ∀ c cs, r.match? (c :: cs) = none → motive cs → motive (c :: cs)) (w : Word) :
    motive w := by
  induction hn : w.length using Nat.strongRecOn generalizing w with
  | _ n ih =>
    cases w with
    | nil => exact nil
    | cons c cs =>
      cases hm : r.match? (c :: cs) with
      | none => exact stays c cs hm (ih cs.length (by simp [← hn]) cs rfl)
      | some e =>
        obtain ⟨rest, he⟩ := eq_append_of_match hm
        have hp := List.length_pos_iff.mpr (hr e (mem_of_match hm))
        have hl : rest.length < n := by
          rw [← hn, he, List.length_append]
          omega
        rw [he] at hm ⊢
        exact fits e.1 e.2 rest hm (ih _ hl rest rfl)

/-- A pass brings in no symbols but those of the replacements. -/
theorem forall_mem_apply {r : Rules} (hr : r.Proper) {p : Char → Prop}
    (he : ∀ e ∈ r.entries, ∀ c ∈ e.2, p c) {w : Word} (hw : ∀ c ∈ w, p c) :
    ∀ c ∈ r.apply w, p c := by
  induction w using pass_induction hr with
  | nil => simp
  | fits key replacement rest hm ih =>
    have hrest := ih fun c hc => hw c (List.mem_append_right key hc)
    rw [apply_of_match hr hm]
    exact fun c hc => (List.mem_append.mp hc).elim (he _ (mem_of_match hm) c) (hrest c)
  | stays c cs hm ih =>
    obtain ⟨hc, hcs⟩ := List.forall_mem_cons.mp hw
    rw [apply_of_no_match hm]
    exact List.forall_mem_cons.mpr ⟨hc, ih hcs⟩

/-- When each key is replaced by the symbols of it that are kept, and each symbol that is not kept
is a key of its own, then a pass keeps these symbols and deletes the others, whichever keys fit
where. -/
theorem apply_eq_filter {r : Rules} {keep : Char → Bool} (hr : r.Proper)
    (hk : ∀ e ∈ r.entries, e.2 = e.1.filter keep)
    (hd : ∀ c, keep c = false → ([c], []) ∈ r.entries) (w : Word) :
    r.apply w = w.filter keep := by
  induction w using pass_induction hr with
  | nil => simp
  | fits key replacement rest hm ih =>
    rw [apply_of_match hr hm, List.filter_append, ← hk _ (mem_of_match hm), ih]
  | stays c cs hm ih =>
    have hc : keep c = true := by
      cases hc : keep c with
      | true => rfl
      | false =>
        have hf := List.find?_eq_none.mp hm _ (hd c hc)
        simp at hf
    rw [apply_of_no_match hm, List.filter_cons_of_pos hc, ih]

end Lindenmayer.Rules
