import Lindenmayer.Turtle.Action

/-! Bindings of symbols to actions by name. The last binding of a symbol counts. One whose action has
no meaning binds its symbol to nothing and leaves one warning, whatever is bound before or after it. -/
namespace Lindenmayer

namespace NamedAction

/-- The names of the actions without a place for an amount. -/
def plainNames : List String := ["noop", "push", "pop", "reverse"]

/-- The names of the actions with a place for an amount. -/
def amountNames : List String :=
  ["forward", "forward_nodraw", "jump", "turn_left", "turn_right", "width_inc", "width_dec",
    "width_mul", "width_div", "length_inc", "length_dec", "length_mul", "length_div", "angle_inc",
    "angle_dec"]

/-- The action has a meaning: its name is known, and it has no argument, or a finite one where there
is a place for an amount. -/
def IsMeaningful (a : NamedAction) : Prop :=
  a.arguments = [] ∧ a.name ∈ plainNames ++ amountNames ∨
    ∃ x, a.arguments = [x] ∧ x.isFinite = true ∧ a.name ∈ amountNames

theorem exists_action?_iff {name : String} {amount : Option Float} :
    (∃ action, action? name amount = some action) ↔ name ∈ plainNames ++ amountNames := by
  unfold action?
  split <;> simp_all [plainNames, amountNames]

theorem takesAmount_of_action? {name : String} {amount : Option Float} {action : Action}
    (h : action? name amount = some action) : takesAmount action = true ↔ name ∈ amountNames := by
  unfold action? at h
  split at h <;> cases h <;> simp [takesAmount, amountNames]

/-- What has been looked up is the action itself, unless an amount has no place in it. -/
theorem resolve_eq_ok_iff {a : NamedAction} {action : Action} :
    a.resolve = .ok action ↔
      a.arguments = [] ∧ action? a.name none = some action ∨
        ∃ x, a.arguments = [x] ∧ x.isFinite = true ∧ action? a.name (some x) = some action ∧
          takesAmount action = true := by
  obtain ⟨name, arguments⟩ := a
  unfold resolve
  match arguments with
  | [] => cases h : action? name none <;> simp [h]
  | [x] =>
    cases hx : x.isFinite with
    | false => simp [hx]
    | true =>
      cases ha : action? name (some x) with
      | none => simp [hx, ha]
      | some known =>
        have htakes (h : known = action) : takesAmount action = takesAmount known := by rw [h]
        cases ht : takesAmount known <;> rw [ht] at htakes <;> simpa [hx, ha, ht] using htakes
  | _ :: _ :: _ => simp

theorem exists_resolve_iff {a : NamedAction} :
    (∃ action, a.resolve = .ok action) ↔ a.IsMeaningful := by
  simp only [resolve_eq_ok_iff, IsMeaningful]
  constructor
  · rintro ⟨action, ⟨hnil, ha⟩ | ⟨x, hx, hf, ha, ht⟩⟩
    · exact .inl ⟨hnil, exists_action?_iff.mp ⟨action, ha⟩⟩
    · exact .inr ⟨x, hx, hf, (takesAmount_of_action? ha).mp ht⟩
  · rintro (⟨hnil, hn⟩ | ⟨x, hx, hf, hn⟩)
    · obtain ⟨action, ha⟩ := exists_action?_iff.mpr hn
      exact ⟨action, .inl ⟨hnil, ha⟩⟩
    · obtain ⟨action, ha⟩ := exists_action?_iff.mpr (List.mem_append_right plainNames hn)
      exact ⟨action, .inr ⟨x, hx, hf, ha, (takesAmount_of_action? ha).mpr hn⟩⟩

/-- Whatever is wrong with an action, it is not one that is known. -/
theorem kind_of_resolve {a : NamedAction} {cause : Cause} (h : a.resolve = .error cause) :
    cause.kind = .unknownAction := by
  unfold resolve at h
  extract_lets arity bound at h
  have hbound {amount : Option Float} (hb : bound amount = .error cause) :
      cause.kind = .unknownAction := by
    unfold bound at hb
    split at hb
    · cases hb
      rfl
    · split at hb
      · rw [← Except.error.inj hb]
        rfl
      · cases hb
  split at h
  · exact hbound h
  · split at h
    · exact hbound h
    · cases h
      rfl
  · rw [← Except.error.inj h]
    rfl

end NamedAction

namespace Bindings

/-- Bindings leave the symbols that they do not name alone. -/
theorem action_extend_of_not_mem (b : Bindings) {bindings : List (Char × NamedAction)} {c : Char}
    (h : ∀ e ∈ bindings, e.1 ≠ c) : (b.extend bindings).1.action c = b.action c := by
  induction bindings generalizing b with
  | nil => rfl
  | cons e rest ih =>
    obtain ⟨he, hrest⟩ := List.forall_mem_cons.mp h
    have hbind (a : Action) : (b.bind e.1 a).action c = b.action c := by
      simp [action, bind, List.lookup_cons, beq_eq_false_iff_ne.mpr he.symm]
    unfold extend
    split
    · rw [ih _ hrest, hbind]
    · exact (ih _ hrest).trans (hbind .noop)

/-- The last binding of a symbol counts. When it names no action, the symbol does nothing, whatever
it was bound to before. -/
theorem action_extend (b : Bindings) (earlier : List (Char × NamedAction)) (c : Char)
    (named : NamedAction) {later : List (Char × NamedAction)} (h : ∀ e ∈ later, e.1 ≠ c) :
    (b.extend (earlier ++ (c, named) :: later)).1.action c =
      match named.resolve with
      | .ok action => action
      | .error _ => .noop := by
  induction earlier generalizing b with
  | nil =>
    have hbind (a : Action) : (b.bind c a).action c = a := by simp [action, bind]
    rw [List.nil_append, extend]
    cases named.resolve with
    | ok a => exact (action_extend_of_not_mem _ h).trans (hbind a)
    | error cause => exact (action_extend_of_not_mem _ h).trans (hbind .noop)
  | cons e earlier ih =>
    rw [List.cons_append, extend]
    cases e.2.resolve with
    | ok a => exact ih _
    | error cause => exact ih _

/-- The binding of a symbol that counts, among some in order. -/
def last? (bindings : List (Char × NamedAction)) (c : Char) : Option NamedAction :=
  bindings.reverse.lookup c

theorem action_extend_last? (b : Bindings) (bindings : List (Char × NamedAction)) (c : Char) :
    (b.extend bindings).1.action c =
      match last? bindings c with
      | none => b.action c
      | some named => match named.resolve with
        | .ok action => action
        | .error _ => .noop := by
  unfold last?
  split
  · rename_i h
    have hn := List.lookup_eq_none_iff.mp h
    exact action_extend_of_not_mem b fun e he =>
      (bne_iff_ne.mp (hn e (List.mem_reverse.mpr he))).symm
  · rename_i named h
    obtain ⟨later, earlier, hl, hn⟩ := List.lookup_eq_some_iff.mp h
    have hb : bindings = earlier.reverse ++ (c, named) :: later.reverse := by
      rw [← List.reverse_reverse bindings, hl]
      simp
    rw [hb]
    exact action_extend b earlier.reverse c named fun e he =>
      (bne_iff_ne.mp (hn e (List.mem_reverse.mp he))).symm

/-- The warning that a binding leaves when its action has no meaning. -/
def warning? (e : Char × NamedAction) : Option Fault :=
  match e.2.resolve with
  | .ok _ => none
  | .error cause => some ⟨.unresolved e.1 cause, none, .warning⟩

theorem warning?_eq_none_iff {e : Char × NamedAction} :
    warning? e = none ↔ e.2.IsMeaningful := by
  rw [← NamedAction.exists_resolve_iff, warning?]
  cases e.2.resolve <;> simp

theorem of_warning? {e : Char × NamedAction} {w : Fault} (h : warning? e = some w) :
    w.kind = .unknownAction ∧ w.position = none ∧ w.severity = .warning := by
  unfold warning? at h
  split at h
  · cases h
  · rename_i cause hcause
    have hkind : cause.kind = .unknownAction := NamedAction.kind_of_resolve hcause
    cases h
    exact ⟨hkind, rfl, rfl⟩

/-- Each binding leaves its own warning, in its own turn. -/
theorem warnings_extend (b : Bindings) (bindings : List (Char × NamedAction)) :
    (b.extend bindings).2 = bindings.filterMap warning? := by
  induction bindings generalizing b with
  | nil => rfl
  | cons e rest ih =>
    rw [extend, List.filterMap_cons, warning?]
    cases e.2.resolve with
    | ok action => exact ih _
    | error cause => exact congrArg (_ :: ·) (ih _)

/-- What bindings do. A symbol has the action that its last binding names, it does nothing when that
one names none, and it keeps its action when nothing is bound to it. The warnings are those of the
bindings, in their order: one for each binding that names no action, always of one kind and
severity, and none for the others. -/
theorem extend_faithful (b : Bindings) (bindings : List (Char × NamedAction)) :
    (∀ c, (b.extend bindings).1.action c =
      match last? bindings c with
      | none => b.action c
      | some named => named.resolve.toOption.getD .noop) ∧
    (b.extend bindings).2 = bindings.filterMap warning? ∧
    ∀ e : Char × NamedAction,
      match warning? e with
      | none => e.2.IsMeaningful
      | some w => ¬ e.2.IsMeaningful ∧
          w.kind = .unknownAction ∧ w.position = none ∧ w.severity = .warning := by
  refine ⟨fun c => ?_, b.warnings_extend bindings, fun e => ?_⟩
  · rw [action_extend_last?]
    cases last? bindings c with
    | none => rfl
    | some named => cases h : named.resolve <;> simp [h, Except.toOption]
  · split
    · exact warning?_eq_none_iff.mp ‹_›
    · rename_i w hw
      refine ⟨fun hm => ?_, of_warning? hw⟩
      rw [warning?_eq_none_iff.mpr hm] at hw
      cases hw

/-- A failing binding is reported whether it comes before or after one that counts. -/
example :
    let (b, warnings) := Bindings.standard.extend
      [('F', ⟨"spin", []⟩), ('F', ⟨"jump", [2]⟩), ('f', ⟨"forward", []⟩), ('f', ⟨"push", [1]⟩)]
    b.action 'F' = .jump (some 2) ∧ b.action 'f' = .noop ∧
      warnings.map (·.cause) =
        [.unresolved 'F' (.noSuchAction "spin"), .unresolved 'f' (.wrongArity "push" 1)] :=
  ⟨rfl, rfl, rfl⟩

end Bindings
end Lindenmayer
